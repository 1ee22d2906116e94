import ConsoleSignature.Command
import ConsoleSignature.Entry.OfBlock

/-!
The command that a signature declares: its first line that is not blank names it, the blocks on the
lines below are its entries. No signature is refused.
-/
namespace ConsoleSignature

open Text

/-- What the first line says. -/
structure Header where
  base : List Char
  hidden : Bool
  isNamespace : Bool
deriving DecidableEq

namespace Header

def isNameChar (c : Char) : Bool := c.isAlphanum || c == '_' || c == ':' || c == '-'

/-- The characters of the name, which ends where a brace opens. -/
def nameChars (line : List Char) : List Char := (line.takeWhile (· != '{')).filter isNameChar

/-- A colon at the end of the name makes a namespace. A marker, at the start of the line or after
any colon in it, hides the command. -/
def ofLine (line : List Char) : Header :=
  let chars := nameChars line
  let isNamespace := chars.getLast? == some ':'
  { base := if isNamespace then chars.dropLast else chars
    hidden := line.head?.any Entry.isMarker || (Entry.cutQualified? line).isSome
    isNamespace }

end Header

namespace Command

/-- The trimmed lines that are not blank. -/
def lines (signature : List Char) : List (List Char) := pieces '\n' signature

/-- Puts the entries where they belong: in a namespace flags are its options, and the other entries
that are not hidden its sub-commands. -/
def ofEntries (header : Header) (entries : List Entry) (handler : Handler) : Command where
  base := String.ofList header.base
  description := handler.description
  hidden := header.hidden
  isNamespace := header.isNamespace
  subCommands :=
    if header.isNamespace then some (entries.filter fun e => e.isArgument && !e.hidden) else none
  options := if header.isNamespace then entries.filter (!·.isArgument) else entries
  handler

def ofSignature (signature : String) (handler : Handler) : Command :=
  match lines signature.toList with
  | [] => bare "" handler
  | header :: body =>
    ofEntries (Header.ofLine header) (Entry.ofBlocks ([' '].intercalate body)) handler

/-- Compiles the handler's own signature. -/
def ofHandler (handler : Handler) : Command := ofSignature handler.signature handler

end Command

end ConsoleSignature
