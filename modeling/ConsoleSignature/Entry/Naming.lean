import ConsoleSignature.Entry

/-!
The part of a block before its first colon: a word or a list of flags, a modifier that says how
often the entry may be given, and a default value after an equals sign.
-/
namespace ConsoleSignature.Entry

open Text

inductive Modifier where
  | plain
  | optional
  | repeated
  | optionalRepeated
deriving DecidableEq, Inhabited, Repr

namespace Modifier

def isRepeated : Modifier → Bool
  | repeated | optionalRepeated => true
  | plain | optional => false

def marks : Modifier → List Char
  | plain => []
  | optional => ['?']
  | repeated => ['*']
  | optionalRepeated => ['?', '*']

/-- The longest modifier at the end, and what stands before it. -/
def cutEnd (s : List Char) : List Char × Modifier :=
  match s.reverse with
  | '*' :: '?' :: r => (r.reverse, optionalRepeated)
  | '*' :: r => (r.reverse, repeated)
  | '?' :: r => (r.reverse, optional)
  | _ => (s, plain)

end Modifier

/-- A name of these characters alone carries neither modifier nor default. -/
def isPlainNameChar (c : Char) : Bool := c.isAlphanum || c == '_' || c == '|' || c == '-'

def isPlainName (s : List Char) : Bool := !s.isEmpty && s.all isPlainNameChar

def isDash (c : Char) : Bool := c == '-'

/-- The last of the alternatives, without dashes before it and modifiers after it. -/
def lastAlternative (s : List Char) : List Char :=
  let last := (s.splitOn '|').getLast?.getD []
  dropEndWhile (fun c => c == '?' || c == '*') ((trim last).dropWhile isDash)

/-- A flag of one character takes one dash, a longer one two. -/
def flagOf : List Char → List Char
  | '-' :: '-' :: r => if r.length = 1 then '-' :: r else '-' :: '-' :: r
  | '-' :: r => if 1 < r.length then '-' :: '-' :: r else '-' :: r
  | r => if 1 < r.length then '-' :: '-' :: r else '-' :: r

structure Naming where
  name : String
  flags : Option (List String)
  required : Bool
  multiple : Bool
  placeholder : Option String
  defaultValue : Option DefaultValue

namespace Naming

def bracketed (s : List Char) : String := String.ofList ('[' :: s ++ [']'])

def angled (s : List Char) : String := String.ofList ('<' :: s ++ ['>'])

/-- The name and the raw default, each trimmed where the two stand apart. -/
def cutDefault (part : List Char) : List Char × Option (List Char) :=
  match cut '=' part with
  | (name, some raw) => (trim name, some (trim raw))
  | (_, none) => (part, none)

/-- The optional modifier fixes the token of the value, and otherwise a default does. -/
def placeholderOf (rawName stem : List Char) (raw : Option (List Char)) :
    Modifier → Option String
  | .optional => some (bracketed (lastAlternative stem))
  | _ => raw.map fun r =>
    if r.isEmpty then angled (lastAlternative rawName) else bracketed (lastAlternative rawName)

def defaultOf (isFlag multiple : Bool) (raw : List Char) : DefaultValue :=
  if multiple then
    DefaultValue.asList (.text (String.ofList (if raw = ['*'] then [] else raw)))
  else if isFlag then DefaultValue.ofText (String.ofList raw) false
  else .text (String.ofList raw)

def isFlagName (name : List Char) : Bool := ['-', '-'].isPrefixOf name

def flagsOf (name : List Char) : List (List Char) := (pieces '|' name).map flagOf

/-- Resolves the trimmed text before the colon. -/
def ofPart (part : List Char) : Naming :=
  let (rawName, raw) := cutDefault part
  let (stem, modifier) := Modifier.cutEnd rawName
  let name := trim stem
  let flags := flagsOf name
  let isFlag := isFlagName name
  { name := String.ofList
      (if isFlag then (flags.getLast?.getD []).dropWhile isDash else name)
    flags := if isFlag then some (flags.map String.ofList) else none
    required := isPlainName part && !isFlag
    multiple := modifier.isRepeated
    placeholder := placeholderOf rawName stem raw modifier
    defaultValue := raw.map (defaultOf isFlag modifier.isRepeated) }

end Naming

end ConsoleSignature.Entry
