import ConsoleSignature.Yaml.Cursor

/-!
Tags, which say what kind of node stands there. They are octets, since a percent sign and two digits
may spell any octet in them.
-/
namespace ConsoleSignature.Yaml

structure Tag where
  octets : List UInt8
deriving DecidableEq, Inhabited, Repr

namespace Tag

def ofChars (s : List Char) : Tag := ⟨s.flatMap String.utf8EncodeChar⟩

/-- The tag of a type of the core schema. -/
def core (name : String) : Tag := ofChars ("tag:yaml.org,2002:" ++ name).toList

/-- The octet zero ends a tag. -/
def ofOctets (octets : List UInt8) : Tag := ⟨octets.takeWhile (· != 0)⟩

def append (a b : Tag) : Tag := ⟨a.octets ++ b.octets⟩

def isEmpty (t : Tag) : Bool := t.octets.isEmpty

def startsLocal (t : Tag) : Bool := t.octets.head? == some '!'.toUInt8

/-- Tags of the application's own start with an exclamation mark and are text. -/
def isLocal (t : Tag) : Bool := t.startsLocal && (String.fromUTF8? ⟨t.octets.toArray⟩).isSome

end Tag

end ConsoleSignature.Yaml
