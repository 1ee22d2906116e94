import ConsoleSignature.Yaml.Token.Flow

/-! Anchors, aliases, tags and directives. -/
namespace ConsoleSignature.Yaml.Token

def endsName (x : Option Char) : Bool :=
  isGapAt x || (x.map fun c => ['?', ':', ',', ']', '}', '%', '@', '\x60'].contains c).getD true

/-- The name of the anchor or alias whose indicator stands here. -/
def name? (c : Cursor) : Option (List Char × Cursor) :=
  let (name, c) := (c.skip 1).takeWhile isNameChar
  if name.isEmpty || !endsName c.peek? then none else some (name, c)

def isUriChar (x : Char) : Bool :=
  isNameChar x || [';', '/', '?', ':', '@', '&', '=', '+', '$', '.', '!', '~', '*', '\'', '(',
    ')'].contains x

def octet? (s : List Char) : Option UInt8 := do
  guard (s.head? == some '%')
  let high ← s[1]?.bind Text.hexValue?
  let low ← s[2]?.bind Text.hexValue?
  return UInt8.ofNat (16 * high + low)

/-- How many octets a character has that starts with this one. -/
def octetsFrom? (first : UInt8) : Option Nat :=
  if first < 0x80 then some 1
  else if first &&& 0xE0 = 0xC0 then some 2
  else if first &&& 0xF0 = 0xE0 then some 3
  else if first &&& 0xF8 = 0xF0 then some 4
  else none

/-- Octets that percent signs and two digits each stand for. The first tells how many there are, and
those after it go on with a character, whether or not there is such a character. -/
def uriEscape? (s : List Char) : Option (List UInt8) := do
  let first ← octet? s
  let count ← octetsFrom? first
  let more ← (List.range (count - 1)).mapM fun i => octet? (s.drop (3 * (i + 1)))
  guard (more.all (· &&& 0xC0 == 0x80))
  return first :: more

/-- Reads the octets of a tag, in reverse. In verbatim ones and directives there are commas and
brackets too. -/
def uri (verbatim : Bool) : Nat → List UInt8 → Cursor → Option (List UInt8 × Cursor)
  | 0, _, _ => none
  | fuel + 1, done, c =>
    match c.peek? with
    | none => some (done, c)
    | some x =>
      if x = '%' then
        match uriEscape? c.rest with
        | some octets => uri verbatim fuel (octets.reverse ++ done) (c.skip (3 * octets.length))
        | none => none
      else if isUriChar x || (verbatim && [',', '[', ']'].contains x) then
        uri verbatim fuel (x.toUInt8 :: done) (c.skip 1)
      else some (done, c)

def uri? (verbatim : Bool) (c : Cursor) : Option (List UInt8 × Cursor) :=
  (uri verbatim (c.size + 1) [] c).map fun (octets, c) => (octets.reverse, c)

/-- The handle here: an exclamation mark, and a name with a further mark if there is one. -/
def handle? (c : Cursor) : Option (List Char × Cursor) :=
  if !c.isAt '!' then none
  else
    let (name, c) := (c.skip 1).takeWhile isNameChar
    if c.isAt '!' then some ('!' :: name ++ ['!'], c.skip 1) else some ('!' :: name, c)

/-- The handle and the suffix of the tag here. A tag without a handle of its own has the primary
one, but a lone exclamation mark is itself the suffix. -/
def tagParts? (c : Cursor) : Option ((List Char × Tag) × Cursor) := do
  if c.at? 1 == some '<' then
    let (suffix, c) ← uri? true (c.skip 2)
    guard (!suffix.isEmpty && c.isAt '>')
    return (([], Tag.ofOctets suffix), c.skip 1)
  else
    let (handle, c) ← handle? c
    let isNamed := 1 < handle.length && handle.getLast? == some '!'
    let (suffix, c) ← uri? false c
    if isNamed then
      guard (!suffix.isEmpty)
      return ((handle, Tag.ofOctets suffix), c)
    else
      let suffix := (Tag.ofChars (handle.drop 1)).append (Tag.ofOctets suffix)
      return (if suffix.isEmpty then ([], Tag.ofChars handle) else (['!'], suffix), c)

def tag? (inFlow : Bool) (c : Cursor) : Option (Token × Cursor) := do
  let ((handle, suffix), c) ← tagParts? c
  guard (isGapAt c.peek? || (inFlow && c.isAt ','))
  return (tag handle suffix, c)

/-- A number of nine digits at most. -/
def versionNumber? (c : Cursor) : Option (Nat × Cursor) :=
  let (ds, c) := c.takeWhile Char.isDigit
  if ds.isEmpty ∨ 9 < ds.length then none
  else some (ds.foldl (fun n d => 10 * n + (d.toNat - '0'.toNat)) 0, c)

def version? (c : Cursor) : Option (Token × Cursor) := do
  let (major, c) ← versionNumber? (c.skipWhile isBlank)
  guard (c.isAt '.')
  let (minor, c) ← versionNumber? (c.skip 1)
  return (versionDirective major minor, c)

def tagDefinition? (c : Cursor) : Option (Token × Cursor) := do
  let (handle, c) ← handle? (c.skipWhile isBlank)
  guard (handle.getLast? == some '!')
  guard ((c.peek?.map isBlank).getD false)
  let (start, c) ← uri? true (c.skipWhile isBlank)
  guard (!start.isEmpty && isGapAt c.peek?)
  return (tagDirective handle (Tag.ofOctets start), c)

/-- The directive here, to the end of its line. -/
def directive? (c : Cursor) : Option (Token × Cursor) := do
  let (name, c) := (c.skip 1).takeWhile isNameChar
  guard (isGapAt c.peek?)
  let (token, c) ←
    if name = "YAML".toList then version? c
    else if name = "TAG".toList then tagDefinition? c
    else none
  return (token, ← c.endLine?)

end ConsoleSignature.Yaml.Token
