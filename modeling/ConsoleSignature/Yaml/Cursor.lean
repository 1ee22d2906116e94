import ConsoleSignature.Yaml.Char

/-!
A place in a text: what is still to be read, and where in the text and in its line that starts. The
place in the text is counted in bytes, that in the line in characters.
-/
namespace ConsoleSignature.Yaml

structure Cursor where
  rest : List Char
  index : Nat
  line : Nat
  column : Nat
  /-- The length of the whole text, which bounds the number of steps that are left. -/
  size : Nat

namespace Cursor

def ofText (s : List Char) : Cursor := ⟨s, 0, 0, 0, s.length⟩

def peek? (c : Cursor) : Option Char := c.rest.head?

def at? (c : Cursor) (n : Nat) : Option Char := c.rest[n]?

def isAt (c : Cursor) (x : Char) : Bool := c.peek? == some x

/-- Goes on by `n` characters of the same line. -/
def skip (c : Cursor) (n : Nat) : Cursor :=
  { c with
    rest := c.rest.drop n
    index := c.index + (String.ofList (c.rest.take n)).utf8ByteSize
    column := c.column + n }

/-- Goes on to the next line, by a break of `n` characters. -/
def nextLine (c : Cursor) (n : Nat) : Cursor := { c.skip n with line := c.line + 1, column := 0 }

/-- Goes on to the next line, where a break stands here. -/
def skipBreak (c : Cursor) : Cursor :=
  match c.rest with
  | '\r' :: '\n' :: _ => c.nextLine 2
  | x :: _ => if isBreak x then c.nextLine 1 else c
  | [] => c

/-- What a break here adds to a scalar: the separators of lines and paragraphs stay what they are.
-/
def breakChar? (c : Cursor) : Option Char :=
  match c.peek? with
  | some x =>
    if !isBreak x then none
    else if x.toNat = 0x2028 ∨ x.toNat = 0x2029 then some x
    else some '\n'
  | none => none

/-- Takes characters of a class that holds no breaks. -/
def takeWhile (p : Char → Bool) (c : Cursor) : List Char × Cursor :=
  let taken := c.rest.takeWhile p
  (taken, c.skip taken.length)

def skipWhile (p : Char → Bool) (c : Cursor) : Cursor := (c.takeWhile p).2

/-- Three dashes or dots at the start of a line, alone or before a gap. -/
def isAtMark (x : Char) (c : Cursor) : Bool :=
  c.column == 0 && [x, x, x].isPrefixOf c.rest && isGapAt (c.at? 3)

def isAtDocumentMark (c : Cursor) : Bool := c.isAtMark '-' || c.isAtMark '.'

/-- Goes to the end of a line on which nothing but a comment may follow. -/
def endLine? (c : Cursor) : Option Cursor :=
  let c := c.skipWhile isBlank
  let c := if c.isAt '#' then c.skipWhile (!isBreak ·) else c
  if isBreakAt c.peek? then some c.skipBreak else none

end Cursor

/-- Blanks and breaks between the words of a scalar. -/
structure Gap where
  blanks : List Char
  /-- Whether a line ended, be it by an escaped break. -/
  broken : Bool
  /-- The first break, unless it was escaped. -/
  first : Option Char
  more : List Char

namespace Gap

/-- A single break is folded into a space, and of several the first is dropped. -/
def text (g : Gap) : List Char :=
  if g.broken then
    match g.first with
    | none => g.more
    | some '\n' => if g.more.isEmpty then [' '] else g.more
    | some c => c :: g.more
  else g.blanks

/-- Reads blanks and breaks. A tab left of the column `least` on a new line is refused. -/
def take (least : Int) : Nat → Gap → Cursor → Option (Gap × Cursor)
  | 0, _, _ => none
  | fuel + 1, g, c =>
    match c.peek? with
    | none => some (g, c)
    | some x =>
      if isBlank x then
        if g.broken && (c.column : Int) < least && x == '\t' then none
        else if g.broken then take least fuel g (c.skip 1)
        else take least fuel { g with blanks := g.blanks ++ [x] } (c.skip 1)
      else
        match c.breakChar? with
        | none => some (g, c)
        | some b =>
          if g.broken then take least fuel { g with more := g.more ++ [b] } c.skipBreak
          else take least fuel { g with broken := true, first := some b } c.skipBreak

def take? (least : Int) (escaped : Bool) (c : Cursor) : Option (Gap × Cursor) :=
  take least (c.size + 1) ⟨[], escaped, none, []⟩ c

end Gap

end ConsoleSignature.Yaml
