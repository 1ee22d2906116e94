import ConsoleSignature.Yaml.Token

/-! Block scalars, literal and folded. -/
namespace ConsoleSignature.Yaml.Token

inductive Chomping where
  | strip
  | clip
  | keep
deriving DecidableEq

/-- The marks after the indicator, in either order: how breaks at the end are kept, and by how much
the text is indented. -/
structure BlockHeader where
  chomping : Chomping
  increment : Option Nat

def chomping? (c : Cursor) : Option Chomping :=
  if c.isAt '+' then some .keep else if c.isAt '-' then some .strip else none

def increment? (c : Cursor) : Option Nat :=
  c.peek?.bind fun x => if x.isDigit then some (x.toNat - '0'.toNat) else none

def blockHeader? (c : Cursor) : Option (BlockHeader × Cursor) :=
  let (header, c) : BlockHeader × Cursor :=
    match chomping? c, increment? c with
    | some k, _ =>
      match increment? (c.skip 1) with
      | some n => (⟨k, some n⟩, c.skip 2)
      | none => (⟨k, none⟩, c.skip 1)
    | none, some n =>
      match chomping? (c.skip 1) with
      | some k => (⟨k, some n⟩, c.skip 2)
      | none => (⟨.clip, some n⟩, c.skip 1)
    | none, none => (⟨.clip, none⟩, c)
  if header.increment = some 0 then none else some (header, c)

/-- The breaks of lines without text, and the column that the widest indentation among them reaches.
-/
structure Blanks where
  breaks : List Char
  widest : Nat

/-- Reads indentation and breaks up to a line with text; of a known indentation no more is taken. A
tab in the indentation is refused. -/
def blankLines (indent : Option Nat) : Nat → Blanks → Cursor → Option (Blanks × Cursor)
  | 0, _, _ => none
  | fuel + 1, b, c =>
    let free := (c.rest.takeWhile (· == ' ')).length
    let c := c.skip ((indent.map fun i => min free (i - c.column)).getD free)
    let b := { b with widest := max b.widest c.column }
    if ((indent.map fun i => decide (c.column < i)).getD true) && c.isAt '\t' then none
    else
      match c.breakChar? with
      | some x => blankLines indent fuel { b with breaks := b.breaks ++ [x] } c.skipBreak
      | none => some (b, c)

def blankLines? (indent : Option Nat) (c : Cursor) : Option (Blanks × Cursor) :=
  blankLines indent (c.size + 1) ⟨[], 0⟩ c

/-- What has been read of a block scalar: the text in reverse, the break after its last line, the
breaks of the empty lines after that, and whether the last line started with a blank. -/
structure BlockText where
  done : List Char
  lineBreak : List Char
  breaks : List Char
  startsBlank : Bool

/-- The breaks before a further line. When folding, a single break between lines that do not start
with a blank becomes a space. -/
def BlockText.joint (folding : Bool) (t : BlockText) (startsBlank : Bool) : List Char :=
  if folding && t.lineBreak == ['\n'] && !t.startsBlank && !startsBlank then
    if t.breaks.isEmpty then [' '] else t.breaks
  else t.lineBreak ++ t.breaks

def blockLines (folding : Bool) (indent : Nat) : Nat → BlockText → Cursor →
    Option (BlockText × Cursor)
  | 0, _, _ => none
  | fuel + 1, t, c =>
    if c.column = indent ∧ !c.rest.isEmpty then do
      let startsBlank := (c.peek?.map isBlank).getD false
      let (line, c) := c.takeWhile (!isBreak ·)
      let lineBreak := c.breakChar?.toList
      let (blanks, c) ← blankLines? (some indent) c.skipBreak
      let done := line.reverse ++ (t.joint folding startsBlank).reverse ++ t.done
      blockLines folding indent fuel ⟨done, lineBreak, blanks.breaks, startsBlank⟩ c
    else some (t, c)

def Chomping.tail (k : Chomping) (t : BlockText) : List Char :=
  match k with
  | strip => []
  | clip => t.lineBreak
  | keep => t.lineBreak ++ t.breaks

/-- The block scalar whose indicator stands here, in a collection that is indented by `outer`. -/
def block? (folding : Bool) (outer : Int) (c : Cursor) : Option (List Char × Cursor) := do
  let (header, c) ← blockHeader? (c.skip 1)
  let c ← c.endLine?
  let given := header.increment.map fun n => n + outer.toNat
  let (blanks, c) ← blankLines? given c
  let indent := given.getD (max (max blanks.widest (outer + 1).toNat) 1)
  let (t, c) ← blockLines folding indent (c.size + 1) ⟨[], [], blanks.breaks, false⟩ c
  return (t.done.reverse ++ header.chomping.tail t, c)

end ConsoleSignature.Yaml.Token
