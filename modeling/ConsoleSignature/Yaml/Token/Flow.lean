import ConsoleSignature.Text.Hex
import ConsoleSignature.Yaml.Token

/-! Scalars that flow over lines: those in single and double quotes, and plain ones. -/
namespace ConsoleSignature.Yaml.Token

/-- The character that a backslash and this one stand for. -/
def escapedChar? : Char → Option Char
  | '0' => some '\x00'
  | 'a' => some '\x07'
  | 'b' => some '\x08'
  | 't' | '\t' => some '\t'
  | 'n' => some '\n'
  | 'v' => some '\x0b'
  | 'f' => some '\x0c'
  | 'r' => some '\r'
  | 'e' => some '\x1b'
  | ' ' => some ' '
  | '"' => some '"'
  | '/' => some '/'
  | '\\' => some '\\'
  | 'N' => some (Char.ofNat 0x85)
  | '_' => some (Char.ofNat 0xA0)
  | 'L' => some (Char.ofNat 0x2028)
  | 'P' => some (Char.ofNat 0x2029)
  | _ => none

def hexEscapeLength? : Char → Option Nat
  | 'x' => some 2
  | 'u' => some 4
  | 'U' => some 8
  | _ => none

def hexChar? (digits : List Char) : Option Char := do
  let n ← Text.hexNumber? digits
  if n.isValidChar then some (Char.ofNat n) else none

/-- The escape sequence after a backslash, and its length with the backslash. -/
def escape? : List Char → Option (Char × Nat)
  | [] => none
  | e :: r =>
    match escapedChar? e, hexEscapeLength? e with
    | some c, _ => some (c, 2)
    | none, some n =>
      if n ≤ r.length then (hexChar? (r.take n)).map (·, n + 2) else none
    | none, none => none

/-- Reads a run without gaps inside quotes, onto the reversed text so far. It ends before the
closing quote or a gap, or with an escaped break, which the truth value tells. -/
def quotedRun (quote : Char) : Nat → List Char → Cursor → Option (List Char × Bool × Cursor)
  | 0, _, _ => none
  | fuel + 1, done, c =>
    match c.rest with
    | [] => some (done, false, c)
    | x :: r =>
      if isGap x then some (done, false, c)
      else if x = quote then
        if quote = '\'' ∧ r.head? = some '\'' then quotedRun quote fuel ('\'' :: done) (c.skip 2)
        else some (done, false, c)
      else if x = '\\' ∧ quote = '"' then
        if (r.head?.map isBreak).getD false then some (done, true, (c.skip 1).skipBreak)
        else
          match escape? r with
          | some (y, n) => quotedRun quote fuel (y :: done) (c.skip n)
          | none => none
      else quotedRun quote fuel (x :: done) (c.skip 1)

/-- Reads on inside quotes and over the closing quote. -/
def quotedText (quote : Char) : Nat → List Char → Cursor → Option (List Char × Cursor)
  | 0, _, _ => none
  | fuel + 1, done, c => do
    guard (!c.isAtDocumentMark && !c.rest.isEmpty)
    let (done, escaped, c) ← quotedRun quote (c.size + 1) done c
    if c.isAt quote then return (done.reverse, c.skip 1)
    let (gap, c) ← Gap.take? 0 escaped c
    quotedText quote fuel (gap.text.reverse ++ done) c

/-- The quoted scalar here. -/
def quoted? (quote : Char) (c : Cursor) : Option (List Char × Cursor) :=
  quotedText quote (c.size + 1) [] (c.skip 1)

/-- A run of a plain scalar, in reverse. In a flow collection its indicators end a plain scalar. -/
def plainRun (inFlow : Bool) : Nat → List Char → Cursor → Option (List Char × Cursor)
  | 0, _, _ => none
  | fuel + 1, done, c =>
    match c.rest with
    | [] => some (done, c)
    | x :: r =>
      if isGap x then some (done, c)
      else if inFlow && x == ':' && (r.head?.map fun y => y == '?' || isFlowIndicator y).getD false
      then none
      else if x == ':' && isGapAt r.head? then some (done, c)
      else if inFlow && isFlowIndicator x then some (done, c)
      else plainRun inFlow fuel (x :: done) (c.skip 1)

/-- Reads a plain scalar on from a gap. It ends before a comment, a mark of the document, a run that
is empty, or in block context a line that is indented by less than `least`. The truth value tells
whether a line ended after it. -/
def plainText (inFlow : Bool) (least : Int) :
    Nat → List Char → Gap → Cursor → Option (List Char × Bool × Cursor)
  | 0, _, _, _ => none
  | fuel + 1, done, gap, c => do
    if c.isAtDocumentMark || c.isAt '#' then return (done.reverse, gap.broken, c)
    let (run, c) ← plainRun inFlow (c.size + 1) [] c
    let (done, gap) :=
      if run.isEmpty then (done, gap)
      else (run ++ gap.text.reverse ++ done, ⟨[], false, none, []⟩)
    if (c.peek?.map isGap).getD false then
      let (gap, c) ← Gap.take? least gap.broken c
      if !inFlow && (c.column : Int) < least then return (done.reverse, gap.broken, c)
      plainText inFlow least fuel done gap c
    else return (done.reverse, gap.broken, c)

def plain? (inFlow : Bool) (least : Int) (c : Cursor) : Option (List Char × Bool × Cursor) :=
  plainText inFlow least (c.size + 1) [] ⟨[], false, none, []⟩ c

end ConsoleSignature.Yaml.Token
