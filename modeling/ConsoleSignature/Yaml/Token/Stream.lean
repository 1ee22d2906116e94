import ConsoleSignature.Yaml.Token.Block
import ConsoleSignature.Yaml.Token.Property

/-!
The tokens of a whole text. Only the colon after it shows that something was a key, so the token for
a key, and that for the mapping it opens, are put in front of it afterwards.
-/
namespace ConsoleSignature.Yaml

/-- Something that a colon may yet turn into a key: how many tokens stand before it, and its place.
-/
structure Candidate where
  position : Nat
  index : Nat
  line : Nat
  column : Nat
  /-- At the indentation of a block collection only a key can stand. -/
  required : Bool

structure Reader where
  cursor : Cursor
  /-- The tokens so far, in reverse. -/
  tokens : List Token
  count : Nat
  /-- The column of the innermost block collection, which is -1 outside of all. -/
  indent : Int
  outer : List Int
  keyAllowed : Bool
  candidate : Option Candidate
  /-- The candidates around each open flow collection. -/
  enclosing : List (Option Candidate)

namespace Reader

def ofText (s : List Char) : Reader where
  cursor := Cursor.ofText s
  tokens := []
  count := 0
  indent := -1
  outer := []
  keyAllowed := true
  candidate := none
  enclosing := []

def inFlow (r : Reader) : Bool := !r.enclosing.isEmpty

def push (r : Reader) (t : Token) : Reader :=
  { r with tokens := t :: r.tokens, count := r.count + 1 }

/-- Puts a token in front of all but the first `position` tokens. -/
def insert (r : Reader) (position : Nat) (t : Token) : Reader :=
  let later := r.count - position
  { r with tokens := r.tokens.take later ++ t :: r.tokens.drop later, count := r.count + 1 }

/-- Opens a block collection where the column is right of the innermost one. -/
def openBlock (r : Reader) (column position : Nat) (t : Token) : Reader :=
  if r.inFlow || (column : Int) ≤ r.indent then r
  else { r.insert position t with indent := column, outer := r.indent :: r.outer }

def closeBlocks (column : Int) : List Int → Reader → Reader
  | outer, r =>
    if r.indent ≤ column then r
    else
      match outer with
      | [] => r
      | i :: is => closeBlocks column is { r.push .blockEnd with indent := i, outer := is }

/-- Closes the block collections that start right of the column. -/
def closeBlocksTo (r : Reader) (column : Int) : Reader :=
  if r.inFlow then r else closeBlocks column r.outer r

/-- Gives a candidate up, which must not be one that has to be a key. -/
def drop? (k : Option Candidate) : Option (Option Candidate) :=
  match k with
  | some k => if k.required then none else some none
  | none => some none

def dropCandidate? (r : Reader) : Option Reader :=
  (drop? r.candidate).map fun k => { r with candidate := k }

/-- A key is on one line and has at most 1024 bytes. -/
def isStale (r : Reader) (k : Candidate) : Bool :=
  k.line < r.cursor.line || k.index + 1024 < r.cursor.index

def refresh? (r : Reader) (k : Option Candidate) : Option (Option Candidate) :=
  match k with
  | some c => if r.isStale c then drop? k else some k
  | none => some none

def dropStale? (r : Reader) : Option Reader := do
  let candidate ← r.refresh? r.candidate
  let enclosing ← r.enclosing.mapM r.refresh?
  return { r with candidate, enclosing }

/-- Takes down that a key may start here. -/
def propose? (r : Reader) : Option Reader :=
  if r.keyAllowed then
    (r.dropCandidate?).map fun r =>
      { r with
        candidate := some
          { position := r.count
            index := r.cursor.index
            line := r.cursor.line
            column := r.cursor.column
            required := !r.inFlow && r.indent == (r.cursor.column : Int) } }
  else some r

def moveTo (r : Reader) (c : Cursor) : Reader := { r with cursor := c }

def allowKey (r : Reader) (allowed : Bool) : Reader := { r with keyAllowed := allowed }

/-- Skips blanks, comments and breaks. In block context a tab cannot stand where a key may start,
and a new line lets one start. -/
def skipToToken : Nat → Reader → Reader
  | 0, r => r
  | fuel + 1, r =>
    let c := r.cursor
    let c := if c.column = 0 ∧ (c.peek?.map isByteOrderMark).getD false then c.skip 1 else c
    let tabs := r.inFlow || !r.keyAllowed
    let c := c.skipWhile fun x => x == ' ' || (tabs && x == '\t')
    let c := if c.isAt '#' then c.skipWhile (!isBreak ·) else c
    if (c.peek?.map isBreak).getD false then
      skipToToken fuel { r with cursor := c.skipBreak, keyAllowed := r.keyAllowed || !r.inFlow }
    else r.moveTo c

def takeMark? (r : Reader) (t : Token) : Option Reader := do
  let r ← (r.closeBlocksTo (-1)).dropCandidate?
  return ((r.allowKey false).moveTo (r.cursor.skip 3)).push t

def takeDirective? (r : Reader) : Option Reader := do
  let r ← (r.closeBlocksTo (-1)).dropCandidate?
  let (t, c) ← Token.directive? r.cursor
  return ((r.allowKey false).moveTo c).push t

def openFlow? (r : Reader) (t : Token) : Option Reader := do
  let r ← r.propose?
  return { (r.moveTo (r.cursor.skip 1)).push t with
    enclosing := r.candidate :: r.enclosing, candidate := none, keyAllowed := true }

def closeFlow? (r : Reader) (t : Token) : Option Reader := do
  let r ← r.dropCandidate?
  let r := match r.enclosing with
    | k :: ks => { r with candidate := k, enclosing := ks }
    | [] => r
  return ((r.moveTo (r.cursor.skip 1)).allowKey false).push t

def takeFlowEntry? (r : Reader) : Option Reader := do
  let r ← r.dropCandidate?
  return ((r.moveTo (r.cursor.skip 1)).allowKey true).push .flowEntry

def takeBlockEntry? (r : Reader) : Option Reader := do
  guard (r.inFlow || r.keyAllowed)
  let r ← (r.openBlock r.cursor.column r.count .blockSequenceStart).dropCandidate?
  return ((r.moveTo (r.cursor.skip 1)).allowKey true).push .blockEntry

def takeKey? (r : Reader) : Option Reader := do
  guard (r.inFlow || r.keyAllowed)
  let r ← (r.openBlock r.cursor.column r.count .blockMappingStart).dropCandidate?
  return ((r.moveTo (r.cursor.skip 1)).allowKey !r.inFlow).push .key

def takeValue? (r : Reader) : Option Reader :=
  let next (r : Reader) : Reader := (r.moveTo (r.cursor.skip 1)).push .value
  match r.candidate with
  | some k =>
    let r := (r.insert k.position .key).openBlock k.column k.position .blockMappingStart
    some (next { r with candidate := none, keyAllowed := false })
  | none =>
    if r.inFlow then some (next (r.allowKey false))
    else if r.keyAllowed then
      some (next ((r.openBlock r.cursor.column r.count .blockMappingStart).allowKey true))
    else none

def takeName? (r : Reader) (t : List Char → Token) : Option Reader := do
  let r ← r.propose?
  let (name, c) ← Token.name? r.cursor
  return ((r.moveTo c).allowKey false).push (t name)

def takeTag? (r : Reader) : Option Reader := do
  let r ← r.propose?
  let (t, c) ← Token.tag? r.inFlow r.cursor
  return ((r.moveTo c).allowKey false).push t

def takeBlock? (r : Reader) (style : ScalarStyle) : Option Reader := do
  let r ← r.dropCandidate?
  let (text, c) ← Token.block? (style == .folded) r.indent r.cursor
  return ((r.moveTo c).allowKey true).push (.scalar style text)

def takeQuoted? (r : Reader) (quote : Char) (style : ScalarStyle) : Option Reader := do
  let r ← r.propose?
  let (text, c) ← Token.quoted? quote r.cursor
  return ((r.moveTo c).allowKey false).push (.scalar style text)

def takePlain? (r : Reader) : Option Reader := do
  let r ← r.propose?
  let (text, broken, c) ← Token.plain? r.inFlow (r.indent + 1) r.cursor
  return ((r.moveTo c).allowKey broken).push (.scalar .plain text)

def indicators : List Char :=
  ['-', '?', ':', ',', '[', ']', '{', '}', '#', '&', '*', '!', '|', '>', '\'', '"', '%', '@',
    '\x60']

/-- Whether a plain scalar starts with `x` before `next`, where no other token does. -/
def startsPlain (inFlow : Bool) (x : Char) (next : Option Char) : Bool :=
  !(isGap x || indicators.contains x) ||
    (x == '-' && !(next.map isBlank).getD false) ||
    (!inFlow && (x == '?' || x == ':') && !isGapAt next)

/-- Reads the token that starts with `x`. -/
def take? (r : Reader) (x : Char) : Option Reader :=
  let next := r.cursor.at? 1
  let free := r.inFlow || isGapAt next
  if r.cursor.column = 0 ∧ x = '%' then r.takeDirective?
  else if r.cursor.isAtMark '-' then r.takeMark? .documentStart
  else if r.cursor.isAtMark '.' then r.takeMark? .documentEnd
  else if x = '[' then r.openFlow? .flowSequenceStart
  else if x = '{' then r.openFlow? .flowMappingStart
  else if x = ']' then r.closeFlow? .flowSequenceEnd
  else if x = '}' then r.closeFlow? .flowMappingEnd
  else if x = ',' then r.takeFlowEntry?
  else if x = '-' ∧ isGapAt next then r.takeBlockEntry?
  else if x = '?' ∧ free then r.takeKey?
  else if x = ':' ∧ free then r.takeValue?
  else if x = '*' then r.takeName? .alias
  else if x = '&' then r.takeName? .anchor
  else if x = '!' then r.takeTag?
  else if x = '|' ∧ !r.inFlow then r.takeBlock? .literal
  else if x = '>' ∧ !r.inFlow then r.takeBlock? .folded
  else if x = '\'' then r.takeQuoted? '\'' .singleQuoted
  else if x = '"' then r.takeQuoted? '"' .doubleQuoted
  else if startsPlain r.inFlow x next then r.takePlain?
  else none

def finish? (r : Reader) : Option (List Token) := do
  let r ← (r.closeBlocksTo (-1)).dropCandidate?
  return (r.push .streamEnd).tokens.reverse

def run : Nat → Reader → Option (List Token)
  | 0, _ => none
  | fuel + 1, r => do
    let r ← (skipToToken (r.cursor.size + 1) r).dropStale?
    let r := r.closeBlocksTo r.cursor.column
    match r.cursor.peek? with
    | none => r.finish?
    | some x => run fuel (← r.take? x)

end Reader

/-- The tokens of a text, in which only allowed characters may stand. -/
def Token.ofText? (s : List Char) : Option (List Token) :=
  if s.all isAllowed then (Reader.ofText s).run (s.length + 1) else none

end ConsoleSignature.Yaml
