import ConsoleSignature.Number.Binary64

/-!
Decimals `digits * 10 ^ exponent`: reading one from text, and the shortest one that reads back as a
given binary number.
-/
namespace ConsoleSignature

structure Decimal where
  digits : Nat
  exponent : Int
deriving DecidableEq, Inhabited, Repr

namespace Decimal

def digitValue (c : Char) : Nat := c.toNat - '0'.toNat

def natOfDigits (s : List Char) : Nat := s.foldl (fun n c => 10 * n + digitValue c) 0

/-- A leading sign, if there is one, and what follows it. -/
def splitSign : List Char → Bool × List Char
  | '-' :: r => (true, r)
  | '+' :: r => (false, r)
  | r => (false, r)

/-- The whole text as an exponent: empty, or a mark, a sign if need be, and one digit at least. -/
def readExponent? : List Char → Option Int
  | [] => some 0
  | e :: r =>
    if e = 'e' ∨ e = 'E' then
      let (negative, ds) := splitSign r
      if ds ≠ [] ∧ ds.all Char.isDigit then
        some (if negative then -(natOfDigits ds : Int) else natOfDigits ds)
      else none
    else none

/-- The digits after the point, if the text goes on with one, and what follows them. -/
def splitFraction : List Char → List Char × List Char
  | '.' :: r => (r.takeWhile Char.isDigit, r.dropWhile Char.isDigit)
  | r => ([], r)

/-- Reads a sign, digits with at most one point among or around them, and an exponent; true marks a
negative number. -/
def read? (s : List Char) : Option (Bool × Decimal) :=
  let (negative, s) := splitSign s
  let whole := s.takeWhile Char.isDigit
  let (fraction, rest) := splitFraction (s.dropWhile Char.isDigit)
  if whole ++ fraction = [] then none
  else (readExponent? rest).map fun e =>
    (negative, ⟨natOfDigits (whole ++ fraction), e - fraction.length⟩)

def numDigits (n : Nat) : Nat := (Nat.toDigits 10 n).length

/-- The exponent of the leading digit. -/
def leading (d : Decimal) : Int := numDigits d.digits - 1 + d.exponent

/-- The greatest `p` with `10 ^ p ≤ num / den`. -/
def floorLog (num den : Nat) : Int :=
  if den ≤ num then numDigits (num / den) - 1 else -(numDigits ((den - 1) / num) : Int)

def trimZero (d : Decimal) : Decimal :=
  if d.digits % 10 = 0 then ⟨d.digits / 10, d.exponent + 1⟩ else d

/-- The point of the grid `10 ^ t` next to `x` that reads back as `x`, if one does; of two the
nearer. -/
def onGrid? (x : Binary64) (tieUp : Bool) (t : Int) : Option Decimal :=
  let s := x.significand
  let unit := Nat.pow 2 x.binade * Nat.pow 10 (-t).toNat
  let den := Binary64.unitsInOne * Nat.pow 10 t.toNat
  let low := if s = Binary64.hiddenBit ∧ x.binade ≠ 0 then 4 * s - 1 else 4 * s - 2
  let inside (c : Nat) : Bool :=
    if s % 2 = 0 then low * unit ≤ 4 * c * den && 4 * c * den ≤ (4 * s + 2) * unit
    else low * unit < 4 * c * den && 4 * c * den < (4 * s + 2) * unit
  let c := s * unit / den
  let twice := 2 * (s * unit % den)
  let up := den < twice || (twice == den && (tieUp || c % 2 == 1))
  match inside c, inside (c + 1) with
  | true, true => some ⟨if up then c + 1 else c, t⟩
  | true, false => some ⟨c, t⟩
  | false, true => some ⟨c + 1, t⟩
  | false, false => none

/-- The fewest digits that read back as the magnitude of `x`, and of those the nearest to it. -/
def shortest (x : Binary64) (tieUp : Bool) : Decimal :=
  if x.isZero then ⟨0, 0⟩
  else
    let p := floorLog x.ratio.1 x.ratio.2
    match (List.range 17).findSome? (fun n : Nat => onGrid? x tieUp (p - n)) with
    | some d => trimZero d
    | none => ⟨x.ratio.1, 0⟩

end Decimal

end ConsoleSignature
