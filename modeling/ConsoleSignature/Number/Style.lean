import ConsoleSignature.Number.Decimal

/-! How a binary number is written: its shortest decimal, laid out as a style record says. -/
namespace ConsoleSignature

structure NumberStyle where
  /-- The exponents of the leading digit that are written without an exponent; absent, all are. -/
  positional : Option (Int × Int)
  /-- What follows a number that is written without exponent and has no fraction. -/
  whole : String
  /-- The sign of an exponent that is not negative. -/
  plus : String
  /-- Whether the greater of two equally near decimals is written, or the one with an even last
  digit. -/
  tieUp : Bool
  nan : String
  infinity : String
  negativeInfinity : String

namespace NumberStyle

def zeros (n : Nat) : List Char := List.replicate n '0'

def isPositional (style : NumberStyle) (k : Int) : Bool :=
  match style.positional with
  | none => true
  | some (least, greatest) => least ≤ k && k ≤ greatest

def positionalText (style : NumberStyle) (d : Decimal) : List Char :=
  let ds := Nat.toDigits 10 d.digits
  let k := d.leading
  if 0 ≤ d.exponent then ds ++ zeros d.exponent.toNat ++ style.whole.toList
  else if 0 ≤ k then ds.take (k.toNat + 1) ++ '.' :: ds.drop (k.toNat + 1)
  else '0' :: '.' :: (zeros ((-k).toNat - 1) ++ ds)

def scientificText (style : NumberStyle) (d : Decimal) : List Char :=
  let ds := Nat.toDigits 10 d.digits
  let k := d.leading
  let point := if ds.tail = [] then [] else ['.']
  let sign := if k < 0 then ['-'] else style.plus.toList
  ds.take 1 ++ point ++ ds.tail ++ 'e' :: (sign ++ Nat.toDigits 10 k.natAbs)

def magnitudeText (style : NumberStyle) (x : Binary64) : List Char :=
  let d := Decimal.shortest x style.tieUp
  if style.isPositional d.leading then style.positionalText d else style.scientificText d

end NumberStyle

/-- The number as text in the given style. -/
def Binary64.text (style : NumberStyle) (x : Binary64) : String :=
  if x.isFinite then
    String.ofList ((if x.isNegative then ['-'] else []) ++ style.magnitudeText x)
  else if x.isNaN then style.nan
  else if x.isNegative then style.negativeInfinity
  else style.infinity

end ConsoleSignature
