/-!
Binary floating point numbers of 64 bits: the value of a finite one as an exact ratio, and the
number nearest to a given ratio (a tie goes to the even neighbour, what is too large becomes
infinite).
-/
namespace ConsoleSignature

structure Binary64 where
  bits : UInt64
deriving DecidableEq, Inhabited, Repr

namespace Binary64

def infinityBits : Nat := 0x7FF0000000000000

def signBit : Nat := 0x8000000000000000

/-- The number of significands in a binade, which is the weight of the bit that is not stored. -/
def hiddenBit : Nat := 0x10000000000000

/-- The number of least units that make up one. -/
def unitsInOne : Nat := Nat.pow 2 1074

def isNegative (x : Binary64) : Bool := signBit ≤ x.bits.toNat

/-- The bits without the sign; in this form the numbers of one sign are ordered as their values. -/
def magnitude (x : Binary64) : Nat := x.bits.toNat % signBit

def isFinite (x : Binary64) : Bool := x.magnitude < infinityBits

def isZero (x : Binary64) : Bool := x.magnitude == 0

def isNaN (x : Binary64) : Bool := infinityBits < x.magnitude

/-- Numeric equality: the two zeros are equal, a NaN differs from everything. -/
def same (x y : Binary64) : Bool :=
  !x.isNaN && !y.isNaN && (x == y || (x.isZero && y.isZero))

/-- The exponent field, counted so that the subnormal numbers share binade zero with the least
normal ones. -/
def binade (x : Binary64) : Nat := x.magnitude / hiddenBit - 1

/-- How often the magnitude of a finite number contains the unit of its binade. -/
def significand (x : Binary64) : Nat := x.magnitude - x.binade * hiddenBit

/-- The magnitude of a finite number as a ratio. -/
def ratio (x : Binary64) : Nat × Nat := (x.significand * Nat.pow 2 x.binade, unitsInOne)

def ofMagnitude (negative : Bool) (m : Nat) : Binary64 :=
  ⟨UInt64.ofNat (if negative then signBit + m else m)⟩

def roundHalfEven (num den : Nat) : Nat :=
  let q := num / den
  let r := num % den
  if 2 * r < den then q else if den < 2 * r then q + 1 else q + q % 2

/-- The least binade in which the ratio needs at most 53 bits. -/
def binadeOfRatio (num den : Nat) : Nat :=
  let guess := num.log2 + 1074 - den.log2 - 53
  if num = 0 then 0
  else if num * unitsInOne / (den * Nat.pow 2 guess) < 2 * hiddenBit then guess else guess + 1

/-- The number nearest to `num / den`, under the given sign. -/
def ofRatio (negative : Bool) (num den : Nat) : Binary64 :=
  let b := binadeOfRatio num den
  let m := b * hiddenBit + roundHalfEven (num * unitsInOne) (den * Nat.pow 2 b)
  ofMagnitude negative (min m infinityBits)

def zero (negative : Bool) : Binary64 := ofMagnitude negative 0

def infinity (negative : Bool) : Binary64 := ofMagnitude negative infinityBits

/-- The number nearest to `digits * 10 ^ exponent`. The two shortcuts only spare huge powers: what
is below `10 ^ (-400)` rounds to zero and what is not below `10 ^ 400` is infinite. -/
def ofDecimal (negative : Bool) (digits : Nat) (exponent : Int) : Binary64 :=
  let size : Int := digits.log2 / 4 + exponent
  if digits = 0 then zero negative
  else if (digits.log2 : Int) + exponent < -800 then zero negative
  else if 400 < size then infinity negative
  else if 0 ≤ exponent then ofRatio negative (digits * Nat.pow 10 exponent.toNat) 1
  else ofRatio negative digits (Nat.pow 10 (-exponent).toNat)

def ofNat (n : Nat) : Binary64 := ofRatio false n 1

def ofInt (i : Int) : Binary64 := ofRatio (i < 0) i.natAbs 1

/-- The rounded product of two finite numbers. -/
def mul (x y : Binary64) : Binary64 :=
  ofRatio (x.isNegative != y.isNegative) (x.ratio.1 * y.ratio.1) (x.ratio.2 * y.ratio.2)

/-- The rounded quotient of two finite numbers, the second not zero. -/
def div (x y : Binary64) : Binary64 :=
  ofRatio (x.isNegative != y.isNegative) (x.ratio.1 * y.ratio.2) (x.ratio.2 * y.ratio.1)

def neg (x : Binary64) : Binary64 := ofMagnitude (!x.isNegative) x.magnitude

end Binary64

end ConsoleSignature
