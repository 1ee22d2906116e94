import ConsoleSignature.Datum
import ConsoleSignature.Number.Decimal
import ConsoleSignature.Text.Hex

/-! The tokens of JSON text. -/
namespace ConsoleSignature.Json

inductive Token where
  | openBracket
  | closeBracket
  | openBrace
  | closeBrace
  | colon
  | comma
  /-- A text; none if it holds half of a surrogate pair. -/
  | text (s : Option String)
  | literal (d : Datum)
deriving Inhabited, Repr

/-- A number as it is spelled. -/
structure Numeral where
  negative : Bool
  whole : List Char
  fraction : Option (List Char)
  /-- The sign of the exponent, true if negative, and its digits. -/
  exponent : Option (Bool × List Char)

namespace Numeral

/-- Takes digits into the number as long as it fits in 64 bits, and gives the digits left. -/
def absorb : Nat → List Char → Nat × List Char
  | n, [] => (n, [])
  | n, c :: cs =>
    if 10 * n + Decimal.digitValue c < UInt64.size then absorb (10 * n + Decimal.digitValue c) cs
    else (n, c :: cs)

def isSmall (e : Nat) : Bool := e ≤ 308

def power (e : Nat) : Binary64 := Binary64.ofDecimal false 1 e

/-- Divides by powers of ten that are numbers themselves, the greatest first, rounding each time. -/
def scaleDown (x : Binary64) (e : Nat) : Binary64 :=
  if isSmall e then x.div (power e)
  else if x.isZero then x
  else scaleDown (x.div (power 308)) (e - 308)
termination_by e
decreasing_by
  simp only [isSmall, decide_eq_true_eq] at *
  omega

def scaleUp? (x : Binary64) (e : Nat) : Option Binary64 :=
  if isSmall e then
    let y := x.mul (power e)
    if y.isFinite then some y else none
  else if x.isZero then some x else none

/-- Rounds the leading digits and then the product or quotient with a power of ten. -/
def scale? (x : Binary64) (e : Int) : Option Binary64 :=
  if 0 ≤ e then scaleUp? x e.toNat else some (scaleDown x (-e).toNat)

def float (n : Numeral) : Datum :=
  let (lead, dropped) := absorb 0 n.whole
  let fraction := n.fraction.getD []
  let (significand, lost) := absorb lead fraction
  let shift : Int := (dropped.length : Int) - ((fraction.length - lost.length : Nat) : Int)
  let (down, digits) := n.exponent.getD (false, [])
  let e := Decimal.natOfDigits digits
  let scaled :=
    if UInt32.size / 2 ≤ e then
      if significand ≠ 0 ∧ !down then none else some (Binary64.zero false)
    else scale? (Binary64.ofNat significand) (if down then shift - e else shift + e)
  match scaled with
  | some x => .number (if n.negative then x.neg else x)
  | none => .unreadable

/-- A numeral without fraction and exponent is an integer if it fits in 64 bits with or without a
sign; minus zero does not. -/
def datum (n : Numeral) : Datum :=
  if n.fraction.isSome ∨ n.exponent.isSome then n.float
  else
    let m := Decimal.natOfDigits n.whole
    if n.negative then
      if 0 < m ∧ m ≤ UInt64.size / 2 then .integer (-m) else n.float
    else if m < UInt64.size then .integer m
    else n.float

def takeFraction? : List Char → Option (Option (List Char) × List Char)
  | '.' :: r =>
    let ds := r.takeWhile Char.isDigit
    if ds.isEmpty then none else some (some ds, r.dropWhile Char.isDigit)
  | r => some (none, r)

def takeExponent? : List Char → Option (Option (Bool × List Char) × List Char)
  | c :: r =>
    if c = 'e' ∨ c = 'E' then
      let (negative, r) := Decimal.splitSign r
      let ds := r.takeWhile Char.isDigit
      if ds.isEmpty then none else some (some (negative, ds), r.dropWhile Char.isDigit)
    else some (none, c :: r)
  | [] => some (none, [])

/-- The digits before the point. No digit follows a leading zero. -/
def takeWhole? (s : List Char) : Option (List Char × List Char) :=
  let ds := if s.head? = some '0' then ['0'] else s.takeWhile Char.isDigit
  if ds.isEmpty then none else some (ds, s.drop ds.length)

/-- The numeral at the start of the text. -/
def take? (s : List Char) : Option (Numeral × List Char) := do
  let (negative, s) := match s with
    | '-' :: r => (true, r)
    | r => (false, r)
  let (whole, s) ← takeWhole? s
  let (fraction, s) ← takeFraction? s
  let (exponent, s) ← takeExponent? s
  return ({ negative, whole, fraction, exponent }, s)

end Numeral

def escape? : Char → Option Nat
  | '"' => some 0x22
  | '\\' => some 0x5C
  | '/' => some 0x2F
  | 'b' => some 0x08
  | 'f' => some 0x0C
  | 'n' => some 0x0A
  | 'r' => some 0x0D
  | 't' => some 0x09
  | _ => none

/-- The code units up to the closing quote, and the text after it. -/
def takeUnits? : List Char → Option (List Nat × List Char)
  | [] => none
  | '"' :: r => some ([], r)
  | '\\' :: 'u' :: a :: b :: c :: d :: r => do
    let n ← Text.hexNumber? [a, b, c, d]
    let (us, rest) ← takeUnits? r
    return (n :: us, rest)
  | '\\' :: e :: r => do
    let n ← escape? e
    let (us, rest) ← takeUnits? r
    return (n :: us, rest)
  | c :: r =>
    if c.toNat < 32 then none
    else do
      let (us, rest) ← takeUnits? r
      return (c.toNat :: us, rest)

def isHighSurrogate (n : Nat) : Bool := 0xD800 ≤ n && n < 0xDC00

def isLowSurrogate (n : Nat) : Bool := 0xDC00 ≤ n && n < 0xE000

/-- The characters of the units, a surrogate pair being one character. -/
def ofUnits? : List Nat → Option (List Char)
  | [] => some []
  | [n] => if isHighSurrogate n || isLowSurrogate n then none else some [Char.ofNat n]
  | h :: l :: r =>
    if isHighSurrogate h then
      if isLowSurrogate l then
        (ofUnits? r).map (Char.ofNat (0x10000 + (h - 0xD800) * 0x400 + (l - 0xDC00)) :: ·)
      else none
    else if isLowSurrogate h then none
    else (ofUnits? (l :: r)).map (Char.ofNat h :: ·)

theorem length_takeWhole? {s ds r : List Char} (h : Numeral.takeWhole? s = some (ds, r)) :
    r.length < s.length := by
  simp only [Numeral.takeWhole?, Option.ite_none_left_eq_some, Option.some.injEq,
    Prod.mk.injEq] at h
  obtain ⟨hne, hds, rfl⟩ := h
  rw [hds] at hne ⊢
  cases s with
  | nil => simp_all
  | cons c t =>
    cases ds with
    | nil => simp at hne
    | cons d ds =>
      simp only [List.length_drop, List.length_cons]
      omega

theorem length_takeFraction? {s r : List Char} {ds : Option (List Char)}
    (h : Numeral.takeFraction? s = some (ds, r)) : r.length ≤ s.length := by
  unfold Numeral.takeFraction? at h
  split at h
  · rename_i t
    have := (List.dropWhile_sublist Char.isDigit (l := t)).length_le
    simp only [Option.ite_none_left_eq_some, Option.some.injEq, Prod.mk.injEq] at h
    simp only [← h.2.2, List.length_cons]
    omega
  · simp_all

theorem length_splitSign_le (s : List Char) : (Decimal.splitSign s).2.length ≤ s.length := by
  unfold Decimal.splitSign
  split <;> simp

theorem length_takeExponent? {s r : List Char} {e : Option (Bool × List Char)}
    (h : Numeral.takeExponent? s = some (e, r)) : r.length ≤ s.length := by
  unfold Numeral.takeExponent? at h
  split at h
  · rename_i c t
    split at h
    · have h1 := length_splitSign_le t
      have h2 := (List.dropWhile_sublist Char.isDigit (l := (Decimal.splitSign t).2)).length_le
      simp only [Option.ite_none_left_eq_some, Option.some.injEq, Prod.mk.injEq] at h
      simp only [← h.2.2, List.length_cons]
      omega
    · simp_all
  · simp_all

theorem length_numeral {s r : List Char} {n : Numeral} (h : Numeral.take? s = some (n, r)) :
    r.length < s.length := by
  simp only [Numeral.take?, Option.bind_eq_bind, Option.bind_eq_some_iff, Option.pure_def,
    Option.some.injEq, Prod.mk.injEq] at h
  obtain ⟨⟨_, r1⟩, h1, ⟨_, r2⟩, h2, ⟨_, r3⟩, h3, -, rfl⟩ := h
  have h1 := length_takeWhole? h1
  have h2 := length_takeFraction? h2
  have h3 := length_takeExponent? h3
  simp only at h2 h3
  split at h1 <;> simp only [List.length_cons] at * <;> omega

theorem length_takeUnits? {s r : List Char} {us : List Nat} (h : takeUnits? s = some (us, r)) :
    r.length < s.length := by
  fun_induction takeUnits? s generalizing us with
  | case1 => simp at h
  | case2 => simp_all
  | case3 a b c d t ih =>
    simp only [Option.bind_eq_bind, Option.bind_eq_some_iff, Option.pure_def, Option.some.injEq,
      Prod.mk.injEq] at h
    obtain ⟨_, _, ⟨_, r'⟩, h1, -, rfl⟩ := h
    have := ih h1
    simp only [List.length_cons] at *
    omega
  | case4 e t _ ih =>
    simp only [Option.bind_eq_bind, Option.bind_eq_some_iff, Option.pure_def, Option.some.injEq,
      Prod.mk.injEq] at h
    obtain ⟨_, _, ⟨_, r'⟩, h1, -, rfl⟩ := h
    have := ih h1
    simp only [List.length_cons] at *
    omega
  | case5 => simp at h
  | case6 c t _ _ _ _ ih =>
    simp only [Option.bind_eq_bind, Option.bind_eq_some_iff, Option.pure_def, Option.some.injEq,
      Prod.mk.injEq] at h
    obtain ⟨⟨_, r'⟩, h1, -, rfl⟩ := h
    have := ih h1
    simp only [List.length_cons] at *
    omega

namespace Token

def isSpace (c : Char) : Bool := c == ' ' || c == '\t' || c == '\n' || c == '\r'

/-- The token at the start of a text that does not start with a space. -/
def take? : List Char → Option (Token × List Char)
  | '[' :: r => some (openBracket, r)
  | ']' :: r => some (closeBracket, r)
  | '{' :: r => some (openBrace, r)
  | '}' :: r => some (closeBrace, r)
  | ':' :: r => some (colon, r)
  | ',' :: r => some (comma, r)
  | '"' :: r => (takeUnits? r).map fun (us, rest) => (text ((ofUnits? us).map String.ofList), rest)
  | 'n' :: 'u' :: 'l' :: 'l' :: r => some (literal .null, r)
  | 't' :: 'r' :: 'u' :: 'e' :: r => some (literal (.bool true), r)
  | 'f' :: 'a' :: 'l' :: 's' :: 'e' :: r => some (literal (.bool false), r)
  | s => (Numeral.take? s).map fun (n, rest) => (literal n.datum, rest)

theorem length_take? {s r : List Char} {t : Token} (h : take? s = some (t, r)) :
    r.length < s.length := by
  unfold take? at h
  split at h
  case h_7 =>
    obtain ⟨⟨_, _⟩, h, he⟩ := Option.map_eq_some_iff.1 h
    have := length_takeUnits? h
    simp only [Prod.mk.injEq] at he
    simp only [← he.2, List.length_cons]
    omega
  case h_11 =>
    obtain ⟨⟨_, _⟩, h, he⟩ := Option.map_eq_some_iff.1 h
    have := length_numeral h
    simp only [Prod.mk.injEq] at he
    simpa only [← he.2] using this
  all_goals
    simp only [Option.some.injEq, Prod.mk.injEq] at h
    simp only [← h.2, List.length_cons]
    omega

/-- The tokens of a text, between which spaces may stand. -/
def scan? : List Char → Option (List Token)
  | [] => some []
  | c :: r =>
    if isSpace c then scan? r
    else
      match _h : take? (c :: r) with
      | none => none
      | some (t, rest) => (scan? rest).map (t :: ·)
termination_by s => s.length
decreasing_by
  · simp
  · exact length_take? ‹_›

end Token

end ConsoleSignature.Json
