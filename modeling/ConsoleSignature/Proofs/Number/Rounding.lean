import ConsoleSignature.Number.Binary64
import Mathlib.Algebra.Order.Field.Power
import Mathlib.Data.Rat.Cast.Order
import Mathlib.Tactic.FieldSimp
import Mathlib.Tactic.Linarith
import Mathlib.Tactic.NormNum
import Mathlib.Tactic.Positivity
import Mathlib.Tactic.Ring

/-!
Rounding. A decimal becomes the finite number nearest to it, the even one of two that are equally
near, and nothing finite from half a step beyond the greatest number on. There is one such number
only, so that this says all about the bits that are computed.
-/
namespace ConsoleSignature.Binary64

variable {x y : Binary64} {negative : Bool} {num den b m n r : Nat} {e : Int} {q t : ℚ}

/-! The fields of a number -/

theorem significand_lt (x : Binary64) : x.significand < 2 * hiddenBit := by
  simp only [significand, binade, hiddenBit]
  omega

theorem le_significand (x : Binary64) : x.binade = 0 ∨ hiddenBit ≤ x.significand := by
  simp only [significand, binade, hiddenBit]
  omega

theorem binade_add_significand (x : Binary64) :
    x.binade * hiddenBit + x.significand = x.magnitude := by
  simp only [significand, binade, hiddenBit]
  omega

theorem significand_mod_two (x : Binary64) : x.significand % 2 = x.magnitude % 2 := by
  simp only [significand, binade, hiddenBit]
  omega

theorem magnitude_ofMagnitude (h : m < signBit) : (ofMagnitude negative m).magnitude = m := by
  simp only [magnitude, ofMagnitude, UInt64.toNat_ofNat', signBit] at h ⊢
  cases negative <;> simp <;> omega

theorem isNegative_ofMagnitude (h : m < signBit) :
    (ofMagnitude negative m).isNegative = negative := by
  simp only [isNegative, ofMagnitude, UInt64.toNat_ofNat', signBit] at h ⊢
  cases negative <;> simp <;> omega

theorem isFinite_iff : x.isFinite ↔ x.magnitude < infinityBits := decide_eq_true_iff

theorem eq_of_magnitude (hs : x.isNegative = y.isNegative) (hm : x.magnitude = y.magnitude) :
    x = y := by
  have hx := x.bits.toNat_lt
  have hy := y.bits.toNat_lt
  rw [isNegative, isNegative, decide_eq_decide] at hs
  have hbits : x.bits.toNat = y.bits.toNat := by
    simp only [magnitude, signBit] at hs hm
    omega
  cases x
  cases y
  exact congrArg mk (UInt64.toNat_inj.1 hbits)

theorem magnitude_zero (negative : Bool) : (zero negative).magnitude = 0 :=
  magnitude_ofMagnitude (by decide)

theorem isFinite_zero (negative : Bool) : (zero negative).isFinite := by
  rw [isFinite_iff, magnitude_zero]
  decide

theorem not_isFinite_infinity (negative : Bool) : ¬ (infinity negative).isFinite := by
  rw [isFinite_iff, infinity, magnitude_ofMagnitude (by decide)]
  exact Nat.lt_irrefl _

/-! The values of numbers -/

/-- The magnitude of a finite number, in least units. -/
def units (x : Binary64) : Nat := x.significand * 2 ^ x.binade

theorem units_lt_units (h : x.magnitude < y.magnitude) : x.units < y.units := by
  have hx := x.significand_lt
  have hy := y.le_significand
  have hmx := x.binade_add_significand
  have hmy := y.binade_add_significand
  have hle : x.binade ≤ y.binade := by
    simp only [binade]
    have := Nat.div_le_div_right (c := hiddenBit) (Nat.le_of_lt h)
    omega
  rcases Nat.eq_or_lt_of_le hle with heq | hlt
  · have hlt : x.significand < y.significand := by
      rw [heq] at hmx
      omega
    rw [units, units, heq]
    exact Nat.mul_lt_mul_of_pos_right hlt (Nat.two_pow_pos _)
  · calc x.units < 2 * hiddenBit * 2 ^ x.binade :=
        Nat.mul_lt_mul_of_pos_right hx (Nat.two_pow_pos _)
      _ = hiddenBit * 2 ^ (x.binade + 1) := by ring
      _ ≤ y.significand * 2 ^ y.binade :=
        Nat.mul_le_mul (hy.resolve_left (by omega)) (Nat.pow_le_pow_right (by decide) hlt)

/-- What is not a multiple of the unit of a binade stands below that binade. -/
theorem units_grid (y : Binary64) (b : Nat) :
    (∃ k, y.units = k * 2 ^ b) ∨ (b ≠ 0 ∧ y.units < hiddenBit * 2 ^ b) := by
  rcases Nat.lt_or_ge y.binade b with hlt | hge
  · right
    refine ⟨by omega, ?_⟩
    calc y.units < 2 * hiddenBit * 2 ^ y.binade :=
        Nat.mul_lt_mul_of_pos_right y.significand_lt (Nat.two_pow_pos _)
      _ = hiddenBit * 2 ^ (y.binade + 1) := by ring
      _ ≤ hiddenBit * 2 ^ b := Nat.mul_le_mul_left _ (Nat.pow_le_pow_right (by decide) hlt)
  · left
    refine ⟨y.significand * 2 ^ (y.binade - b), ?_⟩
    rw [units, Nat.mul_assoc, ← Nat.pow_add, Nat.sub_add_cancel hge]

/-- The end of a binade is the first number of the next. -/
theorem units_of_magnitude (hr : r ≤ 2 * hiddenBit) (hb : b = 0 ∨ hiddenBit ≤ r)
    (h : x.magnitude = b * hiddenBit + r) :
    x.units = r * 2 ^ b ∧ (r % 2 = 0 → x.significand % 2 = 0) := by
  have hfields : (x.binade = b ∧ x.significand = r) ∨
      (r = 2 * hiddenBit ∧ x.binade = b + 1 ∧ x.significand = hiddenBit) := by
    simp only [binade, significand, h, hiddenBit] at hr hb ⊢
    omega
  rcases hfields with ⟨hbinade, hsig⟩ | ⟨rfl, hbinade, hsig⟩
  · simp [units, hbinade, hsig]
  · refine ⟨?_, fun _ => by rw [hsig]; rfl⟩
    rw [units, hbinade, hsig]
    ring

/-- The power is kept under a name, being too large to compute with. -/
theorem exists_unitsInOne_eq : ∃ k, k = 1074 ∧ unitsInOne = 2 ^ k := by
  refine ⟨_, rfl, ?_⟩
  generalize hk : 1074 = k
  unfold unitsInOne
  rw [hk, Nat.pow_eq]

theorem unitsInOne_pos : (0 : ℚ) < unitsInOne := by
  obtain ⟨k, -, hk⟩ := exists_unitsInOne_eq
  rw [hk, Nat.cast_pow]
  positivity

def size (x : Binary64) : ℚ := x.ratio.1 / x.ratio.2

theorem size_eq (x : Binary64) : x.size = x.units / unitsInOne := by
  rw [size, units, ratio, Nat.pow_eq]

theorem size_lt_size (h : x.magnitude < y.magnitude) : x.size < y.size := by
  rw [size_eq, size_eq]
  exact div_lt_div_of_pos_right (by exact_mod_cast units_lt_units h) unitsInOne_pos

theorem abs_size_sub (y : Binary64) (q : ℚ) :
    |y.size - q| = |(y.units : ℚ) - q * unitsInOne| / unitsInOne := by
  have hpos := unitsInOne_pos
  have hsub : y.size - q = ((y.units : ℚ) - q * unitsInOne) / unitsInOne := by
    rw [size_eq, sub_div, mul_div_cancel_right₀ _ hpos.ne']
  rw [hsub, abs_div, abs_of_pos hpos]

/-- The point halfway between the greatest finite number and the power of two that comes next. -/
def overflow : ℚ := (4 * hiddenBit - 1) * 2 ^ 970

theorem overflow_units {k : Nat} (hk : k = 2044) :
    overflow * unitsInOne = (4 * hiddenBit - 1) * 2 ^ k := by
  obtain ⟨l, hl, hunits⟩ := exists_unitsInOne_eq
  generalize hm : 970 = m
  rw [hunits, overflow, hm, Nat.cast_pow, mul_assoc, Nat.cast_ofNat, ← pow_add,
    show m + l = k by omega]

/-- The finite number under the sign whose magnitude is nearest to `q`; of two that are equally
near, it is the one of even significand. -/
structure Rounds (negative : Bool) (q : ℚ) (x : Binary64) : Prop where
  inRange : q < overflow
  sign : x.isNegative = negative
  finite : x.isFinite
  nearest (y : Binary64) : y.isFinite → |x.size - q| ≤ |y.size - q|
  even (y : Binary64) : y.isFinite → |y.size - q| = |x.size - q| → y.size ≠ x.size →
    x.significand % 2 = 0

/-- Two numbers that are equally near are neighbours, only one of which is even. -/
theorem Rounds.not_lt (hx : Rounds negative q x) (hy : Rounds negative q y) :
    ¬ x.magnitude < y.magnitude := by
  intro hlt
  have hyfinite := isFinite_iff.1 hy.finite
  have hnear : |y.size - q| = |x.size - q| :=
    le_antisymm (hy.nearest x hx.finite) (hx.nearest y hy.finite)
  have hxy : x.size < y.size := size_lt_size hlt
  have hxeven := hx.even y hy.finite hnear hxy.ne'
  have hyeven := hy.even x hx.finite hnear.symm hxy.ne
  rw [significand_mod_two] at hxeven hyeven
  -- So there is a number between the two, which is nearer than they are.
  have hfinite : x.magnitude + 1 < infinityBits := by omega
  have hz : (ofMagnitude false (x.magnitude + 1)).magnitude = x.magnitude + 1 :=
    magnitude_ofMagnitude (hfinite.trans (by decide))
  generalize ofMagnitude false (x.magnitude + 1) = z at hz
  have hxz : x.size < z.size := size_lt_size (by omega)
  have hzy : z.size < y.size := size_lt_size (by omega)
  have hnearest := hx.nearest z (isFinite_iff.2 (hz ▸ hfinite))
  rcases abs_cases (x.size - q) with h | h <;> rcases abs_cases (y.size - q) with h' | h' <;>
    rcases abs_cases (z.size - q) with h'' | h'' <;> linarith

theorem Rounds.unique (hx : Rounds negative q x) (hy : Rounds negative q y) : x = y :=
  eq_of_magnitude (hx.sign.trans hy.sign.symm)
    (Nat.le_antisymm (Nat.le_of_not_lt (hy.not_lt hx)) (Nat.le_of_not_lt (hx.not_lt hy)))

/-! The significand of a ratio -/

/-- Half the denominator is the greatest distance, and at that distance the result is even. -/
theorem roundHalfEven_bounds (hden : 0 < den) (h : roundHalfEven num den = r) :
    2 * (r * den) ≤ 2 * num + den ∧ 2 * num ≤ 2 * (r * den) + den ∧
      (2 * (r * den) = 2 * num + den ∨ 2 * num = 2 * (r * den) + den → r % 2 = 0) := by
  have hdiv := Nat.div_add_mod' num den
  have hmod := Nat.mod_lt num hden
  subst h
  unfold roundHalfEven
  dsimp only
  split
  · omega
  · split
    · rw [Nat.add_mul, Nat.one_mul]
      omega
    · rcases Nat.mod_two_eq_zero_or_one (num / den) with heven | hodd
      · rw [heven, Nat.add_zero]
        omega
      · rw [hodd, Nat.add_mul, Nat.one_mul]
        omega

theorem abs_roundHalfEven_sub (hden : 0 < den) (h : roundHalfEven num den = r) :
    |(r : ℚ) - num / den| ≤ 1 / 2 ∧ (|(r : ℚ) - num / den| = 1 / 2 → r % 2 = 0) := by
  obtain ⟨hle, hge, heven⟩ := roundHalfEven_bounds hden h
  have hden' : (0 : ℚ) < den := by exact_mod_cast hden
  have hsub : (r : ℚ) - num / den = (r * den - num) / den := by field_simp
  have hle' : 2 * ((r : ℚ) * den) ≤ 2 * num + den := by exact_mod_cast hle
  have hge' : 2 * (num : ℚ) ≤ 2 * (r * den) + den := by exact_mod_cast hge
  rw [hsub, abs_div, abs_of_pos hden', div_le_iff₀ hden', div_eq_iff hden'.ne', abs_le]
  refine ⟨⟨by linarith, by linarith⟩, fun h => heven ?_⟩
  rcases eq_or_eq_neg_of_abs_eq h with h | h
  · left
    have : 2 * ((r : ℚ) * den) = 2 * num + den := by linarith
    exact_mod_cast this
  · right
    have : 2 * (num : ℚ) = 2 * (r * den) + den := by linarith
    exact_mod_cast this

/-- No integer is nearer than one at most half away, and another is as near only at just a half. -/
theorem abs_sub_le_of_half {k : Nat} (h : |(r : ℚ) - q| ≤ 1 / 2) :
    |(r : ℚ) - q| ≤ |(k : ℚ) - q| ∧
      (|(k : ℚ) - q| = |(r : ℚ) - q| → k ≠ r → |(r : ℚ) - q| = 1 / 2) := by
  rcases eq_or_ne k r with rfl | hne
  · exact ⟨le_refl _, fun _ h => absurd rfl h⟩
  · have hone : (1 : ℚ) ≤ |(k : ℚ) - r| := by
      have : (k : ℤ) ≠ r := by exact_mod_cast hne
      exact_mod_cast Int.one_le_abs (sub_ne_zero.2 this)
    have htriangle : |(k : ℚ) - r| ≤ |(k : ℚ) - q| + |(r : ℚ) - q| := by
      rw [abs_sub_comm (r : ℚ)]
      exact abs_sub_le _ _ _
    exact ⟨by linarith, fun heq _ => by linarith⟩

/-- The leading bit of what a numerator makes in least units. -/
theorem exists_amount_bounds (hnum : num ≠ 0) :
    ∃ k, k = num.log2 + 1074 ∧ 2 ^ k ≤ num * unitsInOne ∧ num * unitsInOne < 2 ^ (k + 1) := by
  obtain ⟨l, hl, hunits⟩ := exists_unitsInOne_eq
  refine ⟨num.log2 + l, by rw [hl], ?_, ?_⟩
  · rw [hunits, Nat.pow_add]
    exact Nat.mul_le_mul_right _ (Nat.log2_self_le hnum)
  · rw [hunits, Nat.add_right_comm, Nat.pow_add]
    exact (Nat.mul_lt_mul_right (Nat.two_pow_pos _)).2 Nat.lt_log2_self

/-- The ratio has a significand in the unit of its binade, a small one in the least unit only. -/
theorem binadeOfRatio_bounds (hden : 0 < den) (h : binadeOfRatio num den = b) :
    num * unitsInOne < 2 * hiddenBit * (den * 2 ^ b) ∧
      (b = 0 ∨ hiddenBit * (den * 2 ^ b) ≤ num * unitsInOne) := by
  subst h
  rcases Nat.eq_zero_or_pos num with rfl | hnum
  · exact ⟨by simpa [hiddenBit, binadeOfRatio] using hden, .inl rfl⟩
  obtain ⟨k, hk, hlow, hhigh⟩ := exists_amount_bounds hnum.ne'
  have hdenLow : 2 ^ den.log2 ≤ den := Nat.log2_self_le hden.ne'
  have hdenHigh : den < 2 ^ (den.log2 + 1) := Nat.lt_log2_self
  unfold binadeOfRatio
  dsimp only
  rw [if_neg hnum.ne', Nat.pow_eq]
  generalize hguess : num.log2 + 1074 - den.log2 - 53 = guess
  have hpos : 0 < den * 2 ^ guess := Nat.mul_pos hden (Nat.two_pow_pos _)
  split
  · rename_i hlt
    refine ⟨(Nat.div_lt_iff_lt_mul hpos).1 hlt, ?_⟩
    rcases Nat.eq_zero_or_pos guess with hzero | hg
    · exact .inl hzero
    · right
      calc hiddenBit * (den * 2 ^ guess)
          ≤ 2 ^ 52 * (2 ^ (den.log2 + 1) * 2 ^ guess) :=
            Nat.mul_le_mul_left _ (Nat.mul_le_mul_right _ hdenHigh.le)
        _ = 2 ^ k := by
            rw [← Nat.pow_add, ← Nat.pow_add, show 52 + (den.log2 + 1 + guess) = k by omega]
        _ ≤ num * unitsInOne := hlow
  · rename_i hge
    rw [Nat.div_lt_iff_lt_mul hpos, Nat.not_lt] at hge
    constructor
    · calc num * unitsInOne < 2 ^ (k + 1) := hhigh
        _ ≤ 2 ^ (53 + (den.log2 + (guess + 1))) := Nat.pow_le_pow_right (by decide) (by omega)
        _ = 2 * hiddenBit * (2 ^ den.log2 * 2 ^ (guess + 1)) := by
            rw [Nat.pow_add, Nat.pow_add, show 2 * hiddenBit = 2 ^ 53 from rfl]
        _ ≤ 2 * hiddenBit * (den * 2 ^ (guess + 1)) :=
            Nat.mul_le_mul_left _ (Nat.mul_le_mul_right _ hdenLow)
    · right
      calc hiddenBit * (den * 2 ^ (guess + 1)) = 2 * hiddenBit * (den * 2 ^ guess) := by ring
        _ ≤ num * unitsInOne := hge

/-- The significand `r` of binade `b` is next to `t` least units. -/
structure Fits (t : ℚ) (b r : Nat) : Prop where
  le_significand : b = 0 ∨ hiddenBit ≤ r
  significand_le : r ≤ 2 * hiddenBit
  le_amount : b = 0 ∨ hiddenBit * 2 ^ b ≤ t
  amount_lt : t < 2 * hiddenBit * 2 ^ b
  nearest : |(r : ℚ) - t / 2 ^ b| ≤ 1 / 2
  even : |(r : ℚ) - t / 2 ^ b| = 1 / 2 → r % 2 = 0

theorem fits_zero (ht : 0 ≤ t) (hhalf : t ≤ 1 / 2) : Fits t 0 0 := by
  have hbit : (1 : ℚ) ≤ hiddenBit := by exact_mod_cast (by decide : 1 ≤ hiddenBit)
  refine ⟨.inl rfl, Nat.zero_le _, .inl rfl, ?_, ?_, fun _ => rfl⟩
  · rw [pow_zero, mul_one]
    linarith
  · rw [Nat.cast_zero, zero_sub, abs_neg, pow_zero, div_one, abs_of_nonneg ht]
    exact hhalf

theorem fits_roundHalfEven (hden : 0 < den) (hb : binadeOfRatio num den = b)
    (hr : roundHalfEven (num * unitsInOne) (den * 2 ^ b) = r) :
    Fits (num / den * unitsInOne) b r := by
  obtain ⟨hhigh, hlow⟩ := binadeOfRatio_bounds hden hb
  have hpos : 0 < den * 2 ^ b := Nat.mul_pos hden (Nat.two_pow_pos _)
  have hpos' : (0 : ℚ) < (den * 2 ^ b : Nat) := by exact_mod_cast hpos
  have hscaled : ((num * unitsInOne : Nat) : ℚ) / (den * 2 ^ b : Nat) =
      num / den * unitsInOne / 2 ^ b := by
    push_cast
    generalize (unitsInOne : ℚ) = u
    field_simp
  have hlow' : b = 0 ∨ (hiddenBit : ℚ) ≤ ((num * unitsInOne : Nat) : ℚ) / (den * 2 ^ b : Nat) := by
    refine hlow.imp_right fun h => ?_
    rw [le_div_iff₀ hpos']
    exact_mod_cast h
  have hhigh' : ((num * unitsInOne : Nat) : ℚ) / (den * 2 ^ b : Nat) < (2 * hiddenBit : Nat) := by
    rw [div_lt_iff₀ hpos']
    exact_mod_cast hhigh
  obtain ⟨hnearest, heven⟩ := abs_roundHalfEven_sub hpos hr
  have hclose := abs_le.1 hnearest
  refine ⟨hlow'.imp_right fun h => ?_, ?_, hlow'.imp_right fun h => ?_, ?_, hscaled ▸ hnearest,
    hscaled ▸ heven⟩
  · have : (hiddenBit : ℚ) < (r + 1 : Nat) := by
      push_cast
      linarith
    exact Nat.le_of_lt_succ (by exact_mod_cast this)
  · have : (r : ℚ) < (2 * hiddenBit + 1 : Nat) := by
      rw [Nat.cast_add, Nat.cast_one]
      linarith
    exact Nat.le_of_lt_succ (by exact_mod_cast this)
  · rw [hscaled, le_div_iff₀ (by positivity)] at h
    exact h
  · rw [hscaled, div_lt_iff₀ (by positivity)] at hhigh'
    exact_mod_cast hhigh'

theorem Fits.nearest_units (h : Fits t b r) (y : Binary64) :
    |((r * 2 ^ b : Nat) : ℚ) - t| ≤ |(y.units : ℚ) - t| ∧
      (|(y.units : ℚ) - t| = |((r * 2 ^ b : Nat) : ℚ) - t| → y.units ≠ r * 2 ^ b → r % 2 = 0) := by
  have hpos : (0 : ℚ) < 2 ^ b := by positivity
  have hscale (k : Nat) : |((k * 2 ^ b : Nat) : ℚ) - t| = |(k : ℚ) - t / 2 ^ b| * 2 ^ b := by
    rw [← abs_of_pos hpos, ← abs_mul, abs_of_pos hpos, sub_mul, div_mul_cancel₀ _ hpos.ne']
    push_cast
    rfl
  rcases y.units_grid b with ⟨k, hk⟩ | ⟨hb, hlt⟩
  · obtain ⟨hle, htie⟩ := abs_sub_le_of_half (k := k) h.nearest
    rw [hk, hscale, hscale]
    refine ⟨mul_le_mul_of_nonneg_right hle hpos.le, fun heq hne => h.even (htie ?_ ?_)⟩
    · exact mul_right_cancel₀ hpos.ne' heq
    · rintro rfl
      exact hne rfl
  -- The first number of the binade is nearer than what stands below the binade.
  · obtain ⟨hle, -⟩ := abs_sub_le_of_half (k := hiddenBit) h.nearest
    have hlow : (hiddenBit : ℚ) * 2 ^ b ≤ t := h.le_amount.resolve_left hb
    have hy : (y.units : ℚ) < hiddenBit * 2 ^ b := by exact_mod_cast hlt
    have hfirst : |(hiddenBit : ℚ) - t / 2 ^ b| * 2 ^ b = t - hiddenBit * 2 ^ b := by
      rw [← hscale, abs_of_nonpos (by push_cast; linarith)]
      push_cast
      ring
    have hless : |((r * 2 ^ b : Nat) : ℚ) - t| < |(y.units : ℚ) - t| := by
      calc |((r * 2 ^ b : Nat) : ℚ) - t| = |(r : ℚ) - t / 2 ^ b| * 2 ^ b := hscale r
        _ ≤ |(hiddenBit : ℚ) - t / 2 ^ b| * 2 ^ b := mul_le_mul_of_nonneg_right hle hpos.le
        _ = t - hiddenBit * 2 ^ b := hfirst
        _ < t - y.units := by linarith
        _ = |(y.units : ℚ) - t| := by rw [abs_of_nonpos (by linarith), neg_sub]
    exact ⟨hless.le, fun heq => absurd heq hless.ne'⟩

/-- What is not rounded up to the end of a binade is more than half a unit before it. -/
theorem Fits.lt_end_iff (h : Fits t b r) :
    r < 2 * hiddenBit ↔ t / 2 ^ b < 2 * hiddenBit - 1 / 2 := by
  have hnearest := abs_le.1 h.nearest
  have heven := h.even
  generalize t / 2 ^ b = s at *
  constructor
  · intro hlt
    have hr : (r : ℚ) + 1 ≤ 2 * hiddenBit := by exact_mod_cast hlt
    -- At half a unit, the last significand of the binade would be the nearest, and it is odd.
    by_contra hge
    have hs : (r : ℚ) - s = -(1 / 2) := by linarith
    have hmod : r % 2 = 0 := heven (by rw [hs, abs_neg, abs_of_pos (by norm_num)])
    have hlast : (r : ℚ) + 1 = 2 * hiddenBit := by linarith
    have : r + 1 = 2 * hiddenBit := by exact_mod_cast hlast
    omega
  · intro hlt
    have : (r : ℚ) < 2 * hiddenBit := by linarith
    exact_mod_cast this

theorem Fits.finite_iff (h : Fits t b r) :
    b * hiddenBit + r < infinityBits ↔ t < overflow * unitsInOne := by
  obtain ⟨k, hk⟩ : ∃ k, k = 2044 := ⟨_, rfl⟩
  have hinfinity : infinityBits = (k + 3) * hiddenBit := by
    rw [hk]
    rfl
  have hpos : (0 : ℚ) < 2 ^ k := by positivity
  have hbit : 1 ≤ hiddenBit := by decide
  have hbit' : (1 : ℚ) ≤ hiddenBit := by exact_mod_cast hbit
  rw [overflow_units hk, hinfinity, Nat.add_mul]
  rcases Nat.lt_trichotomy b (k + 1) with hb | rfl | hb
  · have hbinade := Nat.mul_le_mul_right hiddenBit (Nat.le_of_lt_succ hb)
    have hr := h.significand_le
    have hpow : (2 : ℚ) ^ b ≤ 2 ^ k := pow_le_pow_right₀ (by norm_num) (Nat.le_of_lt_succ hb)
    refine iff_of_true (by omega) (h.amount_lt.trans_le ?_)
    exact mul_le_mul (by linarith) hpow (by positivity) (by linarith)
  · calc (k + 1) * hiddenBit + r < k * hiddenBit + 3 * hiddenBit ↔ r < 2 * hiddenBit := by
          rw [Nat.add_mul]
          omega
      _ ↔ t / 2 ^ (k + 1) < 2 * hiddenBit - 1 / 2 := h.lt_end_iff
      _ ↔ t < (4 * hiddenBit - 1) * 2 ^ k := by
          rw [div_lt_iff₀ (by positivity), pow_succ]
          ring_nf
  · have hbinade := Nat.mul_le_mul_right hiddenBit (Nat.succ_le_of_lt hb)
    have hr := h.le_significand.resolve_left (by omega)
    have hpow : (2 : ℚ) ^ (k + 2) ≤ 2 ^ b := pow_le_pow_right₀ (by norm_num) hb
    have ht : (4 * hiddenBit - 1) * 2 ^ k ≤ t := by
      calc ((4 : ℚ) * hiddenBit - 1) * 2 ^ k ≤ hiddenBit * 2 ^ (k + 2) := by
            rw [pow_add]
            linarith
        _ ≤ hiddenBit * 2 ^ b := mul_le_mul_of_nonneg_left hpow (by linarith)
        _ ≤ t := h.le_amount.resolve_left (by omega)
    rw [Nat.succ_mul, Nat.succ_mul] at hbinade
    exact iff_of_false (by omega) (not_lt.2 ht)

theorem rounds_of_fits (hsign : x.isNegative = negative) (hfinite : x.isFinite)
    (h : Fits (q * unitsInOne) b r) (hx : x.magnitude = b * hiddenBit + r) :
    Rounds negative q x := by
  obtain ⟨hunits, heven⟩ := units_of_magnitude h.significand_le h.le_significand hx
  have hpos := unitsInOne_pos
  refine ⟨?_, hsign, hfinite, fun y _ => ?_, fun y _ heq hne => heven ?_⟩
  · rw [isFinite_iff, hx, h.finite_iff] at hfinite
    exact lt_of_mul_lt_mul_right hfinite hpos.le
  · rw [abs_size_sub, abs_size_sub, hunits]
    exact div_le_div_of_nonneg_right (h.nearest_units y).1 hpos.le
  · rw [abs_size_sub, abs_size_sub, hunits, div_left_inj' hpos.ne'] at heq
    refine (h.nearest_units y).2 heq fun hy => hne ?_
    rw [size_eq, size_eq, hunits, hy]

/-- What is not above half the least unit becomes zero. -/
theorem rounds_zero (hq : 0 ≤ q) (hhalf : q * unitsInOne ≤ 1 / 2) :
    Rounds negative q (zero negative) := by
  have hfits := fits_zero (mul_nonneg hq unitsInOne_pos.le) hhalf
  exact rounds_of_fits (isNegative_ofMagnitude (by decide)) (isFinite_zero negative) hfits
    (by rw [magnitude_zero, Nat.zero_mul])

theorem magnitude_ofRatio (negative : Bool) (num den : Nat) :
    (ofRatio negative num den).magnitude =
      min (binadeOfRatio num den * hiddenBit +
        roundHalfEven (num * unitsInOne) (den * 2 ^ binadeOfRatio num den)) infinityBits := by
  rw [ofRatio, magnitude_ofMagnitude, Nat.pow_eq]
  exact Nat.lt_of_le_of_lt (Nat.min_le_right _ _) (by decide)

theorem isNegative_ofRatio (negative : Bool) (num den : Nat) :
    (ofRatio negative num den).isNegative = negative :=
  isNegative_ofMagnitude (Nat.lt_of_le_of_lt (Nat.min_le_right _ _) (by decide))

theorem isFinite_ofRatio_iff (hden : 0 < den) :
    (ofRatio negative num den).isFinite ↔ (num : ℚ) / den < overflow := by
  have hfits : Fits (num / den * unitsInOne) _ _ := fits_roundHalfEven hden rfl rfl
  have hfinite := hfits.finite_iff
  rw [mul_lt_mul_iff_left₀ unitsInOne_pos] at hfinite
  rw [isFinite_iff, magnitude_ofRatio, ← hfinite, min_lt_iff, or_iff_left (Nat.lt_irrefl _)]

theorem rounds_ofRatio (hden : 0 < den) (h : (ofRatio negative num den).isFinite) :
    Rounds negative (num / den) (ofRatio negative num den) := by
  refine rounds_of_fits (isNegative_ofRatio _ _ _) h (fits_roundHalfEven hden rfl rfl) ?_
  rw [isFinite_iff] at h
  rw [magnitude_ofRatio] at h ⊢
  exact Nat.min_eq_left (by omega)

/-! Decimals -/

theorem le_half_of_small (h : (n.log2 : Int) + e < -800) :
    (n : ℚ) * 10 ^ e * unitsInOne ≤ 1 / 2 := by
  obtain ⟨k, hk, hunits⟩ := exists_unitsInOne_eq
  generalize hl : n.log2 = l at h
  have hn : (n : ℚ) ≤ 2 ^ (l + 1) := by
    have : n < 2 ^ (l + 1) := hl ▸ Nat.lt_log2_self
    exact_mod_cast this.le
  have hpower : (10 : ℚ) ^ e ≤ (10 ^ (801 + l))⁻¹ := by
    rw [← zpow_natCast, ← zpow_neg]
    exact zpow_le_zpow_right₀ (by norm_num) (by push_cast; omega)
  have hten : (2 : ℚ) ^ (l + 1) * 2 ^ k * 2 ≤ 10 ^ (801 + l) := by
    calc (2 : ℚ) ^ (l + 1) * 2 ^ k * 2 = 2 ^ (l + 1 + k + 1) := by ring
      _ ≤ 2 ^ (3 * (801 + l)) := pow_le_pow_right₀ (by norm_num) (by omega)
      _ = 8 ^ (801 + l) := by
        rw [pow_mul]
        norm_num
      _ ≤ 10 ^ (801 + l) := pow_le_pow_left₀ (by norm_num) (by norm_num) _
  have hpos : (0 : ℚ) < 10 ^ (801 + l) := by positivity
  calc (n : ℚ) * 10 ^ e * unitsInOne ≤ 2 ^ (l + 1) * (10 ^ (801 + l))⁻¹ * 2 ^ k := by
        rw [hunits, Nat.cast_pow, Nat.cast_ofNat]
        gcongr
    _ = 2 ^ (l + 1) * 2 ^ k * 2 / 10 ^ (801 + l) / 2 := by
      generalize (10 : ℚ) ^ (801 + l) = ten
      ring
    _ ≤ 1 / 2 := div_le_div_of_nonneg_right ((div_le_one hpos).2 hten) (by norm_num)

theorem overflow_le_of_great (hn : n ≠ 0) (h : 400 < (n.log2 : Int) / 4 + e) :
    overflow ≤ (n : ℚ) * 10 ^ e := by
  generalize hl : n.log2 = l at h
  have hlow : (2 : ℚ) ^ l ≤ n := by
    have : 2 ^ l ≤ n := hl ▸ Nat.log2_self_le hn
    exact_mod_cast this
  have hten : (10 : ℚ) ^ (l / 4) ≤ 2 ^ l := by
    calc (10 : ℚ) ^ (l / 4) ≤ 16 ^ (l / 4) := pow_le_pow_left₀ (by norm_num) (by norm_num) _
      _ = 2 ^ (4 * (l / 4)) := by
        rw [pow_mul]
        norm_num
      _ ≤ 2 ^ l := pow_le_pow_right₀ (by norm_num) (by omega)
  obtain ⟨k, hk⟩ : ∃ k, k = 970 := ⟨_, rfl⟩
  obtain ⟨m, hm⟩ : ∃ m, m = 401 := ⟨_, rfl⟩
  calc overflow ≤ 2 ^ 54 * 2 ^ k := by
        rw [overflow, ← hk]
        refine mul_le_mul_of_nonneg_right ?_ (by positivity)
        norm_num [hiddenBit]
    _ = 2 ^ (54 + k) := (pow_add 2 54 k).symm
    _ ≤ 2 ^ (3 * m) := pow_le_pow_right₀ (by norm_num) (by omega)
    _ = 8 ^ m := by
      rw [pow_mul]
      norm_num
    _ ≤ 10 ^ m := pow_le_pow_left₀ (by norm_num) (by norm_num) _
    _ ≤ 10 ^ ((l / 4 : Nat) + e) := by
      rw [← zpow_natCast]
      exact zpow_le_zpow_right₀ (by norm_num) (by push_cast; omega)
    _ = 10 ^ (l / 4) * 10 ^ e := by rw [zpow_add₀ (by norm_num), zpow_natCast]
    _ ≤ n * 10 ^ e := mul_le_mul_of_nonneg_right (hten.trans hlow) (by positivity)

/-- The two shortcuts give what the ratio would. -/
theorem ofDecimal_cases (negative : Bool) (n : Nat) (e : Int) :
    (ofDecimal negative n e = zero negative ∧ (n : ℚ) * 10 ^ e * unitsInOne ≤ 1 / 2) ∨
    (ofDecimal negative n e = infinity negative ∧ overflow ≤ (n : ℚ) * 10 ^ e) ∨
    ∃ num den : Nat, 0 < den ∧ (num : ℚ) / den = n * 10 ^ e ∧
      ofDecimal negative n e = ofRatio negative num den := by
  unfold ofDecimal
  dsimp only
  split
  · rename_i hn
    left
    rw [hn, Nat.cast_zero, zero_mul, zero_mul]
    exact ⟨rfl, by norm_num⟩
  · rename_i hn
    split
    · rename_i hsmall
      exact .inl ⟨rfl, le_half_of_small hsmall⟩
    · split
      · rename_i hgreat
        exact .inr (.inl ⟨rfl, overflow_le_of_great hn hgreat⟩)
      · right
        right
        split
        · rename_i he
          obtain ⟨k, rfl⟩ := Int.eq_ofNat_of_zero_le he
          exact ⟨_, _, Nat.one_pos, by simp, rfl⟩
        · rename_i he
          obtain ⟨k, rfl⟩ := Int.exists_eq_neg_ofNat (Int.le_of_not_le he)
          exact ⟨_, _, by simp, by simp [div_eq_mul_inv], rfl⟩

theorem isFinite_ofDecimal_iff :
    (ofDecimal negative n e).isFinite ↔ (n : ℚ) * 10 ^ e < overflow := by
  rcases ofDecimal_cases negative n e with ⟨heq, hhalf⟩ | ⟨heq, hgreat⟩ | ⟨num, den, hden, hq, heq⟩
  · have hzero : Rounds negative (n * 10 ^ e) (zero negative) := rounds_zero (by positivity) hhalf
    rw [heq]
    exact iff_of_true (isFinite_zero negative) hzero.inRange
  · rw [heq]
    exact iff_of_false (not_isFinite_infinity negative) (not_lt.2 hgreat)
  · rw [heq, ← hq]
    exact isFinite_ofRatio_iff hden

theorem rounds_ofDecimal (h : (ofDecimal negative n e).isFinite) :
    Rounds negative (n * 10 ^ e) (ofDecimal negative n e) := by
  rcases ofDecimal_cases negative n e with ⟨heq, hhalf⟩ | ⟨heq, -⟩ | ⟨num, den, hden, hq, heq⟩
  · rw [heq]
    exact rounds_zero (by positivity) hhalf
  · rw [heq] at h
    exact absurd h (not_isFinite_infinity negative)
  · rw [heq] at h ⊢
    rw [← hq]
    exact rounds_ofRatio hden h

/-- A finite number is what a decimal becomes exactly if the decimal rounds to it. -/
theorem rounds_iff : Rounds negative (n * 10 ^ e) x ↔ ofDecimal negative n e = x ∧ x.isFinite := by
  constructor
  · intro hx
    have hfinite : (ofDecimal negative n e).isFinite := isFinite_ofDecimal_iff.2 hx.inRange
    exact ⟨(rounds_ofDecimal hfinite).unique hx, hx.finite⟩
  · rintro ⟨rfl, hfinite⟩
    exact rounds_ofDecimal hfinite

example : ofDecimal false 1 (-1) = ⟨0x3FB999999999999A⟩ := by decide +kernel
example : ofDecimal false 5 (-324) = ⟨1⟩ := by decide +kernel
example : ofDecimal true 9007199254740993 0 = ⟨0xC340000000000000⟩ := by decide +kernel
example : ofDecimal false 2 308 = infinity false := by decide +kernel

end ConsoleSignature.Binary64
