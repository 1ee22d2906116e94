import ConsoleSignature.Number.Decimal
import Mathlib.Data.List.Induction
import Mathlib.Data.List.TakeWhile
import Mathlib.Data.Nat.Digits.Defs

/-!
The texts of decimals: a sign, digits with a point among or around them, and an exponent, of which
only the digits must be there. These texts are read and no others, each as what it says.
-/
namespace ConsoleSignature.Decimal

variable {s t u : List Char} {negative : Bool} {d : Decimal} {e : Int}

def IsDigits (s : List Char) : Prop := ∀ c ∈ s, c.isDigit

/-- The number that digits stand for, the last of them being the ones. -/
def valueOf (digits : List Char) : Nat := Nat.ofDigits 10 (digits.reverse.map digitValue)

inductive SignText : Bool → List Char → Prop
  | none : SignText false []
  | plus : SignText false ['+']
  | minus : SignText true ['-']

/-- A point, if there is one, and the digits behind it. -/
inductive FractionText : List Char → List Char → Prop
  | none : FractionText [] []
  | point {fraction : List Char} : IsDigits fraction → FractionText fraction ('.' :: fraction)

inductive ExponentText : Int → List Char → Prop
  | none : ExponentText 0 []
  | marked {mark : Char} {negative : Bool} {sign digits : List Char} :
    mark = 'e' ∨ mark = 'E' → SignText negative sign → IsDigits digits → digits ≠ [] →
    ExponentText (if negative then -(valueOf digits : Int) else valueOf digits)
      (mark :: (sign ++ digits))

/-- The texts of a decimal under a sign. Each digit behind the point lowers the exponent by one. -/
inductive Spells : Bool → Decimal → List Char → Prop
  | of {negative : Bool} {exponent : Int} {s whole fraction t u : List Char} :
    SignText negative s → IsDigits whole → FractionText fraction t → ExponentText exponent u →
    whole ++ fraction ≠ [] →
    Spells negative ⟨valueOf (whole ++ fraction), exponent - fraction.length⟩
      (s ++ (whole ++ (t ++ u)))

theorem natOfDigits_eq (s : List Char) : natOfDigits s = valueOf s := by
  induction s using List.reverseRecOn with
  | nil => rfl
  | append_singleton s c ih =>
    rw [valueOf, List.reverse_concat, List.map_cons, Nat.ofDigits_cons, ← valueOf, ← ih,
      natOfDigits, List.foldl_append, List.foldl_cons, List.foldl_nil, Nat.add_comm]
    rfl

theorem span_of_isDigits (hs : IsDigits s) (ht : ∀ c ∈ t.head?, c.isDigit = false) :
    (s ++ t).takeWhile Char.isDigit = s ∧ (s ++ t).dropWhile Char.isDigit = t := by
  rw [List.takeWhile_append_of_pos hs, List.dropWhile_append_of_pos hs]
  cases t with
  | nil => simp
  | cons c t => simp [ht c rfl]

theorem head_of_isDigits (h : IsDigits s) : ∀ c ∈ s.head?, c ≠ '-' ∧ c ≠ '+' := by
  intro c hc
  have hdigit := h c (List.mem_of_head? hc)
  constructor <;> rintro rfl <;> simp at hdigit

theorem exists_signText (s : List Char) :
    ∃ t, SignText (splitSign s).1 t ∧ s = t ++ (splitSign s).2 := by
  unfold splitSign
  split
  · exact ⟨_, .minus, rfl⟩
  · exact ⟨_, .plus, rfl⟩
  · exact ⟨_, .none, rfl⟩

theorem splitSign_append (h : SignText negative s) (ht : ∀ c ∈ t.head?, c ≠ '-' ∧ c ≠ '+') :
    splitSign (s ++ t) = (negative, t) := by
  cases h with
  | none =>
    cases t with
    | nil => rfl
    | cons c t =>
      obtain ⟨hminus, hplus⟩ := ht c rfl
      simp [splitSign, hminus, hplus]
  | plus => rfl
  | minus => rfl

theorem readExponent?_eq_some_iff : readExponent? s = some e ↔ ExponentText e s := by
  constructor
  · intro h
    cases s with
    | nil =>
      obtain rfl : 0 = e := by simpa [readExponent?] using h
      exact .none
    | cons mark r =>
      obtain ⟨sign, hsign, hr⟩ := exists_signText r
      simp only [readExponent?, natOfDigits_eq] at h
      split at h
      · rename_i hmark
        split at h
        · rename_i hdigits
          have htext := ExponentText.marked hmark hsign (List.all_eq_true.1 hdigits.2) hdigits.1
          rw [← hr] at htext
          exact Option.some.inj h ▸ htext
        · simp at h
      · simp at h
  · intro h
    cases h with
    | none => rfl
    | marked hmark hsign hdigits hne =>
      have hall := List.all_eq_true.2 hdigits
      simp [readExponent?, hmark, splitSign_append hsign (head_of_isDigits hdigits), hne, hall,
        natOfDigits_eq]

theorem head_exponentText (h : ExponentText e u) : ∀ c ∈ u.head?, c = 'e' ∨ c = 'E' := by
  cases h with
  | none => simp
  | marked hmark => simpa using hmark

theorem exists_fractionText (s : List Char) :
    ∃ t, FractionText (splitFraction s).1 t ∧ s = t ++ (splitFraction s).2 := by
  unfold splitFraction
  split
  · rename_i r
    refine ⟨_, .point fun c hc => List.mem_takeWhile_imp hc, ?_⟩
    rw [List.cons_append, List.takeWhile_append_dropWhile]
  · exact ⟨_, .none, rfl⟩

theorem splitFraction_append (h : FractionText s t) (hu : ExponentText e u) :
    splitFraction (t ++ u) = (s, u) := by
  have hhead := head_exponentText hu
  cases h with
  | none =>
    cases u with
    | nil => rfl
    | cons c u => rcases hhead c rfl with rfl | rfl <;> rfl
  | point hs =>
    have hmark : ∀ c ∈ u.head?, c.isDigit = false := by
      intro c hc
      rcases hhead c hc with rfl | rfl <;> rfl
    obtain ⟨htake, hdrop⟩ := span_of_isDigits hs hmark
    simp [splitFraction, htake, hdrop]

theorem read?_eq_some_iff : read? s = some (negative, d) ↔ Spells negative d s := by
  constructor
  · intro h
    obtain ⟨sign, hsign, hs⟩ := exists_signText s
    unfold read? at h
    dsimp only at h
    generalize splitSign s = split at h hs hsign
    obtain ⟨n, r⟩ := split
    obtain ⟨point, hpoint, hr⟩ := exists_fractionText (r.dropWhile Char.isDigit)
    have hwhole : IsDigits (r.takeWhile Char.isDigit) := fun c hc => List.mem_takeWhile_imp hc
    have hparts : r.takeWhile Char.isDigit ++
        (point ++ (splitFraction (r.dropWhile Char.isDigit)).2) = r := by
      rw [← hr, List.takeWhile_append_dropWhile]
    split at h
    · simp at h
    · rename_i hne
      obtain ⟨e, he, heq⟩ := Option.map_eq_some_iff.1 h
      have htext := Spells.of hsign hwhole hpoint (readExponent?_eq_some_iff.1 he) hne
      rw [hparts, ← hs] at htext
      rw [natOfDigits_eq] at heq
      obtain ⟨rfl, rfl⟩ := Prod.mk.inj heq
      exact htext
  · intro h
    cases h with
    | @of exponent sign whole fraction point u hsign hwhole hpoint hexponent hne =>
      have hend : ∀ c ∈ (point ++ u).head?, c = '.' ∨ c = 'e' ∨ c = 'E' := by
        cases hpoint with
        | none => exact fun c hc => .inr (head_exponentText hexponent c hc)
        | point => simp
      have hmark : ∀ c ∈ (point ++ u).head?, c.isDigit = false := by
        intro c hc
        rcases hend c hc with rfl | rfl | rfl <;> rfl
      have hstart : ∀ c ∈ (whole ++ (point ++ u)).head?, c ≠ '-' ∧ c ≠ '+' := by
        cases whole with
        | nil =>
          intro c hc
          rcases hend c hc with rfl | rfl | rfl <;> decide
        | cons c whole => exact fun d hd => head_of_isDigits hwhole d hd
      obtain ⟨htake, hdrop⟩ := span_of_isDigits hwhole hmark
      simp only [read?, splitSign_append hsign hstart, htake, hdrop,
        splitFraction_append hpoint hexponent, if_neg hne, natOfDigits_eq,
        readExponent?_eq_some_iff.2 hexponent, Option.map_some]

end ConsoleSignature.Decimal
