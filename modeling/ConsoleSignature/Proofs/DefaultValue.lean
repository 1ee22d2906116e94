import ConsoleSignature.DefaultValue
import ConsoleSignature.Proofs.Number.Decimal
import ConsoleSignature.Proofs.Number.Rounding
import Mathlib.Tactic.SplitIfs

/-!
The typing of defaults, as a relation between a text and a value: a star, a truth value, nothing at
all, the text of a number, or any other text. Each text is typed as one value, which is computed.
-/
namespace ConsoleSignature.DefaultValue

open Text

variable {raw : String} {required : Bool} {s : List Char} {v w : DefaultValue} {x : Binary64}

/-- The text is that of a decimal, which rounds to the number. -/
def Denotes (s : List Char) (x : Binary64) : Prop :=
  ∃ negative d, Decimal.Spells negative d s ∧ x.Rounds negative (d.digits * 10 ^ d.exponent)

/-- The values of raw text. Blanks around a number do not count. -/
inductive Typed (required : Bool) : String → DefaultValue → Prop
  | star : Typed required "*" (list [])
  | affirmed : Typed required "true" (bool true)
  | denied : Typed required "false" (bool false)
  | absent : required = false → Typed required "" (bool false)
  | number {raw : String} {x : Binary64} :
    Denotes (trim raw.toList) x → Typed required raw (number x)
  | text {raw : String} : raw ∉ ["*", "true", "false"] → (raw = "" → required = true) →
    (∀ x, ¬Denotes (trim raw.toList) x) → Typed required raw (text raw)

theorem finite?_eq_some_iff : finite? s = some x ↔ Denotes s x := by
  rw [finite?, Option.bind_eq_some_iff]
  constructor
  · rintro ⟨⟨negative, d⟩, hread, h⟩
    dsimp only at h
    split at h
    · rename_i hfinite
      obtain rfl := Option.some.inj h
      exact ⟨negative, d, Decimal.read?_eq_some_iff.1 hread, Binary64.rounds_ofDecimal hfinite⟩
    · simp at h
  · rintro ⟨negative, d, hspells, hrounds⟩
    obtain ⟨hvalue, hfinite⟩ := Binary64.rounds_iff.1 hrounds
    refine ⟨(negative, d), Decimal.read?_eq_some_iff.2 hspells, ?_⟩
    dsimp only
    rw [hvalue, if_pos hfinite]

/-- What is typed by its name is not spelled like a number. -/
theorem not_denotes_of_mem (h : raw ∈ ["*", "true", "false", ""]) :
    ¬Denotes (trim raw.toList) x := by
  have hnone : finite? (trim raw.toList) = none := by
    simp only [List.mem_cons, List.not_mem_nil, or_false] at h
    rcases h with rfl | rfl | rfl | rfl <;> decide
  simp [← finite?_eq_some_iff, hnone]

theorem typed_ofText (raw : String) (required : Bool) :
    Typed required raw (ofText raw required) := by
  unfold ofText
  split_ifs with hstar htrue hfalse habsent
  · exact hstar ▸ .star
  · exact htrue ▸ .affirmed
  · exact hfalse ▸ .denied
  · exact habsent.1 ▸ .absent habsent.2
  · split
    · rename_i x hx
      exact .number (finite?_eq_some_iff.1 hx)
    · rename_i hnone
      refine .text (by simp [hstar, htrue, hfalse]) (fun hempty => ?_) fun x hx => ?_
      · simpa using fun hrequired => habsent ⟨hempty, hrequired⟩
      · rw [← finite?_eq_some_iff, hnone] at hx
        simp at hx

theorem ofText_of_typed (h : Typed required raw v) : ofText raw required = v := by
  cases h with
  | star => rfl
  | affirmed => rfl
  | denied => rfl
  | absent hrequired => simp [ofText, hrequired]
  | number hx =>
    have hnamed : raw ∉ ["*", "true", "false", ""] := fun hmem => not_denotes_of_mem hmem hx
    simp only [List.mem_cons, List.not_mem_nil, or_false, not_or] at hnamed
    obtain ⟨hstar, htrue, hfalse, hempty⟩ := hnamed
    simp [ofText, hstar, htrue, hfalse, hempty, finite?_eq_some_iff.2 hx]
  | text hnamed hempty hnumber =>
    simp only [List.mem_cons, List.not_mem_nil, or_false, not_or] at hnamed
    obtain ⟨hstar, htrue, hfalse⟩ := hnamed
    have hnone : finite? (trim raw.toList) = none := by
      rw [Option.eq_none_iff_forall_ne_some]
      exact fun x hx => hnumber x (finite?_eq_some_iff.1 hx)
    have habsent : ¬(raw = "" ∧ required = false) := by
      rintro ⟨hraw, hrequired⟩
      simp [hempty hraw] at hrequired
    simp [ofText, hstar, htrue, hfalse, habsent, hnone]

/-- Each text is typed as one value, which is the one that is computed. -/
theorem typed_iff : Typed required raw v ↔ ofText raw required = v := by
  constructor
  · exact ofText_of_typed
  · rintro rfl
    exact typed_ofText raw required

example : Typed false " -5e-1 " (number ⟨0xBFE0000000000000⟩) := typed_iff.2 (by decide +kernel)

end ConsoleSignature.DefaultValue
