import ConsoleSignature.Proofs.DefaultValue
import ConsoleSignature.Proofs.Entry.Canonical.Name
import ConsoleSignature.Proofs.Text.Pieces

/-!
The default of an entry as a relation to what is written behind the equals sign. A repeated entry
has a list, a flag a typed value and an argument the text itself, in blocks and in their trees.
-/
namespace ConsoleSignature

open Text

namespace Entry

variable {isFlag multiple : Bool} {raw : List Char} {v : DefaultValue}

inductive MeansDefault (isFlag : Bool) : Bool → List Char → DefaultValue → Prop
  | star : MeansDefault isFlag true ['*'] (.list [])
  | list {raw : List Char} {ps : List (List Char)} : raw ≠ ['*'] → FallsInto ',' raw ps →
    MeansDefault isFlag true raw (.list (ps.map String.ofList))
  | flag {raw : List Char} {v : DefaultValue} : isFlag →
    DefaultValue.Typed false (String.ofList raw) v → MeansDefault isFlag false raw v
  | argument {raw : List Char} : isFlag = false →
    MeansDefault isFlag false raw (.text (String.ofList raw))

theorem meansDefault_defaultOf (isFlag multiple : Bool) (raw : List Char) :
    MeansDefault isFlag multiple raw (Naming.defaultOf isFlag multiple raw) := by
  unfold Naming.defaultOf
  cases multiple with
  | true =>
    by_cases hstar : raw = ['*']
    · subst hstar
      exact .star
    · rw [if_pos rfl, if_neg hstar, DefaultValue.asList, String.toList_ofList]
      exact .list hstar (fallsInto_pieces ',' raw)
  | false =>
    cases isFlag with
    | true => exact .flag rfl (DefaultValue.typed_ofText _ _)
    | false => exact .argument rfl

theorem meansDefault_iff :
    MeansDefault isFlag multiple raw v ↔ Naming.defaultOf isFlag multiple raw = v := by
  constructor
  · intro h
    cases h with
    | star => rfl
    | list hstar hparts =>
      obtain rfl := fallsInto_iff.1 hparts
      rw [Naming.defaultOf, if_pos rfl, if_neg hstar, DefaultValue.asList, String.toList_ofList]
      rfl
    | flag hflag htyped =>
      rw [Naming.defaultOf, if_neg (by simp), if_pos hflag]
      exact DefaultValue.typed_iff.1 htyped
    | argument hflag =>
      rw [Naming.defaultOf, if_neg (by simp), if_neg (by simp [hflag])]
  · rintro rfl
    exact meansDefault_defaultOf isFlag multiple raw

end Entry

/-- The default that a written entry stands for is what the text behind the equals sign means. -/
theorem Canonical.Leaf.defaultValue_eq_some_iff {l : Leaf} {v : DefaultValue} :
    l.defaultValue = some v ↔ ∃ x, l.value = some x ∧
      Entry.MeansDefault l.name.isFlags l.modifier.isRepeated x.chars v := by
  rw [defaultValue_eq, Option.map_eq_some_iff]
  simp only [Entry.meansDefault_iff]

end ConsoleSignature
