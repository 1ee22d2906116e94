import Mathlib.Data.Prod.Lex
import Mathlib.Data.List.Lex
import Mathlib.Data.String.Basic
import ConsoleSignature.Files.Path

/-!
The order of paths is the order of their components, which is linear; and what a path says about a
file depends on its components alone, however it is spelled.
-/
namespace ConsoleSignature.Path

variable {p q : String} {a b : Component} {as bs : List Component}

namespace Component

/-- What the order of components goes by. -/
def key : Component → Nat ×ₗ String
  | named name => toLex (3, name)
  | c => toLex (c.rank, "")

theorem key_injective : Function.Injective key := by
  intro a b h
  cases a <;> cases b <;> simp_all [key, rank]

instance : LinearOrder Component := LinearOrder.lift' key key_injective

theorem lt_iff_key : a < b ↔ key a < key b := Iff.rfl

theorem before_iff : a.before b = true ↔ a < b := by
  rw [lt_iff_key]
  cases a <;> cases b <;> simp [before, key, rank, Prod.Lex.lt_iff]

end Component

theorem componentsBefore_iff : componentsBefore as bs = true ↔ as < bs := by
  induction as generalizing bs with
  | nil => cases bs <;> simp [componentsBefore]
  | cons a as ih =>
    cases bs with
    | nil => simp [componentsBefore]
    | cons b bs => simp [componentsBefore, Component.before_iff, ih, List.cons_lt_cons_iff]

theorem before_iff : before p q = true ↔ components p < components q := componentsBefore_iff

theorem same_iff : same p q = true ↔ components p = components q := by simp [same]

theorem pieces_append_slash (p q : String) : pieces (p ++ "/" ++ q) = pieces p ++ pieces q := by
  simp [pieces, List.splitOn_append_cons_self]

/-- The components behind a slash. -/
def inner (p : String) : List Component :=
  ((pieces p).filter fun piece => piece != "" && piece != ".").map componentOf

theorem inner_append_slash (p q : String) : inner (p ++ "/" ++ q) = inner p ++ inner q := by
  simp only [inner, pieces_append_slash, List.filter_append, List.map_append]

theorem components_append_slash (h : p ≠ "") (q : String) :
    components (p ++ "/" ++ q) = components p ++ inner q := by
  have hchars : p.toList ≠ [] := by simpa using h
  have habsolute : isAbsolute (p ++ "/" ++ q) = isAbsolute p := by
    rw [isAbsolute, isAbsolute, String.toList_append, String.toList_append, List.append_assoc,
      List.head?_append_of_ne_nil _ hchars]
  have hne : pieces p ≠ [] := by simp [pieces, List.splitOn_ne_nil]
  have hhead : (pieces p ++ pieces q).head? = (pieces p).head? :=
    List.head?_append_of_ne_nil _ hne
  simp only [components, habsolute, pieces_append_slash, hhead, List.filter_append,
    List.map_append, List.append_assoc]
  rfl

/-- Repeated slashes and dots between slashes make no difference, nor do they at the end. -/
theorem components_respelled (h : p ≠ "") (q : String) :
    components (p ++ "//" ++ q) = components (p ++ "/" ++ q) ∧
      components (p ++ "/./" ++ q) = components (p ++ "/" ++ q) ∧
      components (p ++ "/") = components p ∧ components (p ++ "/.") = components p := by
  have hbetween (r : String) (hr : inner r = []) :
      components (p ++ ("/" ++ r ++ "/") ++ q) = components (p ++ "/" ++ q) := by
    have hassoc : p ++ ("/" ++ r ++ "/") ++ q = p ++ "/" ++ (r ++ "/" ++ q) := by
      simp only [String.append_assoc]
    rw [hassoc, components_append_slash h, inner_append_slash, hr, components_append_slash h]
    rfl
  have hend (r : String) (hr : inner r = []) : components (p ++ ("/" ++ r)) = components p := by
    rw [← String.append_assoc, components_append_slash h, hr, List.append_nil]
  have hempty : inner "" = [] := by decide
  have hdot : inner "." = [] := by decide
  exact ⟨hbetween "" hempty, hbetween "." hdot, hend "" hempty, hend "." hdot⟩

example : components "./a//b/./c/" = [.current, .named "a", .named "b", .named "c"] := by
  decide +kernel

theorem extension?_congr (h : components p = components q) : extension? p = extension? q := by
  simp only [extension?, fileName?, h]

end ConsoleSignature.Path
