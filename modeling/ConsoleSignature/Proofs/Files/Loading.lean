import ConsoleSignature.Proofs.Files.Collection

/-!
Loading definitions. What a file holds does not depend on how its path is spelled, but for the
source that is filled in.
-/
namespace ConsoleSignature

/-- The definition but for its source. -/
def Definition.bare (d : Definition) : Definition := { d with source := none }

namespace Library

open ConsoleSignature.Path

variable {t : FileTree} {p q : String} {ps qs : List String}

theorem kindOf?_congr (h : components p = components q) : kindOf? p = kindOf? q := by
  simp only [kindOf?, extension?_congr h]

theorem bare_fillSource (source : String) (ds : List Definition) :
    (ds.map (Definition.fillSource source)).map Definition.bare = ds.map Definition.bare := by
  rw [List.map_map]
  rfl

theorem loadFile_congr (h : components p = components q) (hp : t.isFile p = true)
    (hq : t.isFile q = true) :
    (loadFile t p).map (List.map Definition.bare) =
      (loadFile t q).map (List.map Definition.bare) := by
  unfold loadFile
  rw [FileTree.readText_congr h hp hq, kindOf?_congr h]
  cases t.readText q with
  | error e => rfl
  | ok text =>
    simp only [Except.mapError, bind, Except.bind]
    cases decode (kindOf? q) text with
    | error e => rfl
    | ok ds => simp only [pure, Except.pure, Except.map, bare_fillSource]

theorem bare_load (t : FileTree) (ps : List String) :
    (load t ps).map (List.map Definition.bare) =
      (ps.mapM fun p => (loadFile t p).map (List.map Definition.bare)).map List.flatten := by
  rw [← map_mapM]
  unfold load
  cases ps.mapM (loadFile t) with
  | error e => rfl
  | ok fss => simp [bind, Except.bind, pure, Except.pure, Except.map, List.map_flatten]

theorem load_congr (h : ps.map components = qs.map components) (hps : ∀ p ∈ ps, t.isFile p = true)
    (hqs : ∀ q ∈ qs, t.isFile q = true) :
    (load t ps).map (List.map Definition.bare) = (load t qs).map (List.map Definition.bare) := by
  rw [bare_load, bare_load]
  congr 1
  apply mapM_congr_forall₂
  apply (forall₂_of_map_eq h hps hqs).imp
  rintro p q ⟨hpq, hp, hq⟩
  exact loadFile_congr hpq hp hq

end Library

end ConsoleSignature
