import Mathlib.Data.List.Basic
import ConsoleSignature.Files.Tree

/-!
What a path leads to. As far as it can be followed, it leads where its components lead, so that two
spellings of one path never lead to different files.
-/
namespace ConsoleSignature.FileTree

open ConsoleSignature.Path

variable {t : FileTree} {l m : Location} {i : Item} {p q : String} {ps : List String}

/-- Where a component leads from a location. -/
def advance (l : Location) : Component → Location
  | .root => ["/"]
  | .current => l
  | .parent => up l
  | .named name => l ++ [name]

/-- Where components lead from the tree's own directory. -/
def place (cs : List Component) : Location := cs.foldl advance []

theorem eq_of_walk (h : t.walk l ps = .ok m) : m = ps.foldl enter l := by
  induction ps generalizing l with
  | nil => simpa [walk, eq_comm] using h
  | cons p ps ih =>
    simp only [walk] at h
    split at h
    · simp at h
    · simp at h
    · split at h
      · simp at h
      · exact ih h

/-- Parts that are no components lead nowhere. -/
theorem foldl_enter (l : Location) (ps : List String) :
    ps.foldl enter l =
      ((ps.filter fun p => p != "" && p != ".").map componentOf).foldl advance l := by
  induction ps generalizing l with
  | nil => rfl
  | cons p ps ih =>
    by_cases hempty : p = "" ∨ p = "."
    · have hdropped : (p != "" && p != ".") = false := by
        rcases hempty with rfl | rfl <;> rfl
      rw [List.foldl_cons, List.filter_cons_of_neg (by simp [hdropped]), ih]
      simp [enter, hempty]
    · have hkept : (p != "" && p != ".") = true := by simpa using hempty
      have hstep : enter l p = advance l (componentOf p) := by
        by_cases hparent : p = ".."
        · simp [enter, componentOf, advance, hparent]
        · simp [enter, hempty, componentOf, advance, hparent]
      simp only [List.filter_cons, hkept, if_true, List.map_cons, List.foldl_cons, hstep, ih]

theorem eq_place_of_locate (h : t.locate p = .ok m) : m = place (components p) := by
  simp only [locate, follow] at h
  split at h
  · simp at h
  · split at h
    · simp at h
    · split at h
      · simp at h
      · have hwalk := eq_of_walk h
        rw [foldl_enter] at hwalk
        rw [hwalk, place, components, List.foldl_append]
        split
        · rfl
        · split <;> rfl

theorem found_of_find (h : t.find p = .ok (l, i)) : t.locate p = .ok l ∧ t.item? l = some i := by
  unfold find at h
  cases hlocate : t.locate p with
  | error e => simp [hlocate, bind, Except.bind] at h
  | ok m =>
    simp only [hlocate, bind, Except.bind] at h
    split at h
    · rename_i j hj
      obtain ⟨rfl, rfl⟩ := Prod.mk.inj (Except.ok.inj h)
      exact ⟨rfl, hj⟩
    · simp at h

theorem find_congr {x y : Location × Item} (h : components p = components q)
    (hp : t.find p = .ok x) (hq : t.find q = .ok y) : x = y := by
  obtain ⟨l, i⟩ := x
  obtain ⟨m, j⟩ := y
  obtain ⟨hl, hi⟩ := found_of_find hp
  obtain ⟨hm, hj⟩ := found_of_find hq
  obtain rfl : l = m := by rw [eq_place_of_locate hl, eq_place_of_locate hm, h]
  rw [hi] at hj
  rw [Option.some.inj hj]

theorem isFile_iff : t.isFile p = true ↔ ∃ l content, t.find p = .ok (l, .file content) := by
  unfold isFile
  split <;> simp_all

theorem isDirectory_iff : t.isDirectory p = true ↔ ∃ l, t.find p = .ok (l, .directory) := by
  unfold isDirectory
  split <;> simp_all

theorem isDirectory_of_isFile (h : t.isFile p = true) : t.isDirectory p = false := by
  obtain ⟨l, content, hfind⟩ := isFile_iff.1 h
  simp [isDirectory, hfind]

theorem readText_congr (h : components p = components q) (hp : t.isFile p = true)
    (hq : t.isFile q = true) : t.readText p = t.readText q := by
  obtain ⟨l, content, hp⟩ := isFile_iff.1 hp
  obtain ⟨m, content', hq⟩ := isFile_iff.1 hq
  obtain ⟨-, hcontent⟩ := Prod.mk.inj (find_congr h hp hq)
  obtain rfl := Item.file.inj hcontent
  simp [readText, read, hp, hq, bind, Except.bind]

theorem exists_list_of_isDirectory (h : t.isDirectory p = true) :
    ∃ names, t.list p = .ok names := by
  obtain ⟨l, hl⟩ := isDirectory_iff.1 h
  exact ⟨t.children l, by simp [list, hl, bind, Except.bind, pure, Except.pure]⟩

theorem isDirectory_of_list {names : List String} (h : t.list p = .ok names) :
    t.isDirectory p = true := by
  unfold list at h
  cases hfind : t.find p with
  | error e => simp [hfind, bind, Except.bind] at h
  | ok x =>
    obtain ⟨l, i⟩ := x
    cases i with
    | file content => simp [hfind, bind, Except.bind, throw, throwThe, MonadExceptOf.throw] at h
    | directory => exact isDirectory_iff.2 ⟨l, hfind⟩

end ConsoleSignature.FileTree
