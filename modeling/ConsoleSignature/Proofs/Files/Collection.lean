import ConsoleSignature.Files.Library
import ConsoleSignature.Proofs.Files.Path
import ConsoleSignature.Proofs.Files.Tree
import ConsoleSignature.Proofs.Sequence

/-!
What is collected from inputs: the files that any of them stands for, each path once, in the order
of their components. Neither the order of the inputs nor that of directories matters but for how a
path is spelled.
-/
namespace ConsoleSignature.Library

open ConsoleSignature.Path

variable {t : FileTree} {order order' : ListingOrder} {arrange : List String → List String}
  {inputs inputs' ps qs files : List String} {input p q : String} {fss : List (List String)}

theorem mem_of_mem_distinct (h : p ∈ distinct ps) : p ∈ ps := by
  induction ps with
  | nil => simp [distinct] at h
  | cons q ps ih =>
    rw [distinct] at h
    rcases List.mem_cons.1 h with rfl | h
    · simp
    · exact List.mem_cons_of_mem q (ih (List.mem_of_mem_filter h))

/-- Every path is there in some spelling. -/
theorem exists_mem_distinct (h : p ∈ ps) : ∃ q ∈ distinct ps, components q = components p := by
  induction ps with
  | nil => simp at h
  | cons r ps ih =>
    by_cases hsame : components r = components p
    · exact ⟨r, by simp [distinct], hsame⟩
    · have hmem : p ∈ ps := by
        rcases List.mem_cons.1 h with rfl | h
        · exact absurd rfl hsame
        · exact h
      obtain ⟨q, hq, hqp⟩ := ih hmem
      have hother : (!Path.same r q) = true := by
        rw [Bool.not_eq_true', ← Bool.not_eq_true, same_iff, hqp]
        exact hsame
      exact ⟨q, by simp [distinct, hq, hother], hqp⟩

theorem pairwise_distinct (ps : List String) :
    (distinct ps).Pairwise fun p q => components p ≠ components q := by
  induction ps with
  | nil => simp [distinct]
  | cons p ps ih =>
    rw [distinct, List.pairwise_cons]
    refine ⟨?_, ih.filter _⟩
    intro q hq
    have hother := (List.mem_filter.1 hq).2
    rwa [Bool.not_eq_true', ← Bool.not_eq_true, same_iff] at hother

theorem sorted_eq (ps : List String) :
    sorted ps = (distinct ps).mergeSort fun p q => components p ≤ components q := by
  have hle : (fun p q => !Path.before q p) =
      fun p q => decide (components p ≤ components q) := by
    funext p q
    rw [Bool.eq_iff_iff, Bool.not_eq_true', ← Bool.not_eq_true, before_iff]
    simp
  rw [sorted, hle]

theorem mem_of_mem_sorted (h : p ∈ sorted ps) : p ∈ ps :=
  mem_of_mem_distinct (List.mem_mergeSort.1 h)

theorem pairwise_sorted (ps : List String) :
    (sorted ps).Pairwise fun p q => components p < components q := by
  rw [sorted_eq]
  have hle := pairwise_mergeSort_key components (distinct ps)
  have hperm := List.mergeSort_perm (distinct ps) fun p q => components p ≤ components q
  have hne := (hperm.pairwise_iff fun h => Ne.symm h).2 (pairwise_distinct ps)
  exact (hle.and hne).imp fun h => lt_of_le_of_ne h.1 h.2

theorem mem_components_sorted {c : List Component} :
    c ∈ (sorted ps).map components ↔ c ∈ ps.map components := by
  constructor
  · intro h
    obtain ⟨p, hp, rfl⟩ := List.mem_map.1 h
    exact List.mem_map_of_mem (mem_of_mem_sorted hp)
  · intro h
    obtain ⟨p, hp, rfl⟩ := List.mem_map.1 h
    obtain ⟨q, hq, hqp⟩ := exists_mem_distinct hp
    exact List.mem_map.2 ⟨q, List.mem_mergeSort.2 hq, hqp⟩

/-- Sorting leaves nothing of the order in which paths are met but their spelling. -/
theorem components_sorted_congr (h : ∀ p, p ∈ ps ↔ p ∈ qs) :
    (sorted ps).map components = (sorted qs).map components := by
  apply List.Pairwise.eq_of_mem_iff (r := (· < ·))
  · exact List.pairwise_map.2 (pairwise_sorted ps)
  · exact List.pairwise_map.2 (pairwise_sorted qs)
  · intro c
    rw [mem_components_sorted, mem_components_sorted]
    simp only [List.mem_map, h]

/-- The input stands for this file. -/
inductive Yields (t : FileTree) (input : String) : String → Prop
  | inside {names : List String} {name : String} :
    t.isDirectory input = true → t.list input = .ok names → name ∈ names →
      t.isFile (join input name) = true → holdsDefinitions (join input name) = true →
        Yields t input (join input name)
  | itself :
    t.isDirectory input = false → t.isFile input = true → holdsDefinitions input = true →
      Yields t input input

/-- The input is a directory or a definition file. -/
def Usable (t : FileTree) (input : String) : Prop :=
  t.isDirectory input = true ∨ t.isFile input = true ∧ holdsDefinitions input = true

theorem exists_filesOf_iff : (∃ files, filesOf t arrange input = .ok files) ↔ Usable t input := by
  unfold filesOf Usable
  by_cases hdirectory : t.isDirectory input = true
  · obtain ⟨names, hnames⟩ := FileTree.exists_list_of_isDirectory hdirectory
    simp [hdirectory, hnames]
  · by_cases hfile : t.isFile input = true
    · by_cases hholds : holdsDefinitions input = true <;> simp [hdirectory, hfile, hholds]
    · simp [hdirectory, hfile]

theorem mem_of_filesOf (harrange : ∀ names, (arrange names).Perm names)
    (h : filesOf t arrange input = .ok files) : p ∈ files ↔ Yields t input p := by
  unfold filesOf at h
  by_cases hdirectory : t.isDirectory input = true
  · obtain ⟨names, hnames⟩ := FileTree.exists_list_of_isDirectory hdirectory
    simp only [hdirectory, hnames, if_true, Except.ok.injEq] at h
    subst h
    simp only [List.mem_filter, List.mem_map, (harrange names).mem_iff, Bool.and_eq_true]
    constructor
    · rintro ⟨⟨name, hname, rfl⟩, hfile, hholds⟩
      exact .inside hdirectory hnames hname hfile hholds
    · intro h
      cases h with
      | inside _ hlist hname hfile hholds =>
        rw [hnames] at hlist
        obtain rfl := Except.ok.inj hlist
        exact ⟨⟨_, hname, rfl⟩, hfile, hholds⟩
      | itself hno => simp [hdirectory] at hno
  · by_cases hfile : t.isFile input = true
    · by_cases hholds : holdsDefinitions input = true
      · rw [if_neg hdirectory, if_pos hfile, if_pos hholds] at h
        obtain rfl := Except.ok.inj h
        rw [List.mem_singleton]
        constructor
        · rintro rfl
          exact .itself (by simpa using hdirectory) hfile hholds
        · intro h
          cases h with
          | inside hyes => exact absurd hyes hdirectory
          | itself => rfl
      · simp [hdirectory, hfile, hholds] at h
    · simp [hdirectory, hfile] at h

theorem collectIn_eq (h : inputs ≠ []) : collectIn order t inputs =
    (filesOfEach order t inputs).bind fun fss =>
      if fss.flatten.isEmpty then .error .nothingFound else .ok (sorted fss.flatten) := by
  cases inputs with
  | nil => exact absurd rfl h
  | cons input inputs => rfl

theorem collectIn_eq_ok_iff : collectIn order t inputs = .ok ps ↔
    inputs ≠ [] ∧ ∃ fss, filesOfEach order t inputs = .ok fss ∧
      fss.flatten ≠ [] ∧ ps = sorted fss.flatten := by
  by_cases hinputs : inputs = []
  · subst hinputs
    have hfails : collectIn order t [] = .error .noInputs := rfl
    simp [hfails]
  · rw [collectIn_eq hinputs]
    cases filesOfEach order t inputs with
    | error e => simp [Except.bind]
    | ok fss =>
      simp only [Except.bind, Except.ok.injEq, exists_eq_left']
      split
      · rename_i hnone
        simp [List.isEmpty_iff.1 hnone]
      · rename_i hsome
        rw [Bool.not_eq_true, List.isEmpty_eq_false_iff] at hsome
        simp only [Except.ok.injEq, ne_eq, hinputs, hsome, not_false_eq_true, true_and]
        exact eq_comm

theorem mem_filesOfEach (h : filesOfEach order t inputs = .ok fss) :
    p ∈ fss.flatten ↔ ∃ input ∈ inputs, Yields t input p := by
  have hmem : ∀ (x : String × Nat) (files : List String),
      filesOf t (order.arrange x.2) x.1 = .ok files → (p ∈ files ↔ Yields t x.1 p) := by
    intro x files hx
    exact mem_of_filesOf (order.perm x.2) hx
  rw [mem_flatten_forall₂ (mapM_eq_ok_iff.1 h) hmem]
  exact exists_mem_zipIdx_iff (Q := fun input => Yields t input p)

theorem exists_filesOfEach_iff :
    (∃ fss, filesOfEach order t inputs = .ok fss) ↔ ∀ input ∈ inputs, Usable t input := by
  rw [filesOfEach, exists_mapM_iff]
  simp only [exists_filesOf_iff]
  exact forall_mem_zipIdx_iff (Q := Usable t)

/-- Collecting gives the files that some input stands for. -/
theorem exists_of_collectIn (h : collectIn order t inputs = .ok ps) :
    ∃ files, ps = sorted files ∧ ∀ p, p ∈ files ↔ ∃ input ∈ inputs, Yields t input p := by
  obtain ⟨-, fss, hfss, -, rfl⟩ := collectIn_eq_ok_iff.1 h
  exact ⟨fss.flatten, rfl, fun p => mem_filesOfEach hfss⟩

/-- Collecting fails where there is no input, where one is no good or where none stands for a file.
-/
theorem exists_collectIn_iff : (∃ ps, collectIn order t inputs = .ok ps) ↔
    inputs ≠ [] ∧ (∀ input ∈ inputs, Usable t input) ∧
      ∃ input ∈ inputs, ∃ p, Yields t input p := by
  constructor
  · rintro ⟨ps, hps⟩
    obtain ⟨hinputs, fss, hfss, hsome, -⟩ := collectIn_eq_ok_iff.1 hps
    refine ⟨hinputs, exists_filesOfEach_iff.1 ⟨fss, hfss⟩, ?_⟩
    obtain ⟨p, hp⟩ := List.exists_mem_of_ne_nil _ hsome
    obtain ⟨input, hinput, hyields⟩ := (mem_filesOfEach hfss).1 hp
    exact ⟨input, hinput, p, hyields⟩
  · rintro ⟨hinputs, hall, input, hinput, p, hyields⟩
    obtain ⟨fss, hfss⟩ := exists_filesOfEach_iff.2 hall
    have hp : p ∈ fss.flatten := (mem_filesOfEach hfss).2 ⟨input, hinput, hyields⟩
    exact ⟨_, collectIn_eq_ok_iff.2 ⟨hinputs, fss, hfss, List.ne_nil_of_mem hp, rfl⟩⟩

theorem isFile_of_yields (h : Yields t input p) : t.isFile p = true := by
  cases h with
  | inside _ _ _ hfile => exact hfile
  | itself _ hfile => exact hfile

theorem isFile_of_mem_collectIn (h : collectIn order t inputs = .ok ps) (hp : p ∈ ps) :
    t.isFile p = true := by
  obtain ⟨files, rfl, hfiles⟩ := exists_of_collectIn h
  obtain ⟨input, -, hyields⟩ := (hfiles p).1 (mem_of_mem_sorted hp)
  exact isFile_of_yields hyields

theorem components_collectIn_congr (hinputs : ∀ input, input ∈ inputs ↔ input ∈ inputs')
    (h : collectIn order t inputs = .ok ps) (h' : collectIn order' t inputs' = .ok qs) :
    ps.map components = qs.map components := by
  obtain ⟨files, rfl, hfiles⟩ := exists_of_collectIn h
  obtain ⟨files', rfl, hfiles'⟩ := exists_of_collectIn h'
  apply components_sorted_congr
  intro p
  rw [hfiles, hfiles']
  simp only [hinputs]

end ConsoleSignature.Library
