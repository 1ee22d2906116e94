import Mathlib.Tactic.SplitIfs
import ConsoleSignature.Proofs.Files.Collection

/-!
Collecting is exact. What is found are the definition files that are named or lie directly in a
named directory, each once and in order; and where nothing is found it is said which input is at
fault, if one is.
-/
namespace ConsoleSignature.Library

open ConsoleSignature.Path

variable {t : FileTree} {order : ListingOrder} {arrange : List String → List String}
  {inputs : List String} {fss : List (List String)} {input p : String} {e : LibraryError}

/-- The extensions of the files that hold definitions. -/
def extensions : List String := ["sig", "signature", "yml", "yaml", "json"]

structure IsDefinitionFile (t : FileTree) (p : String) : Prop where
  isFile : t.isFile p = true
  extension : ∃ x ∈ extensions, extension? p = some x

/-- The path is an input itself, or that of something that lies directly in one. -/
inductive Reached (t : FileTree) (inputs : List String) : String → Prop
  | itself {input : String} : input ∈ inputs → Reached t inputs input
  | inside {directory name : String} {names : List String} :
    directory ∈ inputs → t.list directory = .ok names → name ∈ names →
      Reached t inputs (join directory name)

/-- The definition files that the inputs name or directly hold. -/
def Wanted (t : FileTree) (inputs : List String) (p : String) : Prop :=
  Reached t inputs p ∧ IsDefinitionFile t p

/-- An input that cannot be used: it is a file with another extension, or nothing is there. -/
inductive Refused (t : FileTree) (input : String) : LibraryError → Prop
  | unsuitable : t.isFile input = true → ¬IsDefinitionFile t input →
    Refused t input (.unsuitable input)
  | missing : t.isDirectory input = false → t.isFile input = false →
    Refused t input (.missing input)

/-- Why nothing is collected. The first input that cannot be used is at fault, whatever comes after
it. -/
inductive Fault (t : FileTree) (inputs : List String) : LibraryError → Prop
  | noInputs : inputs = [] → Fault t inputs .noInputs
  | refused {before after : List String} {input : String} {e : LibraryError} :
    inputs = before ++ input :: after →
      (∀ i ∈ before, t.isDirectory i = true ∨ IsDefinitionFile t i) → Refused t input e →
        Fault t inputs e
  | nothingFound :
    inputs ≠ [] → (∀ i ∈ inputs, t.isDirectory i = true ∨ IsDefinitionFile t i) →
      (¬∃ p, Wanted t inputs p) → Fault t inputs .nothingFound

theorem holdsDefinitions_iff :
    holdsDefinitions p = true ↔ ∃ x ∈ extensions, extension? p = some x := by
  unfold holdsDefinitions kindOf? extensions
  cases extension? p with
  | none => simp
  | some x =>
    simp only [Option.some.injEq, exists_eq_right', List.mem_cons, List.not_mem_nil, or_false]
    split_ifs <;> grind

theorem isDefinitionFile_iff :
    IsDefinitionFile t p ↔ t.isFile p = true ∧ holdsDefinitions p = true := by
  rw [holdsDefinitions_iff]
  exact ⟨fun h => ⟨h.isFile, h.extension⟩, fun h => ⟨h.1, h.2⟩⟩

theorem usable_iff : Usable t input ↔ t.isDirectory input = true ∨ IsDefinitionFile t input := by
  rw [Usable, isDefinitionFile_iff]

theorem wanted_iff : Wanted t inputs p ↔ ∃ input ∈ inputs, Yields t input p := by
  constructor
  · rintro ⟨hreached, hfile⟩
    obtain ⟨hisFile, hholds⟩ := isDefinitionFile_iff.1 hfile
    cases hreached with
    | itself hinput =>
      exact ⟨p, hinput, .itself (FileTree.isDirectory_of_isFile hisFile) hisFile hholds⟩
    | inside hinput hlist hname =>
      exact ⟨_, hinput, .inside (FileTree.isDirectory_of_list hlist) hlist hname hisFile hholds⟩
  · rintro ⟨input, hinput, hyields⟩
    cases hyields with
    | inside _ hlist hname hisFile hholds =>
      exact ⟨.inside hinput hlist hname, isDefinitionFile_iff.2 ⟨hisFile, hholds⟩⟩
    | itself _ hisFile hholds => exact ⟨.itself hinput, isDefinitionFile_iff.2 ⟨hisFile, hholds⟩⟩

theorem exists_wanted_iff :
    (∃ p, Wanted t inputs p) ↔ ∃ input ∈ inputs, ∃ p, Yields t input p := by
  simp only [wanted_iff]
  constructor
  · rintro ⟨p, input, hinput, hyields⟩
    exact ⟨input, hinput, p, hyields⟩
  · rintro ⟨input, hinput, p, hyields⟩
    exact ⟨p, input, hinput, hyields⟩

theorem filesOf_eq_error_iff : filesOf t arrange input = .error e ↔ Refused t input e := by
  unfold filesOf
  by_cases hdirectory : t.isDirectory input = true
  · obtain ⟨names, hnames⟩ := FileTree.exists_list_of_isDirectory hdirectory
    simp only [hdirectory, hnames, if_true, reduceCtorEq, false_iff]
    intro h
    cases h with
    | unsuitable hfile => simp [FileTree.isDirectory_of_isFile hfile] at hdirectory
    | missing hnone => simp [hdirectory] at hnone
  · rw [if_neg hdirectory]
    by_cases hfile : t.isFile input = true
    · rw [if_pos hfile]
      by_cases hholds : holdsDefinitions input = true
      · simp only [hholds, if_true, reduceCtorEq, false_iff]
        intro h
        cases h with
        | unsuitable _ hother => exact hother (isDefinitionFile_iff.2 ⟨hfile, hholds⟩)
        | missing _ hnone => simp [hfile] at hnone
      · rw [if_neg hholds, Except.error.injEq]
        constructor
        · rintro rfl
          exact .unsuitable hfile fun h => hholds (isDefinitionFile_iff.1 h).2
        · intro h
          cases h with
          | unsuitable => rfl
          | missing _ hnone => simp [hfile] at hnone
    · rw [if_neg hfile, Except.error.injEq]
      constructor
      · rintro rfl
        exact .missing (by simpa using hdirectory) (by simpa using hfile)
      · intro h
        cases h with
        | unsuitable hyes => exact absurd hyes hfile
        | missing => rfl

/-- The first input that cannot be used decides. -/
theorem filesOfEach_eq_error_iff : filesOfEach order t inputs = .error e ↔
    ∃ before input after, inputs = before ++ input :: after ∧ (∀ i ∈ before, Usable t i) ∧
      Refused t input e := by
  rw [filesOfEach, mapM_eq_error_iff]
  simp only [exists_filesOf_iff, filesOf_eq_error_iff]
  exact exists_split_zipIdx_iff (Q := Usable t) (R := (Refused t · e))

theorem flatten_eq_nil_iff (h : filesOfEach order t inputs = .ok fss) :
    fss.flatten = [] ↔ ¬∃ p, Wanted t inputs p := by
  rw [List.eq_nil_iff_forall_not_mem, not_exists]
  simp only [mem_filesOfEach h, wanted_iff]

theorem collectIn_eq_error_iff : collectIn order t inputs = .error e ↔
    inputs = [] ∧ e = .noInputs ∨ inputs ≠ [] ∧ (filesOfEach order t inputs = .error e ∨
      ∃ fss, filesOfEach order t inputs = .ok fss ∧ fss.flatten = [] ∧ e = .nothingFound) := by
  by_cases hinputs : inputs = []
  · subst hinputs
    have hfails : collectIn order t [] = .error .noInputs := rfl
    simp [hfails, eq_comm]
  · rw [collectIn_eq hinputs]
    cases filesOfEach order t inputs with
    | error e' => simp [Except.bind, hinputs]
    | ok fss =>
      simp only [Except.bind, hinputs, reduceCtorEq, Except.ok.injEq, exists_eq_left', ne_eq,
        not_false_eq_true, true_and, false_and, false_or]
      split
      · rename_i hnone
        simp [List.isEmpty_iff.1 hnone, eq_comm]
      · rename_i hsome
        rw [List.isEmpty_iff] at hsome
        simp [hsome]

theorem collectIn_eq_error_iff_fault :
    collectIn order t inputs = .error e ↔ Fault t inputs e := by
  rw [collectIn_eq_error_iff]
  constructor
  · rintro (⟨hnil, rfl⟩ | ⟨hne, herror | ⟨fss, hfss, hnone, rfl⟩⟩)
    · exact .noInputs hnil
    · obtain ⟨before, input, after, hsplit, hbefore, hrefused⟩ := filesOfEach_eq_error_iff.1 herror
      exact .refused hsplit (fun i hi => usable_iff.1 (hbefore i hi)) hrefused
    · have hall := exists_filesOfEach_iff.1 ⟨fss, hfss⟩
      exact .nothingFound hne (fun i hi => usable_iff.1 (hall i hi))
        ((flatten_eq_nil_iff hfss).1 hnone)
  · intro h
    cases h with
    | noInputs hnil => exact .inl ⟨hnil, rfl⟩
    | refused hsplit hbefore hrefused =>
      have herror : filesOfEach order t inputs = .error e := filesOfEach_eq_error_iff.2
        ⟨_, _, _, hsplit, fun i hi => usable_iff.2 (hbefore i hi), hrefused⟩
      exact .inr ⟨by simp [hsplit], .inl herror⟩
    | nothingFound hne hall hnone =>
      obtain ⟨fss, hfss⟩ : ∃ fss, filesOfEach order t inputs = .ok fss :=
        exists_filesOfEach_iff.2 fun i hi => usable_iff.2 (hall i hi)
      exact .inr ⟨hne, .inr ⟨fss, hfss, (flatten_eq_nil_iff hfss).2 hnone, rfl⟩⟩

/-- Whether paths are collected, which they are and why not are all settled by what the inputs name
and directly hold, in whatever order directories are listed. -/
theorem collectIn_exact (order : ListingOrder) (t : FileTree) (inputs : List String) :
    ((∃ ps, collectIn order t inputs = .ok ps) ↔
      inputs ≠ [] ∧ (∀ input ∈ inputs, t.isDirectory input = true ∨ IsDefinitionFile t input) ∧
        ∃ p, Wanted t inputs p) ∧
    (∀ ps, collectIn order t inputs = .ok ps →
      ps.Pairwise (fun p q => components p < components q) ∧
      (∀ p ∈ ps, Wanted t inputs p) ∧
      ∀ p, Wanted t inputs p → ∃ q ∈ ps, components q = components p) ∧
    ∀ e, collectIn order t inputs = .error e ↔ Fault t inputs e := by
  refine ⟨?succeeds, ?finds, fun e => collectIn_eq_error_iff_fault⟩
  case succeeds => simp only [exists_collectIn_iff, usable_iff, exists_wanted_iff]
  case finds =>
    intro ps h
    obtain ⟨files, rfl, hfiles⟩ := exists_of_collectIn h
    refine ⟨pairwise_sorted files, ?_, ?_⟩
    · intro p hp
      exact wanted_iff.2 ((hfiles p).1 (mem_of_mem_sorted hp))
    · intro p hp
      have hmem : p ∈ files := (hfiles p).2 (wanted_iff.1 hp)
      exact List.mem_map.1 (mem_components_sorted.2 (List.mem_map_of_mem hmem))

end ConsoleSignature.Library
