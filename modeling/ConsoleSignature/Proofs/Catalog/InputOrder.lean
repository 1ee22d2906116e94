import ConsoleSignature.Catalog
import ConsoleSignature.Proofs.Files.Loading

/-!
A catalog of what is found in a file tree depends neither on the order of the inputs nor on that in
which directories give their names.
-/
namespace ConsoleSignature.Catalog

open Library

variable {ds ds' : List Definition} {inputs inputs' : List String}

theorem compileAll_bare (ds : List Definition) :
    compileAll (ds.map Definition.bare) = compileAll ds := by
  rw [compileAll, compileAll, List.zipIdx_map, List.map_map]
  rfl

theorem compileAll_congr (h : ds.map Definition.bare = ds'.map Definition.bare) :
    compileAll ds = compileAll ds' := by
  rw [← compileAll_bare ds, h, compileAll_bare]

/-- Whatever the order of inputs and of names in directories, definition files are found or not;
where they are, loading them fails with the same error or gives definitions of the same catalog. -/
theorem build_of_perm (t : FileTree) (config : Config) (order order' : ListingOrder)
    (h : inputs.Perm inputs') :
    ((∃ paths, collectIn order t inputs = .ok paths) ↔
      ∃ paths, collectIn order' t inputs' = .ok paths) ∧
    ∀ paths paths', collectIn order t inputs = .ok paths → collectIn order' t inputs' = .ok paths' →
      (∀ e, load t paths = .error e ↔ load t paths' = .error e) ∧
      ∀ ds ds', load t paths = .ok ds → load t paths' = .ok ds' → ∀ now now',
        let catalog := build ds config now
        let catalog' := build ds' config now'
        catalog.skipped = catalog'.skipped ∧ catalog.commands = catalog'.commands ∧
          catalog.plan = catalog'.plan := by
  constructor
  · have hnil : inputs = [] ↔ inputs' = [] := by
      constructor
      · rintro rfl
        exact h.nil_eq.symm
      · rintro rfl
        exact h.eq_nil
    rw [exists_collectIn_iff, exists_collectIn_iff]
    simp only [ne_eq, hnil, h.mem_iff]
  · intro paths paths' hpaths hpaths'
    have hcomponents := components_collectIn_congr (fun input => h.mem_iff) hpaths hpaths'
    have hload := load_congr hcomponents (fun p => isFile_of_mem_collectIn hpaths)
      (fun p => isFile_of_mem_collectIn hpaths')
    constructor
    · intro e
      cases hds : load t paths <;> cases hds' : load t paths' <;>
        simp_all [Except.map]
    · intro ds ds' hds hds' now now'
      have hbare : ds.map Definition.bare = ds'.map Definition.bare := by
        simpa [hds, hds', Except.map] using hload
      have hcompiled := compileAll_congr hbare
      simp [build, ofCompiled, plan, hcompiled]

theorem build_of_perm_commands :
    let t : FileTree := ⟨[(["commands"], .directory),
      (["commands", "greet.sig"], .file "greet\n\x7bname\x7d".toUTF8),
      (["commands", "notes.txt"], .file "notes".toUTF8), (["run.sig"], .file "run".toUTF8)]⟩
    let inputs := ["commands", "run.sig", "commands//greet.sig"]
    let inputs' := ["commands//greet.sig", "run.sig", "commands"]
    let backwards : ListingOrder := ⟨fun _ names => names.reverse, fun _ => List.reverse_perm⟩
    let ds : List Definition := [⟨"greet\n\x7bname\x7d", none, some "commands/greet.sig"⟩,
      ⟨"run", none, some "run.sig"⟩]
    let ds' : List Definition := [⟨"greet\n\x7bname\x7d", none, some "commands//greet.sig"⟩,
      ⟨"run", none, some "run.sig"⟩]
    inputs.Perm inputs' ∧
    (∃ paths, collectIn .kept t inputs = .ok paths ∧ load t paths = .ok ds) ∧
    (∃ paths, collectIn backwards t inputs' = .ok paths ∧ load t paths = .ok ds') ∧
    (build ds .standard "now").skipped = (build ds' .standard "then").skipped ∧
    (build ds .standard "now").commands = (build ds' .standard "then").commands ∧
    (build ds .standard "now").plan = (build ds' .standard "then").plan := by
  intro t inputs inputs' backwards ds ds'
  have hperm : inputs.Perm inputs' := by decide
  have hpaths : collectIn .kept t inputs = .ok ["commands/greet.sig", "run.sig"] := by
    rw [collectIn_eq_ok_iff]
    refine ⟨by simp [inputs], [["commands/greet.sig"], ["run.sig"], ["commands//greet.sig"]],
      by decide +kernel, by simp, ?_⟩
    have hdistinct :
        distinct (List.flatten [["commands/greet.sig"], ["run.sig"], ["commands//greet.sig"]]) =
          ["commands/greet.sig", "run.sig"] := by
      decide +kernel
    rw [sorted, hdistinct]
    exact (List.mergeSort_of_pairwise (by decide +kernel)).symm
  have hpaths' : collectIn backwards t inputs' = .ok ["commands//greet.sig", "run.sig"] := by
    rw [collectIn_eq_ok_iff]
    refine ⟨by simp [inputs'], [["commands//greet.sig"], ["run.sig"], ["commands/greet.sig"]],
      by decide +kernel, by simp, ?_⟩
    have hdistinct :
        distinct (List.flatten [["commands//greet.sig"], ["run.sig"], ["commands/greet.sig"]]) =
          ["commands//greet.sig", "run.sig"] := by
      decide +kernel
    rw [sorted, hdistinct]
    exact (List.mergeSort_of_pairwise (by decide +kernel)).symm
  have hds : load t ["commands/greet.sig", "run.sig"] = .ok ds := by decide +kernel
  have hds' : load t ["commands//greet.sig", "run.sig"] = .ok ds' := by decide +kernel
  obtain ⟨-, hsame⟩ := build_of_perm t .standard .kept backwards hperm
  exact ⟨hperm, ⟨_, hpaths, hds⟩, ⟨_, hpaths', hds'⟩,
    (hsame _ _ hpaths hpaths').2 ds ds' hds hds' "now" "then"⟩

end ConsoleSignature.Catalog
