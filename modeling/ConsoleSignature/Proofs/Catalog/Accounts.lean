import Mathlib.Data.String.Basic
import ConsoleSignature.Catalog
import ConsoleSignature.Proofs.Sequence

/-!
A catalog accounts for each definition once: as a command, or by its name among those left out. The
commands are sorted by name, and where names are equal they stay in the order of the definitions,
however many workers compile them.
-/
namespace ConsoleSignature.Catalog

open scoped List

variable {config : Config} {ds : List Definition} {d : Definition} {i : Nat}

/-- What a configuration leaves out. -/
def LeftOut (config : Config) (c : Command) : Prop :=
  c.base ∈ config.exclude ∨
    (c.hidden = true ∧ c.isNamespace = false ∧ config.includeHidden = false)

instance (config : Config) : DecidablePred (LeftOut config) :=
  fun _ => inferInstanceAs (Decidable (_ ∨ _))

theorem leavesOut_eq (config : Config) :
    leavesOut config = fun c => decide (LeftOut config c) := by
  funext c
  rw [Bool.eq_iff_iff, decide_eq_true_iff]
  simp [leavesOut, LeftOut, Config.excludes, and_assoc]

/-- The catalog holds every compiled definition once, in order. -/
structure Accounts (catalog : Catalog) (ds : List Definition) (config : Config) : Prop where
  placed (i : Nat) (d : Definition) : ds[i]? = some d →
    if LeftOut config (Command.ofHandler (d.handler i)) then
      (Command.ofHandler (d.handler i)).base ∈ catalog.skipped
    else Command.ofHandler (d.handler i) ∈ catalog.commands
  commands : catalog.commands ~ (compileAll ds).filter (¬ LeftOut config ·)
  skipped : catalog.skipped ~ ((compileAll ds).filter (LeftOut config ·)).map Command.base
  total : catalog.commands.length + catalog.skipped.length = ds.length
  ordered : catalog.commands.Pairwise fun c d => c.base ≤ d.base
  stable (name : String) : catalog.commands.filter (·.base = name) =
    (compileAll ds).filter fun c => c.base = name ∧ ¬ LeftOut config c
  skipped_ordered : catalog.skipped.Pairwise (· ≤ ·)

theorem mem_compileAll (h : ds[i]? = some d) :
    Command.ofHandler (d.handler i) ∈ compileAll ds :=
  List.mem_map.2 ⟨(d, i), List.mem_zipIdx_iff_getElem?.2 h, rfl⟩

theorem commands_build (ds : List Definition) (config : Config) (generatedAt : String) :
    (build ds config generatedAt).commands =
      ((compileAll ds).filter (¬ LeftOut config ·)).mergeSort fun c d => c.base ≤ d.base := by
  simp [build, ofCompiled, leavesOut_eq]

theorem skipped_build (ds : List Definition) (config : Config) (generatedAt : String) :
    (build ds config generatedAt).skipped =
      (((compileAll ds).filter (LeftOut config ·)).map Command.base).mergeSort (· ≤ ·) := by
  rw [build, ofCompiled, leavesOut_eq]

theorem perm_commands_build (ds : List Definition) (config : Config) (generatedAt : String) :
    (build ds config generatedAt).commands ~ (compileAll ds).filter (¬ LeftOut config ·) := by
  rw [commands_build]
  exact List.mergeSort_perm _ _

theorem perm_skipped_build (ds : List Definition) (config : Config) (generatedAt : String) :
    (build ds config generatedAt).skipped ~
      ((compileAll ds).filter (LeftOut config ·)).map Command.base := by
  rw [skipped_build]
  exact List.mergeSort_perm _ _

theorem accounts_build (ds : List Definition) (config : Config) (generatedAt : String) :
    (build ds config generatedAt).Accounts ds config where
  placed i d h := by
    have hmem := mem_compileAll h
    split
    · rename_i hleft
      apply (perm_skipped_build ds config generatedAt).mem_iff.2
      exact List.mem_map_of_mem (List.mem_filter.2 ⟨hmem, by simpa using hleft⟩)
    · rename_i hstays
      apply (perm_commands_build ds config generatedAt).mem_iff.2
      exact List.mem_filter.2 ⟨hmem, by simpa using hstays⟩
  commands := perm_commands_build ds config generatedAt
  skipped := perm_skipped_build ds config generatedAt
  total := by
    have hparts := List.length_eq_length_filter_add (l := compileAll ds) (LeftOut config ·)
    have hlength : (compileAll ds).length = ds.length := by simp [compileAll]
    have hcommands := (perm_commands_build ds config generatedAt).length_eq
    have hskipped := (perm_skipped_build ds config generatedAt).length_eq
    simp only [decide_not] at hcommands
    rw [List.length_map] at hskipped
    omega
  ordered := by
    rw [commands_build]
    exact pairwise_mergeSort_key Command.base _
  stable name := by
    rw [commands_build, filter_mergeSort_key Command.base, List.filter_filter]
    simp
  skipped_ordered := by
    rw [skipped_build]
    exact List.pairwise_mergeSort' (· ≤ ·) _

/-- What the workers make of a list stands in the order of the list, whoever made it and when. -/
def Pool.KeepsOrder (pool : Pool) : Prop := ∀ f xs, pool f xs = xs.map f

theorem buildOn_eq_build {start? : Nat → Option Pool} {processors : Option Nat} {pool : Pool}
    (hstart : start? (config.workers processors ds.length) = some pool) (hpool : pool.KeepsOrder)
    (generatedAt : String) :
    buildOn start? processors ds config generatedAt = some (build ds config generatedAt) := by
  simp [buildOn, hstart, hpool compile, build, compileAll]

/-- The catalog accounts for every definition, and it is what is built with any number of jobs on
any pool that starts and keeps order. -/
theorem buildOn_accounts (ds : List Definition) (config : Config) (generatedAt : String) :
    (build ds config generatedAt).Accounts ds config ∧
      ∀ (jobs : Option Nat) (start? : Nat → Option Pool) (processors : Option Nat) (pool : Pool),
        start? ({ config with jobs }.workers processors ds.length) = some pool →
          pool.KeepsOrder →
            buildOn start? processors ds { config with jobs } generatedAt =
              some (build ds config generatedAt) := by
  refine ⟨accounts_build ds config generatedAt, ?_⟩
  intro jobs start? processors pool hstart hpool
  -- Only the number of workers depends on the jobs that are configured.
  have hjobs : build ds { config with jobs } generatedAt = build ds config generatedAt := rfl
  rw [buildOn_eq_build hstart hpool, hjobs]

/-- Halves the list so many times, and compiles the parts apart. -/
def Pool.halving : Nat → Pool
  | 0, f, xs => xs.map f
  | n + 1, f, xs =>
    halving n f (xs.take (xs.length / 2)) ++ halving n f (xs.drop (xs.length / 2))

theorem Pool.keepsOrder_halving (n : Nat) : (halving n).KeepsOrder := by
  intro f xs
  induction n generalizing xs with
  | zero => rfl
  | succ n ih => rw [halving, ih, ih, ← List.map_append, List.take_append_drop]

theorem buildOn_accounts_greet :
    let ds : List Definition := [⟨"make:\n\x7bmodel\x7d", none, none⟩,
      ⟨"greet", some "First", none⟩, ⟨"#greet", none, none⟩,
      ⟨"greet\n\x7bname\x7d", none, none⟩, ⟨"#stats:", none, none⟩]
    let config : Config := { Config.standard with exclude := ["make"], includeHidden := false }
    let start? (n : Nat) : Option Pool := some (Pool.halving n)
    (∀ jobs, start? ({ config with jobs }.workers (some 16) ds.length) =
      some (Pool.halving ({ config with jobs }.workers (some 16) ds.length))) ∧
    (∀ n, (Pool.halving n).KeepsOrder) ∧
    (build ds config "").Accounts ds config ∧
    ∀ jobs, buildOn start? (some 16) ds { config with jobs } "" = some (build ds config "") := by
  intro ds config start?
  obtain ⟨haccounts, hbuilt⟩ := buildOn_accounts ds config ""
  refine ⟨fun _ => rfl, Pool.keepsOrder_halving, haccounts, ?_⟩
  intro jobs
  exact hbuilt jobs start? (some 16) _ rfl (Pool.keepsOrder_halving _)

end ConsoleSignature.Catalog
