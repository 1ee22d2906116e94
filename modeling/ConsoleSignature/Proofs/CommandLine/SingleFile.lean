import ConsoleSignature.Proofs.Catalog.Accounts
import ConsoleSignature.Proofs.CommandLine.Effect
import ConsoleSignature.Proofs.Files.Collection

/-!
The plan of one signature file. It is the same whether the file is read as a signature or as the
only input of a catalog that is planned.
-/
namespace ConsoleSignature

variable {t : FileTree} {s : Surroundings} {m : Machine} {path text now : String}
  {config : Config} {jobs : Option Nat} {cliName : Option String} {format : OutputFormat}

namespace Library

/-- The extension of a path tells that the file holds a bare signature. -/
def IsSignaturePath (path : String) : Prop :=
  Path.extension? path = some "sig" ∨ Path.extension? path = some "signature"

instance (path : String) : Decidable (IsSignaturePath path) := inferInstanceAs (Decidable (_ ∨ _))

theorem IsSignaturePath.kindOf? (h : IsSignaturePath path) : kindOf? path = some .signature := by
  rcases h with h | h <;> simp [Library.kindOf?, h]

theorem IsSignaturePath.holdsDefinitions (h : IsSignaturePath path) :
    holdsDefinitions path = true := by
  rw [Library.holdsDefinitions, h.kindOf?, Option.isSome_some]

theorem sorted_singleton (p : String) : sorted [p] = [p] := by
  simp [sorted, distinct]

theorem collect_singleton (hfile : t.isFile path = true) (h : IsSignaturePath path) :
    collect t [path] = .ok [path] := by
  have hfiles (arrange : List String → List String) : filesOf t arrange path = .ok [path] := by
    simp [filesOf, FileTree.isDirectory_of_isFile hfile, hfile, h.holdsDefinitions]
  refine collectIn_eq_ok_iff.2 ⟨by simp, [[path]], ?_, by simp, (sorted_singleton path).symm⟩
  simp only [filesOfEach, List.zipIdx_singleton, List.mapM_cons, hfiles]
  rfl

theorem load_singleton (h : IsSignaturePath path) :
    load t [path] = ((t.readText path).mapError .file).map fun text =>
      [⟨text, none, some path⟩] := by
  rw [load, List.mapM_cons, loadFile]
  cases t.readText path with
  | error e => rfl
  | ok text =>
    rw [h.kindOf?]
    rfl

end Library

namespace Catalog

/-- Where nothing is to be left out, the plan of one definition is that of its command. -/
theorem plan_build_singleton (hexclude : config.exclude = [])
    (hhidden : config.includeHidden = true) (d : Definition) (now : String) :
    (build [d] config now).plan = Plan.ofCommands [Command.ofHandler (d.handler 0)] := by
  have hstays (c : Command) : leavesOut config c = false := by
    simp [leavesOut, Config.excludes, hexclude, hhidden]
  simp [plan, build, ofCompiled, compileAll, compile, hstays]

end Catalog

/-- The request for the plan of what one file defines, that asks for no configuration and leaves
nothing out. -/
def CatalogRequest.planOf (path : String) (jobs : Option Nat) (cliName : Option String)
    (format : OutputFormat) : CatalogRequest where
  inputs := [path]
  config := none
  output := none
  jobs
  cliName
  exclude := none
  plan := true
  format

namespace Invocation

variable {count : String} {n : Nat} {g : Given} {grammar : Grammar} {a : String}
  {as : List String}

theorem isVerbosity_eq_false (h : isOption a = false) : isVerbosity a = false := by
  rw [Bool.eq_false_iff]
  intro hverbosity
  rw [isVerbosity, Bool.or_eq_true, beq_iff_eq] at hverbosity
  rcases hverbosity with rfl | hv
  · simp [isOption] at h
  · rw [isOption] at h
    split at hv
    · simp_all
    · simp at hv

theorem sort?_operand (h : isOption a = false) :
    sort? grammar g (a :: as) = (g.addOperands? grammar [a]).bind (sort? grammar · as) := by
  have hdashes : a ≠ "--" := by
    rintro rfl
    simp [isOption] at h
  simp [sort?, hdashes, isVerbosity_eq_false h, h]

theorem isOption_eq_false_of_number? (h : number? count = some n) : isOption count = false := by
  rw [Bool.eq_false_iff]
  intro hoption
  rw [isOption] at hoption
  split at hoption
  · rename_i hcs
    simp [number?, hcs] at h
  · simp at hoption

theorem ofName?_name (format : OutputFormat) : OutputFormat.ofName? format.name = some format := by
  cases format <;> rfl

/-- The arguments that set how many workers compile. -/
def jobsArguments : Option String → List String
  | some count => ["--jobs", count]
  | none => []

theorem ofArguments?_catalog {count : Option String} (hpath : path ≠ "")
    (h : isOption path = false) (hcount : count.mapM number? = some jobs) (format : OutputFormat) :
    ofArguments?
        ("catalog" :: path :: (jobsArguments count ++ ["--plan", "--format", format.name])) =
      some (.catalog (.planOf path jobs none format)) := by
  cases count with
  | none =>
    have hsorted : sort? catalogGrammar Given.empty [path, "--plan", "--format", format.name] =
        some ⟨[("--format", format.name)], ["--plan"], [path]⟩ := by
      rw [sort?_operand h]
      cases format <;> rfl
    obtain rfl : jobs = none := by simpa [eq_comm] using hcount
    simp [ofArguments?, catalogRequest?, jobsArguments, hsorted, Given.path?, Given.value?,
      Given.jobs?, Given.format?, hpath, ofName?_name, CatalogRequest.planOf]
  | some count =>
    obtain ⟨n, hnumber, rfl⟩ : ∃ n, number? count = some n ∧ jobs = some n := by
      simpa [eq_comm] using hcount
    -- The name of the option is fixed, so that all but the look at its value is computed.
    have hvalue (g : Given) (as : List String) :
        sort? catalogGrammar g ("--jobs" :: count :: as) =
          if isOption count then none
          else (g.addValue? "--jobs" count).bind (sort? catalogGrammar · as) := rfl
    have hsorted : sort? catalogGrammar Given.empty
        [path, "--jobs", count, "--plan", "--format", format.name] =
          some ⟨[("--jobs", count), ("--format", format.name)], ["--plan"], [path]⟩ := by
      simp only [sort?_operand h, hvalue, isOption_eq_false_of_number? hnumber]
      cases format <;> rfl
    simp [ofArguments?, catalogRequest?, jobsArguments, hsorted, Given.path?, Given.value?,
      Given.jobs?, Given.format?, hpath, hnumber, ofName?_name, CatalogRequest.planOf,
      List.lookup_cons]

theorem ofArguments?_plan (hpath : path ≠ "") (h : isOption path = false)
    (format : OutputFormat) :
    ofArguments? ["plan", "--input", path, "--format", format.name] =
      some (.plan ⟨path, none, format⟩) := by
  have hvalue (g : Given) (as : List String) :
      sort? sourceGrammar g ("--input" :: path :: as) =
        if isOption path then none
        else (g.addValue? "--input" path).bind (sort? sourceGrammar · as) := rfl
  have hsorted : sort? sourceGrammar Given.empty ["--input", path, "--format", format.name] =
      some ⟨[("--input", path), ("--format", format.name)], [], []⟩ := by
    rw [hvalue, h]
    cases format <;> rfl
  simp [ofArguments?, source?, hsorted, Given.path?, Given.value?, Given.format?, hpath,
    ofName?_name, List.lookup_cons]

end Invocation

namespace Surroundings

theorem isStandardInput_eq_false (h : Library.IsSignaturePath path) :
    isStandardInput path = false := by
  have hdash : Path.extension? "-" = none := by decide +kernel
  rw [Bool.eq_false_iff]
  intro hsame
  have hext := Path.extension?_congr (Path.same_iff.1 hsame)
  rw [hdash] at hext
  rcases h with h | h <;> simp [h] at hext

theorem respond_plan (h : Library.IsSignaturePath path) (s : Surroundings) (m : Machine)
    (format : OutputFormat) :
    s.respond m (.plan ⟨path, none, format⟩) =
      match s.files.readText path with
      | .ok text =>
        .print (finished ((Plan.ofCommands [Command.ofHandler ⟨0, text, none⟩]).render format))
      | .error e => .fail (.input path e) := by
  simp only [respond, answer, compiled, definition, isStandardInput_eq_false h]
  cases s.files.readText path <;> rfl

theorem gathered_planOf (hfile : s.files.isFile path = true) (h : Library.IsSignaturePath path)
    (hconfig : s.files.isFile Config.defaultFile = false) (hjobs : jobs ≠ some 0)
    (cliName : Option String) (format : OutputFormat) :
    s.gathered (.planOf path jobs cliName format) =
      ((s.files.readText path).mapError fun e => Failure.library (.file e)).map fun text =>
        ([⟨text, none, some path⟩],
          adjusted Config.standard (.planOf path jobs cliName format)) := by
  have hstandard : s.config none = .ok (Config.standard, ".") := by simp [config, hconfig]
  simp only [gathered, CatalogRequest.planOf, hstandard, bind_ok, hjobs, if_false, inputs,
    List.isEmpty_cons, Bool.false_eq_true, Library.collect_singleton hfile h, Except.mapError,
    Library.load_singleton h]
  cases s.files.readText path <;> rfl

/-- On a machine whose workers start and keep order. -/
theorem catalog_planOf {pool : Catalog.Pool} (hfile : s.files.isFile path = true)
    (h : Library.IsSignaturePath path) (hconfig : s.files.isFile Config.defaultFile = false)
    (hjobs : jobs ≠ some 0)
    (hstart : m.start? ({ Config.standard with jobs }.workers m.processors 1) = some pool)
    (hpool : pool.KeepsOrder) (cliName : Option String) (format : OutputFormat) :
    s.catalog m (.planOf path jobs cliName format) =
      ((s.files.readText path).mapError fun e => Failure.library (.file e)).map fun text =>
        .build [⟨text, none, some path⟩]
          (adjusted Config.standard (.planOf path jobs cliName format)) s.now := by
  have hworkers : (adjusted Config.standard (.planOf path jobs cliName format)).workers
      m.processors 1 = { Config.standard with jobs }.workers m.processors 1 := by
    simp [adjusted, CatalogRequest.planOf, Config.workers, Config.standard]
  rw [catalog, gathered_planOf hfile h hconfig hjobs]
  cases s.files.readText path with
  | error e => rfl
  | ok text =>
    simp only [Except.mapError, Except.map, bind_ok]
    rw [Catalog.buildOn_eq_build (hworkers ▸ hstart) hpool]
    rfl

theorem respond_planOf {pool : Catalog.Pool} (hfile : s.files.isFile path = true)
    (h : Library.IsSignaturePath path) (hconfig : s.files.isFile Config.defaultFile = false)
    (hjobs : jobs ≠ some 0)
    (hstart : m.start? ({ Config.standard with jobs }.workers m.processors 1) = some pool)
    (hpool : pool.KeepsOrder) (cliName : Option String) (format : OutputFormat) :
    s.respond m (.catalog (.planOf path jobs cliName format)) =
      match s.files.readText path with
      | .ok text =>
        .print (finished ((Plan.ofCommands [Command.ofHandler ⟨0, text, none⟩]).render format))
      | .error e => .fail (.library (.file e)) := by
  rw [respond, answer_catalog, catalog_planOf hfile h hconfig hjobs hstart hpool]
  cases s.files.readText path with
  | error e => rfl
  | ok text =>
    simp only [Except.mapError, Except.map, CatalogRequest.planOf, catalogText, if_true]
    rw [Catalog.plan_build_singleton rfl rfl]
    rfl

/-- A signature file has one plan: what is printed for it as the only input of a catalog to be
planned, on any machine whose workers start and keep order, is what is printed for it alone. -/
theorem runOn_planOf {pool : Catalog.Pool} (hfile : s.files.isFile path = true)
    (h : Library.IsSignaturePath path) (hconfig : s.files.isFile Config.defaultFile = false)
    (hjobs : jobs ≠ some 0)
    (hstart : m.start? ({ Config.standard with jobs }.workers m.processors 1) = some pool)
    (hpool : pool.KeepsOrder) {arguments arguments' : List String}
    (hcatalog : Invocation.ofArguments? arguments =
      some (.catalog (.planOf path jobs cliName format)))
    (hplan : Invocation.ofArguments? arguments' = some (.plan ⟨path, none, format⟩)) :
    let planned := s.runOn m arguments
    let shown := s.runOn m arguments'
    planned.code = shown.code ∧ planned.output = shown.output ∧
      ∃ content, s.files.read path = .ok content ∧
        match String.fromUTF8? content with
        | some text => planned.code = 0 ∧ planned.output =
          finished ((Plan.ofCommands [Command.ofHandler ⟨0, text, none⟩]).render format)
        | none => planned.code = 1 ∧ planned.output = "" := by
  intro planned shown
  have hplanned : planned =
      (s.respond m (.catalog (.planOf path jobs cliName format))).perform s.files := by
    simp only [planned, runOn, hcatalog, carryOut]
  have hshown : shown = (s.respond m (.plan ⟨path, none, format⟩)).perform s.files := by
    simp only [shown, runOn, hplan, carryOut]
  rw [respond_planOf hfile h hconfig hjobs hstart hpool] at hplanned
  rw [respond_plan h] at hshown
  obtain ⟨content, hread⟩ : ∃ content, s.files.read path = .ok content := by
    obtain ⟨l, content, hfind⟩ := FileTree.isFile_iff.1 hfile
    exact ⟨content, by rw [FileTree.read, hfind]; rfl⟩
  have htext : s.files.readText path = FileTree.textOf content := by
    rw [FileTree.readText, hread]
    rfl
  rw [htext, FileTree.textOf] at hplanned hshown
  rw [hplanned, hshown]
  cases hutf8 : String.fromUTF8? content with
  | some text => exact ⟨rfl, rfl, content, hread, by rw [hutf8]; exact ⟨rfl, rfl⟩⟩
  | none => exact ⟨rfl, rfl, content, hread, by rw [hutf8]; exact ⟨rfl, rfl⟩⟩

theorem runOn_planOf_greet :
    let s : Surroundings :=
      ⟨⟨[(["greet.sig"], .file "#greet:\n\x7bname\x7d\n".toUTF8)]⟩, .empty, ""⟩
    let m : Machine := ⟨some 4, fun n => some (.halving n)⟩
    let arguments := ["catalog", "greet.sig", "--jobs", "3", "--plan", "--format", "table"]
    let arguments' := ["plan", "--input", "greet.sig", "--format", "table"]
    s.files.isFile "greet.sig" = true ∧ Library.IsSignaturePath "greet.sig" ∧
      s.files.isFile Config.defaultFile = false ∧
      (∃ r, Invocation.ofArguments? arguments = some (.catalog r)) ∧
      (∃ r, Invocation.ofArguments? arguments' = some (.plan r)) ∧
      m.start? ({ Config.standard with jobs := some 3 }.workers m.processors 1) =
        some (.halving 3) ∧
      (Catalog.Pool.halving 3).KeepsOrder ∧
      (s.runOn m arguments').code = 0 ∧ (s.runOn m arguments').output ≠ "" ∧
      (s.runOn m arguments).code = (s.runOn m arguments').code ∧
      (s.runOn m arguments).output = (s.runOn m arguments').output := by
  intro s m arguments arguments'
  have hfile : s.files.isFile "greet.sig" = true := by decide +kernel
  have hsignature : Library.IsSignaturePath "greet.sig" := by decide +kernel
  have hconfig : s.files.isFile Config.defaultFile = false := by decide +kernel
  have hstart : m.start? ({ Config.standard with jobs := some 3 }.workers m.processors 1) =
      some (.halving 3) := rfl
  have hcatalog : Invocation.ofArguments? arguments =
      some (.catalog (.planOf "greet.sig" (some 3) none .table)) :=
    Invocation.ofArguments?_catalog (by decide) rfl
      (show (some "3").mapM Invocation.number? = some (some 3) from rfl) .table
  have hplan : Invocation.ofArguments? arguments' = some (.plan ⟨"greet.sig", none, .table⟩) :=
    Invocation.ofArguments?_plan (by decide) rfl .table
  obtain ⟨hcode, houtput, -⟩ := runOn_planOf hfile hsignature hconfig (by decide) hstart
    (Catalog.Pool.keepsOrder_halving 3) hcatalog hplan
  exact ⟨hfile, hsignature, hconfig, ⟨_, hcatalog⟩, ⟨_, hplan⟩, hstart,
    Catalog.Pool.keepsOrder_halving 3, by decide +kernel, by decide +kernel, hcode, houtput⟩

end Surroundings

end ConsoleSignature
