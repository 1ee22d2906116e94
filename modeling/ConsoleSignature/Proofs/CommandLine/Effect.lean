import ConsoleSignature.CommandLine.Response
import ConsoleSignature.Proofs.Files.Writing

/-!
What a run changes: no file, but for the one that a catalog is saved to, and that one only where the
run succeeds. It then holds what the same request would have printed.
-/
namespace ConsoleSignature

variable {s : Surroundings} {m : Machine} {r : CatalogRequest} {i : Invocation} {files : FileTree}
  {response : Response} {path : String}

/-- The file that an invocation asks to write. -/
def Invocation.output? : Invocation → Option String
  | .catalog r => r.output
  | _ => none

/-- The request whose catalog is printed. -/
def CatalogRequest.printed (r : CatalogRequest) : CatalogRequest := { r with output := none }

theorem Response.code_perform (files : FileTree) (response : Response) :
    (response.perform files).code = 0 ∨ (response.perform files).code = 1 := by
  cases response with
  | print text => exact Or.inl rfl
  | fail failure => exact Or.inr rfl
  | save path text commands =>
    rw [perform]
    split
    · exact Or.inl rfl
    · exact Or.inr rfl

theorem Response.failed_perform (h : (response.perform files).code = 1) :
    (response.perform files).files = files ∧ (response.perform files).output = "" := by
  cases response with
  | print text => simp [perform] at h
  | fail failure => exact ⟨rfl, rfl⟩
  | save path text commands =>
    rw [perform] at h ⊢
    split at h
    · simp at h
    · exact ⟨rfl, rfl⟩

/-- Only a response that saves changes a file. -/
theorem Response.files_perform (h : ∀ path text commands, response ≠ .save path text commands) :
    (response.perform files).files = files := by
  cases response with
  | print text => rfl
  | fail failure => rfl
  | save path text commands => exact absurd rfl (h path text commands)

theorem Response.written_perform {text : String} {commands : Nat}
    (h : ((Response.save path text commands).perform files).code = 0) :
    files.write path text.toUTF8 =
      .ok ((Response.save path text commands).perform files).files := by
  rw [perform] at h ⊢
  split at h
  · assumption
  · simp [Outcome.failed] at h

namespace Surroundings

theorem answer_catalog (s : Surroundings) (m : Machine) (r : CatalogRequest) :
    s.answer m (.catalog r) = (s.catalog m r).map fun c =>
      match r.output with
      | some path => .save path (catalogText r c) c.commands.length
      | none => .print (catalogText r c) := by
  rw [answer]
  cases s.catalog m r with
  | error e => rfl
  | ok c => cases r.output <;> rfl

/-- Where nothing is to be written, nothing is saved. -/
theorem respond_ne_save (h : i.output? = none) (p text : String) (commands : Nat) :
    s.respond m i ≠ .save p text commands := by
  rw [respond]
  cases i with
  | version => simp [answer]
  | compile source | plan source =>
    rw [answer]
    cases s.compiled source <;> simp [bind, Except.bind, pure, Except.pure]
  | catalog r =>
    have hnone : r.output = none := h
    rw [answer_catalog, hnone]
    cases s.catalog m r <;> simp [Except.map]

/-- The time of a run shows in its catalog, and nowhere else. -/
theorem catalog_now (s : Surroundings) (m : Machine) (r : CatalogRequest) (now : String) :
    { s with now }.catalog m r =
      (s.catalog m r).map fun c => { c with generatedAt := now } := by
  have hgathered : { s with now }.gathered r = s.gathered r := rfl
  rw [catalog, catalog, hgathered]
  cases s.gathered r with
  | error e => rfl
  | ok x =>
    obtain ⟨ds, c⟩ := x
    simp only [bind_ok, Catalog.buildOn]
    cases m.start? (c.workers m.processors ds.length) <;> rfl

theorem generatedAt_catalog {c : Catalog} (h : s.catalog m r = .ok c) : c.generatedAt = s.now := by
  have hnow := catalog_now s m r s.now
  rw [h] at hnow
  exact congrArg Catalog.generatedAt (Except.ok.inj hnow)

theorem carryOut_printed {c : Catalog} (h : s.catalog m r = .ok c) (now : String) :
    { s with now }.carryOut m (.catalog r.printed) =
      ⟨0, catalogText r { c with generatedAt := now }, "", s.files⟩ := by
  have hcatalog : { s with now }.catalog m r.printed = .ok { c with generatedAt := now } := by
    have hnow := catalog_now s m r now
    rw [h] at hnow
    exact hnow
  rw [carryOut, respond, answer_catalog, hcatalog]
  rfl

theorem carryOut_saved (hpath : r.output = some path)
    (h : (s.carryOut m (.catalog r)).code = 0) :
    ∃ c, s.catalog m r = .ok c ∧
      s.files.write path (catalogText r c).toUTF8 = .ok (s.carryOut m (.catalog r)).files := by
  have hrespond : s.respond m (.catalog r) =
      match s.catalog m r with
      | .ok c => .save path (catalogText r c) c.commands.length
      | .error e => .fail e := by
    rw [respond, answer_catalog, hpath]
    cases s.catalog m r <;> rfl
  rw [carryOut, hrespond] at h ⊢
  cases hcatalog : s.catalog m r with
  | error e => simp [hcatalog, Response.perform, Outcome.failed] at h
  | ok c =>
    rw [hcatalog] at h
    exact ⟨c, rfl, Response.written_perform h⟩

/-- A run fails without a trace, and changes nothing where it is to print. Where it saves a catalog,
the file asked for holds just what would have been printed, which tells no more of the time than
the catalog does, and every other place holds what it did. -/
theorem runOn_effect (s : Surroundings) (m : Machine) {arguments : List String} {i : Invocation}
    (h : Invocation.ofArguments? arguments = some i) :
    let outcome := s.runOn m arguments
    (outcome.code = 0 ∨ outcome.code = 1) ∧
    (outcome.code = 1 → outcome.files = s.files ∧ outcome.output = "") ∧
    (i.output? = none → outcome.files = s.files) ∧
    ∀ r path, i = .catalog r → r.output = some path → outcome.code = 0 →
      let shown := s.carryOut m (.catalog r.printed)
      shown.code = 0 ∧ outcome.files.read path = .ok shown.output.toUTF8 ∧
      (∃ l, s.files.locate path = .ok l ∧ outcome.files.locate path = .ok l ∧
        ∀ l', l' ≠ l → outcome.files.item? l' = s.files.item? l') ∧
      ∃ c : Catalog, c.generatedAt = s.now ∧ shown.output = catalogText r c ∧ ∀ now,
        ({ s with now }.carryOut m (.catalog r.printed)).output =
          catalogText r { c with generatedAt := now } := by
  intro outcome
  have houtcome : outcome = s.carryOut m i := by simp only [outcome, runOn, h]
  refine ⟨?_, ?_, ?_, ?_⟩
  · rw [houtcome]
    exact Response.code_perform s.files (s.respond m i)
  · rw [houtcome]
    exact Response.failed_perform
  · intro hnone
    rw [houtcome]
    exact Response.files_perform (respond_ne_save hnone)
  · rintro r path rfl hpath hcode shown
    rw [houtcome] at hcode ⊢
    obtain ⟨c, hcatalog, hwrite⟩ := carryOut_saved hpath hcode
    have hnow := generatedAt_catalog hcatalog
    have hprinted := carryOut_printed hcatalog
    have hshown : shown = ⟨0, catalogText r c, "", s.files⟩ := by
      have hstamp : { c with generatedAt := s.now } = c := by rw [← hnow]
      have hsame := hprinted s.now
      rwa [hstamp] at hsame
    obtain ⟨l, hl, hl', hread, hothers⟩ := FileTree.written_of_write hwrite
    rw [hshown]
    refine ⟨rfl, hread, ⟨l, hl, hl', hothers⟩, c, hnow, rfl, ?_⟩
    intro now
    rw [hprinted now]

/-- The file of a signature is itself where its catalog is saved. -/
theorem runOn_effect_greet :
    let s : Surroundings :=
      ⟨⟨[(["greet.sig"], .file "greet\n\x7bname\x7d\n".toUTF8)]⟩, .empty, "now"⟩
    let r : CatalogRequest :=
      ⟨["greet.sig"], none, some "greet.sig", none, none, none, false, .json⟩
    let arguments := ["catalog", "greet.sig", "--output=greet.sig"]
    Invocation.ofArguments? arguments = some (.catalog r) ∧
      (s.runOn .sequential arguments).code = 0 ∧
      (s.carryOut .sequential (.catalog r.printed)).code = 0 ∧
      (s.runOn .sequential arguments).files.read "greet.sig" =
        .ok (s.carryOut .sequential (.catalog r.printed)).output.toUTF8 := by
  intro s r arguments
  have harguments : Invocation.ofArguments? arguments = some (.catalog r) := by decide +kernel
  have hcode : (s.runOn .sequential arguments).code = 0 := by decide +kernel
  obtain ⟨-, -, -, hsaved⟩ := runOn_effect s .sequential harguments
  obtain ⟨hshown, hread, -⟩ := hsaved r "greet.sig" rfl rfl hcode
  exact ⟨harguments, hcode, hshown, hread⟩

end Surroundings

end ConsoleSignature
