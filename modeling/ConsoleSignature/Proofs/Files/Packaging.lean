import ConsoleSignature.Files.Library
import ConsoleSignature.Proofs.Definition
import ConsoleSignature.Proofs.Json.RoundTrip
import ConsoleSignature.Proofs.Text.Encoding

/-!
Loading is all or nothing: either every file can be read and decoded, and the definitions of all are
there in the order of the paths, or the first file that cannot decides the error. How definitions
are spread over files does not matter to them.
-/
namespace ConsoleSignature

variable {t : FileTree} {path p : String} {paths : List String} {text : String}
  {content : ByteArray} {d : Definition} {ds : List Definition} {e : LibraryError} {e' : FileError}

namespace FileTree

theorem readText_eq_ok_iff : t.readText path = .ok text ↔ t.read path = .ok text.toUTF8 := by
  have htext (content : ByteArray) : textOf content = .ok text ↔ content = text.toUTF8 := by
    rw [← fromUTF8?_eq_some_iff, textOf]
    split <;> simp_all
  rw [readText, bind_eq_ok_iff]
  simp only [htext, exists_eq_right]

theorem readText_eq_error_iff : t.readText path = .error e' ↔
    t.read path = .error e' ∨ e' = .notText ∧
      ∃ content, t.read path = .ok content ∧ ∀ text : String, content ≠ text.toUTF8 := by
  rw [readText]
  cases t.read path with
  | error e => simp [bind, Except.bind]
  | ok content =>
    have htext : textOf content = .error e' ↔
        e' = .notText ∧ ∀ text : String, content ≠ text.toUTF8 := by
      simp only [ne_eq, ← fromUTF8?_eq_some_iff, textOf]
      cases String.fromUTF8? content <;> simp [eq_comm]
    simp [bind, Except.bind, htext]

end FileTree

/-- The text is JSON for the document, with the fields of its records in some order. -/
def Json.Spells (text : String) (d : Document) : Prop :=
  ∃ order, Json.read? text = some (d.datum order)

namespace Definition

/-- The definition with a source, which is its own, or else this path. -/
def sourced (d : Definition) (path : String) : Definition :=
  ⟨d.signature, d.description, some (d.source.getD path)⟩

theorem fillSource_eq_sourced (path : String) (d : Definition) :
    d.fillSource path = d.sourced path := by
  obtain ⟨signature, description, source⟩ := d
  cases source <;> rfl

theorem plain_document (n : Nat) (d : Definition) : Json.Plain (n + 1) d.document := by
  obtain ⟨signature, description, source⟩ := d
  refine .record fun f hf => ?_
  simp only [Document.field?, List.mem_append, List.mem_singleton, List.mem_map,
    Option.mem_toList, Option.map_eq_some_iff] at hf
  rcases hf with (rfl | ⟨_, ⟨x, -, rfl⟩, rfl⟩) | ⟨_, ⟨x, -, rfl⟩, rfl⟩ <;> exact .text n _

theorem spells_document (d : Definition) : Json.Spells d.document.json d.document :=
  ⟨.kept, Json.read?_json (plain_document 126 d)⟩

theorem spells_list (ds : List Definition) : Json.Spells
    (Document.list (ds.map document)).json (.list (ds.map document)) := by
  refine ⟨.kept, Json.read?_json (.list (n := 126) ?_)⟩
  rw [List.forall_mem_map]
  exact fun d _ => plain_document 125 d

end Definition

namespace Library

/-- The definitions that a file holds, by the extension of its path. -/
inductive Holds (t : FileTree) (path : String) : List Definition → Prop
  | signature {text : String} : kindOf? path = some .signature →
    t.read path = .ok text.toUTF8 → Holds t path [Definition.ofSignature text]
  | json {text : String} {d : Datum} {ds : List Definition} : kindOf? path = some .json →
    t.read path = .ok text.toUTF8 → Json.read? text = some d →
      Definition.listOfDatum? d = some ds → Holds t path ds
  | yaml {text : String} {d : Datum} {ds : List Definition} : kindOf? path ≠ some .signature →
    kindOf? path ≠ some .json → t.read path = .ok text.toUTF8 → Yaml.read? text = some d →
      Definition.listOfDatum? d = some ds → Holds t path ds

/-- What is wrong with a file that holds no definitions. -/
inductive Spoilt (t : FileTree) (path : String) : LibraryError → Prop
  | unreadable {e : FileError} : t.read path = .error e → Spoilt t path (.file e)
  | notText {content : ByteArray} : t.read path = .ok content →
    (∀ text : String, content ≠ text.toUTF8) → Spoilt t path (.file .notText)
  | json {text : String} : kindOf? path = some .json → t.read path = .ok text.toUTF8 →
    (∀ d, Json.read? text = some d → Definition.listOfDatum? d = none) → Spoilt t path .json
  | yaml {text : String} : kindOf? path ≠ some .signature → kindOf? path ≠ some .json →
    t.read path = .ok text.toUTF8 →
      (∀ d, Yaml.read? text = some d → Definition.listOfDatum? d = none) → Spoilt t path .yaml

/-- The definitions of a document that was read, if it could be. -/
def definitionsOf (d : Option Datum) (e : LibraryError) : Except LibraryError (List Definition) :=
  match d.bind Definition.listOfDatum? with
  | some ds => .ok ds
  | none => .error e

theorem definitionsOf_eq_ok_iff {d : Option Datum} : definitionsOf d e = .ok ds ↔
    ∃ x, d = some x ∧ Definition.listOfDatum? x = some ds := by
  rw [← Option.bind_eq_some_iff, definitionsOf]
  cases d.bind Definition.listOfDatum? <;> simp

theorem definitionsOf_eq_error_iff {d : Option Datum} {e'' : LibraryError} :
    definitionsOf d e = .error e'' ↔
      e'' = e ∧ ∀ x, d = some x → Definition.listOfDatum? x = none := by
  rw [← Option.bind_eq_none_iff, definitionsOf]
  cases d.bind Definition.listOfDatum? <;> simp [eq_comm]

theorem decode_of_json (h : kindOf? path = some .json) (text : String) :
    decode (kindOf? path) text = definitionsOf (Json.read? text) .json := by
  rw [h]
  rfl

theorem decode_of_yaml (hs : kindOf? path ≠ some .signature) (hj : kindOf? path ≠ some .json)
    (text : String) : decode (kindOf? path) text = definitionsOf (Yaml.read? text) .yaml := by
  unfold decode
  split <;> first | rfl | contradiction

theorem holds_iff : Holds t path ds ↔
    ∃ text, t.readText path = .ok text ∧ decode (kindOf? path) text = .ok ds := by
  constructor
  · rintro (⟨hkind, hread⟩ | ⟨hkind, hread, hd, hds⟩ | ⟨hs, hj, hread, hd, hds⟩)
    · exact ⟨_, FileTree.readText_eq_ok_iff.2 hread, by rw [hkind, decode]⟩
    · refine ⟨_, FileTree.readText_eq_ok_iff.2 hread, ?_⟩
      rw [decode_of_json hkind, definitionsOf_eq_ok_iff]
      exact ⟨_, hd, hds⟩
    · refine ⟨_, FileTree.readText_eq_ok_iff.2 hread, ?_⟩
      rw [decode_of_yaml hs hj, definitionsOf_eq_ok_iff]
      exact ⟨_, hd, hds⟩
  · rintro ⟨text, hread, hdecode⟩
    rw [FileTree.readText_eq_ok_iff] at hread
    by_cases hs : kindOf? path = some .signature
    · rw [hs, decode, Except.ok.injEq] at hdecode
      exact hdecode ▸ .signature hs hread
    by_cases hj : kindOf? path = some .json
    · obtain ⟨d, hd, hds⟩ := definitionsOf_eq_ok_iff.1 (decode_of_json hj text ▸ hdecode)
      exact .json hj hread hd hds
    · obtain ⟨d, hd, hds⟩ := definitionsOf_eq_ok_iff.1 (decode_of_yaml hs hj text ▸ hdecode)
      exact .yaml hs hj hread hd hds

theorem spoilt_iff : Spoilt t path e ↔ (∃ e', t.readText path = .error e' ∧ e = .file e') ∨
    ∃ text, t.readText path = .ok text ∧ decode (kindOf? path) text = .error e := by
  constructor
  · rintro (hread | ⟨hread, hbytes⟩ | ⟨hkind, hread, hno⟩ | ⟨hs, hj, hread, hno⟩)
    · exact .inl ⟨_, FileTree.readText_eq_error_iff.2 (.inl hread), rfl⟩
    · exact .inl ⟨_, FileTree.readText_eq_error_iff.2 (.inr ⟨rfl, _, hread, hbytes⟩), rfl⟩
    · refine .inr ⟨_, FileTree.readText_eq_ok_iff.2 hread, ?_⟩
      rw [decode_of_json hkind, definitionsOf_eq_error_iff]
      exact ⟨rfl, hno⟩
    · refine .inr ⟨_, FileTree.readText_eq_ok_iff.2 hread, ?_⟩
      rw [decode_of_yaml hs hj, definitionsOf_eq_error_iff]
      exact ⟨rfl, hno⟩
  · rintro (⟨e', hread, rfl⟩ | ⟨text, hread, hdecode⟩)
    · rcases FileTree.readText_eq_error_iff.1 hread with hread | ⟨rfl, content, hread, hbytes⟩
      · exact .unreadable hread
      · exact .notText hread hbytes
    · rw [FileTree.readText_eq_ok_iff] at hread
      by_cases hs : kindOf? path = some .signature
      · simp [hs, decode] at hdecode
      by_cases hj : kindOf? path = some .json
      · obtain ⟨rfl, hno⟩ := definitionsOf_eq_error_iff.1 (decode_of_json hj text ▸ hdecode)
        exact .json hj hread hno
      · obtain ⟨rfl, hno⟩ := definitionsOf_eq_error_iff.1 (decode_of_yaml hs hj text ▸ hdecode)
        exact .yaml hs hj hread hno

theorem loadFile_eq_ok_iff :
    loadFile t path = .ok ds ↔ ∃ found, Holds t path found ∧ ds = found.map (.fillSource path) := by
  simp only [holds_iff, loadFile]
  cases t.readText path with
  | error e' => simp [Except.mapError, bind, Except.bind]
  | ok text =>
    simp only [Except.mapError, bind_ok, Except.ok.injEq, exists_eq_left']
    cases decode (kindOf? path) text <;> simp [bind, Except.bind, pure, Except.pure, eq_comm]

theorem loadFile_eq_error_iff : loadFile t path = .error e ↔ Spoilt t path e := by
  rw [spoilt_iff, loadFile]
  cases t.readText path with
  | error e' => simp [Except.mapError, bind, Except.bind, eq_comm]
  | ok text =>
    simp only [Except.mapError, bind_ok, Except.ok.injEq, exists_eq_left', reduceCtorEq, false_and,
      exists_false, false_or]
    cases decode (kindOf? path) text <;> simp [bind, Except.bind, pure, Except.pure]

/-- The definitions of these files one after the other, each with a source. -/
def joined (paths : List String) (founds : List (List Definition)) : List Definition :=
  (List.zipWith (fun p found => found.map (·.sourced p)) paths founds).flatten

theorem load_eq_ok_iff : load t paths = .ok ds ↔
    ∃ founds, List.Forall₂ (Holds t) paths founds ∧ ds = joined paths founds := by
  have hfile (p : String) (ds : List Definition) : loadFile t p = .ok ds ↔
      ∃ found, Holds t p found ∧ ds = found.map (·.sourced p) := by
    simp only [loadFile_eq_ok_iff, ← Definition.fillSource_eq_sourced]
  have hflatten : load t paths = .ok ds ↔
      ∃ dss, paths.mapM (loadFile t) = .ok dss ∧ ds = dss.flatten := by
    rw [load, bind_eq_ok_iff]
    simp [pure, Except.pure, eq_comm]
  simp only [hflatten, mapM_eq_ok_iff, hfile, forall₂_exists_iff, joined]
  constructor
  · rintro ⟨_, ⟨founds, hfounds, rfl⟩, rfl⟩
    exact ⟨founds, hfounds, rfl⟩
  · rintro ⟨founds, hfounds, rfl⟩
    exact ⟨_, ⟨founds, hfounds, rfl⟩, rfl⟩

theorem exists_loadFile_iff : (∃ ds, loadFile t p = .ok ds) ↔ ∃ found, Holds t p found := by
  simp only [loadFile_eq_ok_iff]
  constructor
  · rintro ⟨_, found, hfound, -⟩
    exact ⟨found, hfound⟩
  · rintro ⟨found, hfound⟩
    exact ⟨_, found, hfound, rfl⟩

theorem exists_load_iff :
    (∃ ds, load t paths = .ok ds) ↔ ∀ p ∈ paths, ∃ found, Holds t p found := by
  simp only [← exists_loadFile_iff, ← exists_mapM_iff, load, bind_eq_ok_iff]
  simp [pure, Except.pure]

theorem load_eq_error_iff : load t paths = .error e ↔
    ∃ before p after, paths = before ++ p :: after ∧ (∀ q ∈ before, ∃ found, Holds t q found) ∧
      Spoilt t p e := by
  simp only [← exists_loadFile_iff, ← loadFile_eq_error_iff, ← mapM_eq_error_iff, load]
  cases paths.mapM (loadFile t) <;> simp [bind, Except.bind, pure, Except.pure]

/-- The file is JSON text for the document. -/
structure JsonFile (t : FileTree) (path : String) (d : Document) : Prop where
  kind : kindOf? path = some .json
  text : ∃ text : String, t.read path = .ok text.toUTF8 ∧ Json.Spells text d

theorem JsonFile.holds_list (h : JsonFile t path (.list (ds.map Definition.document))) :
    Holds t path ds := by
  obtain ⟨text, hread, order, hspells⟩ := h.text
  exact .json h.kind hread hspells (Definition.listOfDatum?_list order ds)

theorem JsonFile.holds_document (h : JsonFile t path d.document) : Holds t path [d] := by
  obtain ⟨text, hread, order, hspells⟩ := h.text
  exact .json h.kind hread hspells (Definition.listOfDatum?_document order d)

/-- Either every file holds definitions, and they come one file after the other, each with a source;
or the first file that holds none decides the error. Definitions that are written as JSON come back
in their order, be they a list in one file or spread over one file each; and JSON that this library
writes for them is such a file's text. -/
theorem load_all_or_nothing (t : FileTree) :
    (∀ paths, (∃ ds, load t paths = .ok ds) ↔ ∀ p ∈ paths, ∃ found, Holds t p found) ∧
    (∀ paths ds, load t paths = .ok ds ↔
      ∃ founds, List.Forall₂ (Holds t) paths founds ∧ ds = joined paths founds) ∧
    (∀ paths e, load t paths = .error e ↔ ∃ before p after, paths = before ++ p :: after ∧
      (∀ q ∈ before, ∃ found, Holds t q found) ∧ Spoilt t p e) ∧
    (∀ (ds : List Definition) (path : String),
      JsonFile t path (.list (ds.map Definition.document)) →
        load t [path] = .ok (ds.map (·.sourced path))) ∧
    (∀ (ds : List Definition) (paths : List String),
      List.Forall₂ (fun d p => JsonFile t p d.document) ds paths →
        load t paths = .ok (List.zipWith Definition.sourced ds paths)) ∧
    ∀ ds : List Definition, Json.Spells (Document.list (ds.map Definition.document)).json
        (.list (ds.map Definition.document)) ∧
      ∀ d ∈ ds, Json.Spells d.document.json d.document := by
  refine ⟨fun _ => exists_load_iff, fun _ _ => load_eq_ok_iff, fun _ _ => load_eq_error_iff,
    ?_, ?_, fun ds => ⟨Definition.spells_list ds, fun d _ => Definition.spells_document d⟩⟩
  · intro ds path h
    exact load_eq_ok_iff.2 ⟨[ds], .cons h.holds_list .nil, by simp [joined]⟩
  · intro ds paths h
    refine load_eq_ok_iff.2 ⟨ds.map ([·]), ?_, (flatten_zipWith_singleton _ _ _).symm⟩
    rw [List.forall₂_map_right_iff]
    exact h.flip.imp fun _ _ hfile => hfile.holds_document

theorem load_all_or_nothing_serve :
    let ds : List Definition := [⟨"hello", none, none⟩, ⟨"serve", some "Run", some "ops"⟩]
    let t : FileTree :=
      ⟨(["all.json"], .file (Document.list (ds.map Definition.document)).json.toUTF8) ::
        List.zipWith (fun name d => ([name], .file d.document.json.toUTF8)) ["1.json", "2.json"] ds⟩
    JsonFile t "all.json" (.list (ds.map Definition.document)) ∧
    List.Forall₂ (fun d p => JsonFile t p d.document) ds ["1.json", "2.json"] ∧
    load t ["all.json"] =
      .ok [⟨"hello", none, some "all.json"⟩, ⟨"serve", some "Run", some "ops"⟩] ∧
    load t ["1.json", "2.json"] =
      .ok [⟨"hello", none, some "1.json"⟩, ⟨"serve", some "Run", some "ops"⟩] := by
  intro ds t
  obtain ⟨-, -, -, hlist, heach, hspells⟩ := load_all_or_nothing t
  have hall : JsonFile t "all.json" (.list (ds.map Definition.document)) :=
    ⟨by decide, _, rfl, (hspells ds).1⟩
  have hone : List.Forall₂ (fun d p => JsonFile t p d.document) ds ["1.json", "2.json"] :=
    .cons ⟨by decide, _, rfl, (hspells ds).2 _ (by simp [ds])⟩
      (.cons ⟨by decide, _, rfl, (hspells ds).2 _ (by simp [ds])⟩ .nil)
  exact ⟨hall, hone, hlist ds _ hall, heach ds _ hone⟩

end Library

end ConsoleSignature
