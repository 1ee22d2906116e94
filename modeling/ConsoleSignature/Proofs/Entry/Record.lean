import ConsoleSignature.Entry.Record
import ConsoleSignature.Proofs.Datum
import ConsoleSignature.Proofs.Entry.WellFormed

/-!
Entries that are written and read back. Every entry comes back as it was, those inside it included,
whatever the order of the fields; only a number that is not finite is lost.
-/
namespace ConsoleSignature

open Document (FieldOrder)

open scoped List

variable {order : FieldOrder} {v : DefaultValue} {e : Entry} {es : List Entry}

namespace DefaultValue

/-- What each kind of value is read from, in the order in which the kinds are tried. -/
def readers : List (Datum → Option DefaultValue) :=
  [fun d => d.bool?.map bool,
    fun
      | .integer i => some (number (Binary64.ofInt i))
      | .number x => some (number x)
      | _ => none,
    fun d => d.text?.map text,
    fun d => d.texts?.map list]

theorem ofDatum?_eq_findSome? (d : Datum) : ofDatum? d = readers.findSome? fun read => read d := by
  cases d <;> simp [ofDatum?, readers, Datum.bool?, Datum.text?, Datum.texts?, Datum.sequence?]

theorem ofDatum?_datum (order : FieldOrder) (h : ∀ x, v = .number x → x.isFinite) :
    ofDatum? (v.document.datum order) = some v := by
  cases v with
  | bool b => rfl
  | number x => simp [document, Document.datum, h x rfl, ofDatum?]
  | text s => rfl
  | list xs =>
    rw [document, Document.datum_texts]
    exact congrArg (Option.map list) (Datum.texts?_ofTexts xs)

end DefaultValue

namespace Entry

/-- Every number that is a default value in an entry, however deep inside, is finite. -/
def IsFinite (e : Entry) : Prop :=
  ∀ d, Within d e → ∀ x, d.defaultValue = some (.number x) → x.isFinite

theorem IsFinite.nested (h : e.IsFinite) (hes : e.nested = some es) :
    ∀ n ∈ es, n.IsFinite := fun _ hn d hd => h d (.nested hes hn hd)

theorem IsFinite.intro (hvalue : ∀ x, e.defaultValue = some (.number x) → x.isFinite)
    (hnested : ∀ es, e.nested = some es → ∀ n ∈ es, n.IsFinite) : e.IsFinite := by
  intro d hd
  cases hd with
  | self => exact hvalue
  | nested hes hn hd => exact hnested _ hes _ hn d hd

theorem documents_eq_map (es : List Entry) : documents es = es.map document := by
  induction es with
  | nil => rfl
  | cons e es ih => rw [documents, ih, List.map_cons]

/-- The values of an entry's fields as they are written; those that it lacks are left out. -/
def values (order : FieldOrder) (e : Entry) : List (Option Datum) :=
  [some (.text e.name), e.flags.map .ofTexts, some (.bool e.isFlag), some (.bool e.required),
    some (.bool e.multiple), e.placeholder.map .text, e.description.map .text,
    e.defaultValue.map fun v => v.document.datum order, some (.ofTexts e.choices),
    some (.bool e.hidden), some (.bool e.shared),
    e.nested.map fun es => .sequence (es.map fun n => n.document.datum order)]

theorem datum_document (order : FieldOrder) (e : Entry) :
    e.document.datum order =
      .mapping (order.arrange (Datum.present fieldNames (e.values order))) := by
  obtain ⟨name, flags, isFlag, required, multiple, placeholder, description, defaultValue, choices,
    hidden, shared, nested⟩ := e
  have hnested : (nestedDocument nested).map (Document.datum order) =
      nested.map fun es => .sequence (es.map fun n => n.document.datum order) := by
    cases nested with
    | none => rfl
    | some es =>
      simp [nestedDocument, Document.datum, Document.data_eq_map, documents_eq_map,
        Function.comp_def]
  simp only [document, Document.datum, Document.fieldData_append, Document.fieldData_field?,
    Document.fieldData, Document.datum_texts, hnested, values, fieldNames, Datum.present_cons]
  simp [Document.datum, Document.datum_texts, Function.comp_def, Datum.present]

theorem record?_datum (order : FieldOrder) (e : Entry) :
    (e.document.datum order).record? fieldNames = some (e.values order) := by
  rw [datum_document]
  exact Datum.record?_present (by decide) rfl (order.perm _)

/-- Reads what an entry has inside. -/
def nestedOfDatum? : Datum → Option (List Entry)
  | .sequence ds => ds.mapM ofDatum?
  | _ => none

theorem ofDatum?_of_record? {d : Datum}
    {name flags isFlag required multiple placeholder description defaultValue choices hidden shared
      nested : Option Datum}
    (h : d.record? fieldNames = some [name, flags, isFlag, required, multiple, placeholder,
      description, defaultValue, choices, hidden, shared, nested]) :
    ofDatum? d = do
      let name ← Datum.required Datum.text? name
      let flags ← Datum.optional Datum.texts? flags
      let isFlag ← Datum.required Datum.bool? isFlag
      let required ← Datum.required Datum.bool? required
      let multiple ← Datum.required Datum.bool? multiple
      let placeholder ← Datum.optional Datum.text? placeholder
      let description ← Datum.optional Datum.text? description
      let defaultValue ← Datum.optional DefaultValue.ofDatum? defaultValue
      let choices ← Datum.defaulting [] Datum.texts? choices
      let hidden ← Datum.required Datum.bool? hidden
      let shared ← Datum.required Datum.bool? shared
      let nested ← Datum.optional nestedOfDatum? nested
      return ⟨name, flags, isFlag, required, multiple, placeholder, description, defaultValue,
        choices, hidden, shared, nested⟩ := by
  rw [ofDatum?]
  split
  · rename_i h'
    rw [h] at h'
    obtain ⟨rfl, rfl, rfl, rfl, rfl, rfl, rfl, rfl, rfl, rfl, rfl, rfl⟩ := by simpa using h'
    -- Only a list can hold entries; that its members are known to be smaller does not matter here.
    rcases nested with - | - | - | - | - | - | ds | - | -
    case some.sequence =>
      have hattach : (ds.attach.mapM fun (x : { x // x ∈ ds }) => ofDatum? x.1) =
          ds.mapM ofDatum? := by
        rw [List.mapM_subtype fun _ _ => rfl, List.unattach_attach]
      simp only [hattach]
      rfl
    all_goals rfl
  · rename_i hno
    exact absurd h (hno _ _ _ _ _ _ _ _ _ _ _ _)

theorem nestedOfDatum?_sequence (h : ∀ n ∈ es, ofDatum? (n.document.datum order) = some n) :
    nestedOfDatum? (.sequence (es.map fun n => n.document.datum order)) = some es :=
  mapM_map_eq_some h

/-- An entry comes back as it was if the entries inside it do. -/
theorem ofDatum?_datum_of_nested
    (hvalue : ∀ x, e.defaultValue = some (.number x) → x.isFinite)
    (hnested : ∀ es, e.nested = some es → ∀ n ∈ es, ofDatum? (n.document.datum order) = some n) :
    ofDatum? (e.document.datum order) = some e := by
  have hflags := Datum.optional_map (f := Datum.texts?) rfl (x := e.flags)
    fun xs _ => Datum.texts?_ofTexts xs
  have hplaceholder := Datum.optional_map (f := Datum.text?) (g := Datum.text) rfl
    (x := e.placeholder) fun _ _ => rfl
  have hdescription := Datum.optional_map (f := Datum.text?) (g := Datum.text) rfl
    (x := e.description) fun _ _ => rfl
  have hdefault := Datum.optional_map (f := DefaultValue.ofDatum?)
    (g := fun v => v.document.datum order) rfl (x := e.defaultValue)
    fun v hv => DefaultValue.ofDatum?_datum order fun x hx => hvalue x (by rw [hv, hx])
  have hinside := Datum.optional_map (f := nestedOfDatum?)
    (g := fun es => .sequence (es.map fun n => n.document.datum order)) rfl (x := e.nested)
    fun es hes => nestedOfDatum?_sequence (hnested es hes)
  rw [ofDatum?_of_record? (record?_datum order e), hflags, hplaceholder, hdescription, hdefault,
    hinside]
  simp only [Datum.required, Datum.defaulting, Datum.texts?_ofTexts, Datum.text?, Datum.bool?,
    Option.bind_eq_bind, Option.bind_some, Option.pure_def]
  cases e
  rfl

/-- Entries are finite, so that what goes from the entries inside one to itself goes for all. -/
theorem induction_nested {P : Entry → Prop}
    (step : ∀ e, (∀ es, e.nested = some es → ∀ n ∈ es, P n) → P e) (e : Entry) : P e := by
  induction hsize : sizeOf e using Nat.strong_induction_on generalizing e with
  | _ size ih =>
    refine step e fun es hes n hn => ih (sizeOf n) ?_ n rfl
    have hlt := List.sizeOf_lt_of_mem hn
    obtain ⟨_, _, _, _, _, _, _, _, _, _, _, nested⟩ := e
    obtain rfl : nested = some es := hes
    simp only [← hsize, mk.sizeOf_spec, Option.some.sizeOf_spec]
    omega

theorem IsFinite.same_self (h : e.IsFinite) : e.same e = true := by
  induction e using induction_nested with
  | step e ih =>
    exact Entry.same_self (h e .self) fun es hes n hn => ih es hes n hn (h.nested hes n hn)

/-- What is read from a written entry is that entry, which equals itself. A field is left out only
where there is no value, and the kind of a default value is that of what is written for it. -/
theorem ofDatum?_document (order : FieldOrder) (h : e.IsFinite) :
    ofDatum? (e.document.datum order) = some e ∧ e.same e = true ∧
      (e.document.datum order).record? fieldNames = some (e.values order) ∧
      ∀ v, e.defaultValue = some v →
        (DefaultValue.readers.findSome? fun read => read (v.document.datum order)) = some v := by
  refine ⟨?_, h.same_self, record?_datum order e, ?_⟩
  · induction e using induction_nested with
    | step e ih =>
      exact ofDatum?_datum_of_nested (h e .self) fun es hes n hn =>
        ih es hes n hn (h.nested hes n hn)
  · intro v hv
    rw [← DefaultValue.ofDatum?_eq_findSome?]
    exact DefaultValue.ofDatum?_datum order fun x hx => h e .self x (by rw [hv, hx])

theorem ofDatum?_document_stack :
    let sub (name : String) (v : DefaultValue) (inside : Option (List Entry)) : Entry :=
      ⟨name, none, false, false, false, none, none, some v, [], false, true, inside⟩
    let push := sub "push" (.text "true")
      (some [sub "times" (.text "5") none, sub "rate" (.number ⟨0x4014000000000000⟩) (some [])])
    let stack := sub "stack" (.list []) (some [push])
    stack.IsFinite ∧ ofDatum? (stack.document.datum .sorted) = some stack ∧
      ofDatum? (stack.document.datum .kept) = some stack := by
  intro sub push stack
  have hsub (name : String) {v : DefaultValue} {inside : List Entry}
      (hv : ∀ x, v = .number x → x.isFinite) (hinside : ∀ n ∈ inside, n.IsFinite) :
      (sub name v (some inside)).IsFinite :=
    .intro (fun x hx => hv x (Option.some.inj hx)) fun es hes => Option.some.inj hes ▸ hinside
  have htimes : (sub "times" (.text "5") none).IsFinite := .intro (by simp [sub]) (by simp [sub])
  have hrate : (sub "rate" (.number ⟨0x4014000000000000⟩) (some [])).IsFinite := by
    refine hsub "rate" (fun x hx => ?_) (by simp)
    obtain rfl := DefaultValue.number.inj hx
    decide +kernel
  have hpush : push.IsFinite := hsub "push" (by simp) (by simpa using ⟨htimes, hrate⟩)
  have hfinite : stack.IsFinite := hsub "stack" (by simp) (by simpa using hpush)
  exact ⟨hfinite, (ofDatum?_document .sorted hfinite).1, (ofDatum?_document .kept hfinite).1⟩

end Entry

end ConsoleSignature
