import ConsoleSignature.Definition
import ConsoleSignature.Proofs.Datum

/-!
Definitions that are written and read back, one by one or in a list, whatever the order of their
fields.
-/
namespace ConsoleSignature

open Document (FieldOrder)

theorem Datum.fieldsReadable_iff {fs : List (Datum × Datum)} :
    fieldsReadable fs ↔ ∀ f ∈ fs, f.1.isReadable ∧ f.2.isReadable := by
  induction fs with
  | nil => simp [fieldsReadable]
  | cons f fs ih =>
    obtain ⟨k, d⟩ := f
    simp [fieldsReadable, ih]

namespace Document

mutual

/-- Whatever is written denotes a value. -/
theorem isReadable_datum (order : FieldOrder) : ∀ d : Document, (d.datum order).isReadable
  | bool _ | count _ | text _ => by simp [datum, Datum.isReadable]
  | number x => by
    rw [datum]
    split <;> simp [Datum.isReadable]
  | list ds => by
    rw [datum, Datum.isReadable]
    exact areReadable_data order ds
  | record fs => by
    rw [datum, Datum.isReadable, Datum.fieldsReadable_iff]
    intro f hf
    exact Datum.fieldsReadable_iff.1 (fieldsReadable_fieldData order fs) f
      ((order.perm _).mem_iff.1 hf)

theorem areReadable_data (order : FieldOrder) :
    ∀ ds : List Document, Datum.areReadable (data order ds)
  | [] => rfl
  | d :: ds => by
    rw [data, Datum.areReadable, isReadable_datum order d, areReadable_data order ds]
    rfl

theorem fieldsReadable_fieldData (order : FieldOrder) :
    ∀ fs : List (String × Document), Datum.fieldsReadable (fieldData order fs)
  | [] => rfl
  | (k, d) :: fs => by
    rw [fieldData, Datum.fieldsReadable, isReadable_datum order d,
      fieldsReadable_fieldData order fs]
    rfl

end

end Document

namespace Definition

/-- The values of a definition's fields as they are written; those that it lacks are left out. -/
def values (d : Definition) : List (Option Datum) :=
  [some (.text d.signature), d.description.map .text, d.source.map .text]

theorem datum_document (order : FieldOrder) (d : Definition) :
    d.document.datum order = .mapping (order.arrange (Datum.present fieldNames d.values)) := by
  simp only [document, Document.datum, Document.fieldData_append, Document.fieldData_field?,
    Document.fieldData, values, fieldNames, Datum.present_cons, Option.map_map, Function.comp_def]
  simp [Datum.present]

theorem ofDatum?_datum (order : FieldOrder) (d : Definition) :
    ofDatum? (d.document.datum order) = some d := by
  have hrecord : (d.document.datum order).record? fieldNames = some d.values := by
    rw [datum_document]
    exact Datum.record?_present (by decide) rfl (order.perm _)
  have hoptional (x : Option String) : Datum.optional Datum.text? (x.map .text) = some x :=
    Datum.optional_map rfl fun _ _ => rfl
  rw [ofDatum?, hrecord]
  simp only [values, hoptional]
  rfl

theorem listOfDatum?_list (order : FieldOrder) (ds : List Definition) :
    listOfDatum? ((Document.list (ds.map document)).datum order) = some ds := by
  have hread : ((ds.map document).map (Document.datum order)).mapM ofDatum? = some ds := by
    rw [List.map_map]
    exact mapM_map_eq_some fun d _ => ofDatum?_datum order d
  rw [listOfDatum?, if_pos (Document.isReadable_datum order _), Document.datum,
    Document.data_eq_map, Datum.sequence?, Option.bind_some, hread]
  rfl

theorem listOfDatum?_document (order : FieldOrder) (d : Definition) :
    listOfDatum? (d.document.datum order) = some [d] := by
  rw [listOfDatum?, if_pos (Document.isReadable_datum order _), ofDatum?_datum, datum_document]
  rfl

end Definition

end ConsoleSignature
