import ConsoleSignature.Document
import ConsoleSignature.Entry

/-! Default values and entries as records: how they are written, and how they are read back. -/
namespace ConsoleSignature

theorem Datum.sizeOf_lt_of_mem_arrange? {names : List String} {fs : List (Datum × Datum)}
    {vs : List (Option Datum)} {d : Datum} (h : arrange? names fs = some vs) (hd : some d ∈ vs) :
    sizeOf d < sizeOf fs := by
  induction fs generalizing vs with
  | nil =>
    simp only [arrange?, Option.some.injEq] at h
    subst h
    simp at hd
  | cons f fs ih =>
    obtain ⟨k, v⟩ := f
    simp only [arrange?] at h
    split at h
    · rename_i ws _ hw
      obtain rfl : ws = vs := by simpa using h
      have := ih hw hd
      simp only [List.cons.sizeOf_spec]
      omega
    · rename_i i ws _ hw
      simp only [Option.ite_none_right_eq_some, Option.some.injEq] at h
      obtain ⟨-, rfl⟩ := h
      rcases List.mem_or_eq_of_mem_set hd with hm | he
      · have := ih hw hm
        simp only [List.cons.sizeOf_spec]
        omega
      · obtain rfl : d = v := by simpa using he
        simp only [List.cons.sizeOf_spec, Prod.mk.sizeOf_spec]
        omega
    · simp at h

theorem Datum.sizeOf_lt_of_mem_record? {names : List String} {r d : Datum}
    {vs : List (Option Datum)} (h : r.record? names = some vs) (hd : some d ∈ vs) :
    sizeOf d < sizeOf r := by
  unfold record? at h
  split at h
  · have := sizeOf_lt_of_mem_arrange? h hd
    simp only [mapping.sizeOf_spec]
    omega
  · simp only [Option.ite_none_right_eq_some, Option.some.injEq] at h
    obtain ⟨-, rfl⟩ := h
    rcases List.mem_append.1 hd with hm | hm
    · have := List.sizeOf_lt_of_mem (show d ∈ _ by simpa using hm)
      simp only [sequence.sizeOf_spec]
      omega
    · simp at hm
  · simp at h

namespace DefaultValue

def document : DefaultValue → Document
  | bool b => .bool b
  | number x => .number x
  | text s => .text s
  | list xs => .texts xs

/-- The value itself shows which of the four kinds it is. -/
def ofDatum? : Datum → Option DefaultValue
  | .bool b => some (bool b)
  | .integer i => some (number (Binary64.ofInt i))
  | .number x => some (number x)
  | .text s => some (text s)
  | .sequence xs => (xs.mapM Datum.text?).map list
  | _ => none

end DefaultValue

namespace Entry

def fieldNames : List String :=
  ["name", "flags", "is_flag", "required", "multiple", "placeholder", "description",
    "default_value", "choices", "is_hidden", "shared", "nested_options"]

mutual

def document : Entry → Document
  | ⟨name, flags, isFlag, required, multiple, placeholder, description, defaultValue, choices,
      hidden, shared, nested⟩ =>
    .record ([("name", .text name)]
      ++ Document.field? "flags" (flags.map .texts)
      ++ [("is_flag", .bool isFlag), ("required", .bool required), ("multiple", .bool multiple)]
      ++ Document.field? "placeholder" (placeholder.map .text)
      ++ Document.field? "description" (description.map .text)
      ++ Document.field? "default_value" (defaultValue.map DefaultValue.document)
      ++ [("choices", .texts choices), ("is_hidden", .bool hidden), ("shared", .bool shared)]
      ++ Document.field? "nested_options" (nestedDocument nested))

def nestedDocument : Option (List Entry) → Option Document
  | none => none
  | some es => some (.list (documents es))

def documents : List Entry → List Document
  | [] => []
  | e :: es => document e :: documents es

end

/-- Reads an entry. The choices and all that an entry may lack may be missing. -/
def ofDatum? (d : Datum) : Option Entry :=
  match _h : d.record? fieldNames with
  | some [name, flags, isFlag, required, multiple, placeholder, description, defaultValue, choices,
      hidden, shared, nested] => do
    let name ← Datum.required Datum.text? name
    let flags ← Datum.optional Datum.texts? flags
    let isFlag ← Datum.required Datum.bool? isFlag
    let required ← Datum.required Datum.bool? required
    let multiple ← Datum.required Datum.bool? multiple
    let placeholder ← Datum.optional Datum.text? placeholder
    let description ← Datum.optional Datum.text? description
    let defaultValue ← Datum.optional DefaultValue.ofDatum? defaultValue
    let choices ← Datum.defaulting [] Datum.texts? choices
    let hidden ← Datum.required Datum.bool? hidden
    let shared ← Datum.required Datum.bool? shared
    let nested ← match _hn : nested with
      | none | some .null => some none
      | some (.sequence ds) =>
        (ds.attach.mapM fun (x : { x // x ∈ ds }) => ofDatum? x.1).map some
      | some _ => none
    return ⟨name, flags, isFlag, required, multiple, placeholder, description, defaultValue,
      choices, hidden, shared, nested⟩
  | _ => none
termination_by sizeOf d
decreasing_by
  have h1 := Datum.sizeOf_lt_of_mem_record? _h (d := .sequence ds) (by simp [_hn])
  have h2 := List.sizeOf_lt_of_mem x.2
  simp only [Datum.sequence.sizeOf_spec] at h1
  omega

end Entry

end ConsoleSignature
