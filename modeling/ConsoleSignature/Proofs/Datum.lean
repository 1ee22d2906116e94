import Mathlib.Data.List.Nodup
import ConsoleSignature.Document
import ConsoleSignature.Proofs.Sequence

/-!
Records that are read back. In whatever order the fields of a record come, each value is found under
its name, and what was left out is missing.
-/
namespace ConsoleSignature

namespace Datum

open scoped List

variable {α β : Type} {names : List String} {vs : List (Option Datum)} {v w : Datum}
  {fs gs : List (Datum × Datum)} {f : Datum → Option α} {g : α → Datum}

/-- Puts a value in its place if there is none. -/
def place? (i : Nat) (v : Datum) (vs : List (Option Datum)) : Option (List (Option Datum)) :=
  if vs[i]?.join.isNone then some (vs.set i (some v)) else none

/-- It does not matter which of two values is put in its place first. -/
theorem place?_comm (i j : Nat) (v w : Datum) (vs : List (Option Datum)) :
    (place? i v vs).bind (place? j w) = (place? j w vs).bind (place? i v) := by
  by_cases hij : i = j
  · -- Both are refused, unless there is no such place at all.
    subst hij
    rcases hi : vs[i]? with - | - | u
    · have hlength : vs.length ≤ i := List.getElem?_eq_none_iff.1 hi
      simp [place?, hi, List.set_eq_of_length_le hlength]
    · obtain ⟨hlt, hget⟩ := List.getElem?_eq_some_iff.1 hi
      simp [place?, hlt, hget]
    · simp [place?, hi]
  · have hj : (vs.set i (some v))[j]? = vs[j]? := List.getElem?_set_ne hij
    have hi : (vs.set j (some w))[i]? = vs[i]? := List.getElem?_set_ne (Ne.symm hij)
    by_cases hni : vs[i]?.join = none <;> by_cases hnj : vs[j]?.join = none <;>
      simp [place?, hi, hj, hni, hnj, List.set_comm _ _ hij]

theorem arrange?_cons (names : List String) (k v : Datum) (fs : List (Datum × Datum)) :
    arrange? names ((k, v) :: fs) = (fieldIndex? names k).bind fun i =>
      (arrange? names fs).bind fun vs =>
        match i with
        | some i => place? i v vs
        | none => some vs := by
  rw [arrange?]
  rcases fieldIndex? names k with - | - | i <;> cases arrange? names fs <;> rfl

theorem arrange?_perm (h : fs ~ gs) : arrange? names fs = arrange? names gs := by
  induction h with
  | nil => rfl
  | cons f _ ih =>
    obtain ⟨k, v⟩ := f
    rw [arrange?_cons, arrange?_cons, ih]
  | swap f g fs =>
    obtain ⟨k, v⟩ := f
    obtain ⟨l, w⟩ := g
    simp only [arrange?_cons]
    rcases fieldIndex? names k with - | - | i <;> rcases fieldIndex? names l with - | - | j <;>
      cases arrange? names fs <;> simp [place?_comm]
  | trans _ _ ih ih' => exact ih.trans ih'

/-- The fields of a record with these values, where it has any. -/
def present (names : List String) (vs : List (Option Datum)) : List (Datum × Datum) :=
  (names.zip vs).filterMap fun (name, v) => v.map (.text name, ·)

theorem present_cons (name : String) (names : List String) (v : Option Datum)
    (vs : List (Option Datum)) :
    present (name :: names) (v :: vs) = (v.map (.text name, ·)).toList ++ present names vs := by
  cases v <;> rfl

theorem fieldIndex?_text {pre : List String} {name : String} (h : name ∉ pre) :
    fieldIndex? (pre ++ name :: names) (.text name) = some (some pre.length) := by
  have hnone : pre.findIdx? (· == name) = none := by
    rw [List.findIdx?_eq_none_iff]
    exact fun x hx => beq_eq_false_iff_ne.2 (ne_of_mem_of_not_mem hx h)
  simp [fieldIndex?, List.findIdx?_append, hnone, List.findIdx?_cons]

/-- The names before are those of fields that are still to come. -/
theorem arrange?_present_append {pre : List String} (hnodup : (pre ++ names).Nodup)
    (hlength : names.length = vs.length) :
    arrange? (pre ++ names) (present names vs) =
      some (List.replicate pre.length none ++ vs) := by
  induction names generalizing pre vs with
  | nil =>
    obtain rfl : vs = [] := List.length_eq_zero_iff.1 hlength.symm
    simp [present, arrange?]
  | cons name names ih =>
    obtain ⟨v, vs, rfl⟩ := List.exists_cons_of_length_eq_add_one hlength.symm
    -- The fields are placed from the last one on, so that this one still finds its place free.
    have hrest : arrange? (pre ++ [name] ++ names) (present names vs) =
        some (List.replicate (pre ++ [name]).length none ++ vs) :=
      ih (by simpa using hnodup) (by simpa using hlength)
    rw [List.append_assoc, List.singleton_append, List.length_append, List.length_singleton,
      List.replicate_succ', List.append_assoc, List.singleton_append] at hrest
    cases v with
    | none => exact hrest
    | some v =>
      have hname : name ∉ pre := fun hmem =>
        (List.nodup_append.1 hnodup).2.2 name hmem name List.mem_cons_self rfl
      have hpresent : present (name :: names) (some v :: vs) =
        (.text name, v) :: present names vs := rfl
      rw [hpresent, arrange?_cons, fieldIndex?_text hname, hrest]
      simp [place?, List.set_append_right]

/-- What a record holds is found in it, whatever the order of its fields. -/
theorem record?_present (hnodup : names.Nodup) (hlength : names.length = vs.length)
    (h : fs ~ present names vs) : (mapping fs).record? names = some vs := by
  rw [record?, arrange?_perm h]
  have hnone : ([] ++ names).Nodup := hnodup
  exact arrange?_present_append hnone hlength

theorem optional_map (hnull : f .null = none) {x : Option α} (h : ∀ a ∈ x, f (g a) = some a) :
    optional f (x.map g) = some x := by
  cases x with
  | none => rfl
  | some a =>
    have ha := h a rfl
    cases hg : g a <;> simp_all [optional]

/-- Texts as they are written in a list. -/
def ofTexts (xs : List String) : Datum := .sequence (xs.map .text)

theorem texts?_ofTexts (xs : List String) : texts? (ofTexts xs) = some xs :=
  mapM_map_eq_some fun _ _ => rfl

end Datum

namespace Document

variable {order : FieldOrder} {fs gs : List (String × Document)}

theorem data_eq_map (order : FieldOrder) (ds : List Document) :
    data order ds = ds.map (datum order) := by
  induction ds with
  | nil => rfl
  | cons d ds ih => rw [data, ih, List.map_cons]

theorem datum_texts (order : FieldOrder) (xs : List String) :
    (texts xs).datum order = .ofTexts xs := by
  simp [texts, datum, data_eq_map, Datum.ofTexts, Function.comp_def]

theorem fieldData_eq_map (order : FieldOrder) (fs : List (String × Document)) :
    fieldData order fs = fs.map fun f => (.text f.1, f.2.datum order) := by
  induction fs with
  | nil => rfl
  | cons f fs ih => rw [fieldData, ih, List.map_cons]

theorem fieldData_append (order : FieldOrder) (fs gs : List (String × Document)) :
    fieldData order (fs ++ gs) = fieldData order fs ++ fieldData order gs := by
  rw [fieldData_eq_map, fieldData_eq_map, fieldData_eq_map, List.map_append]

theorem fieldData_field? (order : FieldOrder) (name : String) (d : Option Document) :
    fieldData order (field? name d) = ((d.map (datum order)).map (.text name, ·)).toList := by
  cases d <;> rfl

end Document

end ConsoleSignature
