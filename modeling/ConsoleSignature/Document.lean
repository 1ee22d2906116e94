import ConsoleSignature.Datum

/-! Documents: ordered trees that are to be written, in whatever format. -/
namespace ConsoleSignature

inductive Document where
  | bool (b : Bool)
  | count (n : Nat)
  | number (x : Binary64)
  | text (s : String)
  | list (xs : List Document)
  | record (fields : List (String × Document))
deriving Inhabited, Repr

namespace Document

def texts (xs : List String) : Document := list (xs.map text)

/-- A field that is left out where there is no value. -/
def field? (name : String) (value : Option Document) : List (String × Document) :=
  value.toList.map (name, ·)

/-- A field that is left out where the list is empty. -/
def nonempty? (name : String) (xs : List Document) : List (String × Document) :=
  if xs.isEmpty then [] else [(name, list xs)]

/-- The order in which the fields of a record come back. -/
structure FieldOrder where
  arrange : List (Datum × Datum) → List (Datum × Datum)
  perm : ∀ fs, (arrange fs).Perm fs

/-- The fields come as they were written. -/
def FieldOrder.kept : FieldOrder := ⟨fun fs => fs, fun fs => .refl fs⟩

/-- The fields come sorted by name. -/
def FieldOrder.sorted : FieldOrder where
  arrange fs := fs.mergeSort fun
    | (.text name, _), (.text name', _) => name ≤ name'
    | _, _ => true
  perm fs := List.mergeSort_perm fs _

mutual

/-- What a reader finds in place of the written tree. A number that is not finite cannot be written.
-/
def datum (order : FieldOrder) : Document → Datum
  | bool b => .bool b
  | count n => .integer n
  | number x => if x.isFinite then .number x else .null
  | text s => .text s
  | list xs => .sequence (data order xs)
  | record fs => .mapping (order.arrange (fieldData order fs))

def data (order : FieldOrder) : List Document → List Datum
  | [] => []
  | d :: ds => datum order d :: data order ds

def fieldData (order : FieldOrder) : List (String × Document) → List (Datum × Datum)
  | [] => []
  | (k, d) :: fs => (.text k, datum order d) :: fieldData order fs

end

end Document

end ConsoleSignature
