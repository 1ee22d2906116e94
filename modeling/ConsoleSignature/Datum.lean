import ConsoleSignature.Number.Binary64

/-!
Data that was read from a text, before it is known what they mean, and the two ways in which they
spell a record: field by name, or the values alone in the order of the fields.
-/
namespace ConsoleSignature

inductive Datum where
  | null
  | bool (b : Bool)
  | integer (i : Int)
  | number (x : Binary64)
  | text (s : String)
  | sequence (xs : List Datum)
  | mapping (fields : List (Datum × Datum))
  /-- Something well formed that denotes no value, such as a number that is out of range. -/
  | unreadable
deriving Inhabited, Repr

namespace Datum

mutual

/-- Whether all of it denotes values. -/
def isReadable : Datum → Bool
  | unreadable => false
  | sequence xs => areReadable xs
  | mapping fs => fieldsReadable fs
  | _ => true

def areReadable : List Datum → Bool
  | [] => true
  | d :: ds => isReadable d && areReadable ds

def fieldsReadable : List (Datum × Datum) → Bool
  | [] => true
  | (k, d) :: fs => isReadable k && isReadable d && fieldsReadable fs

end

mutual

/-- Containers that stand in more than so many levels become unreadable. -/
def limitDepth : Nat → Datum → Datum
  | levels + 1, sequence xs => sequence (limitDepths levels xs)
  | levels + 1, mapping fs => mapping (limitFieldDepths levels fs)
  | 0, sequence _ | 0, mapping _ => unreadable
  | _, d => d

def limitDepths (levels : Nat) : List Datum → List Datum
  | [] => []
  | d :: ds => limitDepth levels d :: limitDepths levels ds

def limitFieldDepths (levels : Nat) : List (Datum × Datum) → List (Datum × Datum)
  | [] => []
  | (k, d) :: fs => (limitDepth levels k, limitDepth levels d) :: limitFieldDepths levels fs

end

/-- The field that a key stands for: its name, or its number from zero. Other names and numbers
stand for fields that are not looked at, which is the inner `none`; other keys are refused. -/
def fieldIndex? (names : List String) : Datum → Option (Option Nat)
  | text s => some (names.findIdx? (· == s))
  | integer i => if 0 ≤ i then some (if i < names.length then some i.toNat else none) else none
  | _ => none

/-- Puts the values in the order of the fields. A field that is given twice is refused. -/
def arrange? (names : List String) : List (Datum × Datum) → Option (List (Option Datum))
  | [] => some (names.map fun _ => none)
  | (k, d) :: fs =>
    match fieldIndex? names k, arrange? names fs with
    | some none, some vs => some vs
    | some (some i), some vs => if vs[i]?.join.isNone then some (vs.set i (some d)) else none
    | _, _ => none

/-- The values of the named fields, where given. -/
def record? (names : List String) : Datum → Option (List (Option Datum))
  | mapping fs => arrange? names fs
  | sequence xs =>
    if xs.length ≤ names.length then
      some (xs.map some ++ List.replicate (names.length - xs.length) none)
    else none
  | _ => none

def bool? : Datum → Option Bool
  | bool b => some b
  | _ => none

def text? : Datum → Option String
  | text s => some s
  | _ => none

def sequence? : Datum → Option (List Datum)
  | sequence xs => some xs
  | _ => none

/-- An integer that fits in 64 bits without a sign. -/
def count? : Datum → Option Nat
  | integer i => if 0 ≤ i ∧ i.toNat < UInt64.size then some i.toNat else none
  | _ => none

def texts? (d : Datum) : Option (List String) := d.sequence?.bind (·.mapM text?)

/-- A field that must be given. -/
def required {α : Type} (f : Datum → Option α) (d : Option Datum) : Option α := d.bind f

/-- A field that may be missing, but not be null. -/
def defaulting {α : Type} (default : α) (f : Datum → Option α) : Option Datum → Option α
  | none => some default
  | some d => f d

/-- A field that may be missing or null. -/
def optional {α : Type} (f : Datum → Option α) : Option Datum → Option (Option α)
  | none | some null => some none
  | some d => (f d).map some

end Datum

end ConsoleSignature
