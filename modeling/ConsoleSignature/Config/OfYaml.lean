import ConsoleSignature.Config
import ConsoleSignature.Yaml.Node.Datum

/-!
Reading a configuration from YAML. What a scalar stands for depends on the field: a text may be
spelled in any way, a number and a truth value only plainly.
-/
namespace ConsoleSignature.Config

open Yaml

/-- Stands for nothing, as a value that is left out does. -/
def isVoid (n : Node) : Bool :=
  match n with
  | .scalar _ style text => style == .plain && text.isEmpty
  | _ => false

def follow? (t : Tree) (n : Node) : Option Node :=
  match n with
  | .alias number => t.anchored? number
  | n => some n

def text? (t : Tree) (n : Node) : Option String := do
  match ← follow? t n with
  | .scalar _ _ text => return String.ofList text
  | _ => none

def texts? (t : Tree) (n : Node) : Option (List String) := do
  match ← follow? t n with
  | .sequence _ items => items.mapM (text? t)
  | n => if isVoid n then return [] else none

/-- Whether the spelling decides the meaning: in a plain scalar, or a literal one with the type's
tag. -/
def isSpelled (type : String) (tag : Option Tag) (style : ScalarStyle) : Bool :=
  style == .plain || (style == .literal && tag == some (Tag.core type))

def bool? (t : Tree) (n : Node) : Option Bool := do
  match ← follow? t n with
  | .scalar tag style text => if isSpelled "bool" tag style then Scalar.bool? text else none
  | _ => none

/-- Whether a scalar is null. A null tag on anything else is refused. -/
def isNull? (tag : Option Tag) (style : ScalarStyle) (text : List Char) : Option Bool :=
  if style ≠ .plain then some false
  else
    match tag with
    | none => some (Scalar.isNull text)
    | some tag =>
      if tag ≠ Tag.core "null" then some false
      else if Scalar.isNull text ∧ text ≠ [] then some true
      else none

def count? (t : Tree) (n : Node) : Option (Option Nat) := do
  match ← follow? t n with
  | .scalar tag style text =>
    if ← isNull? tag style text then return none
    else if isSpelled "int" tag style then
      return some (← (Scalar.integer? text).bind Datum.count?)
    else none
  | _ => none

/-- The value of the one field of this name, if there is any. -/
def field? (fields : List (String × Node)) (name : String) : Option (Option Node) :=
  match fields.filter (·.1 == name) with
  | [] => some none
  | [(_, n)] => some (some n)
  | _ => none

/-- The value read from the field, or else the standard one. -/
def read? {α : Type} (fields : List (String × Node)) (name : String) (standard : α)
    (f : Node → Option α) : Option α := do
  match ← field? fields name with
  | some n => f n
  | none => return standard

def fields? (t : Tree) : Option (List (String × Node)) :=
  match t.root with
  | none => some []
  | some (.mapping _ fields) => fields.mapM fun (k, n) => (text? t k).map (·, n)
  | some n => if isVoid n then some [] else none

def ofTree? (t : Tree) : Option Config := do
  let fs ← fields? t
  let version ← read? fs "version" standard.version (text? t)
  let cliName ← read? fs "cli_name" standard.cliName (text? t)
  let discoveryPaths ← read? fs "discovery_paths" standard.discoveryPaths (texts? t)
  let exclude ← read? fs "exclude" standard.exclude (texts? t)
  let jobs ← read? fs "jobs" standard.jobs (count? t)
  let includeHidden ← read? fs "include_hidden" standard.includeHidden (bool? t)
  return ⟨version, cliName, discoveryPaths, exclude, jobs, includeHidden⟩

def ofYaml? (s : String) : Option Config := (Tree.ofText? s.toList).bind ofTree?

end ConsoleSignature.Config
