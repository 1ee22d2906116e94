import ConsoleSignature.Config.OfYaml
import ConsoleSignature.Definition
import ConsoleSignature.Files.Tree.Change
import ConsoleSignature.Json.Reading
import ConsoleSignature.Yaml.Writing

/-!
Definitions in files: which files hold some, and what they hold. The files are in order of their
paths, and none is read twice.
-/
namespace ConsoleSignature

inductive LibraryError where
  | file (e : FileError)
  | json
  | yaml
  | noInputs
  | unsuitable (path : String)
  | missing (path : String)
  | nothingFound
  /-- The workers that are to compile the definitions do not start. -/
  | workers
deriving DecidableEq, Inhabited, Repr

def LibraryError.message : LibraryError → String
  | file e => "I/O error: " ++ e.message
  | json => "JSON error"
  | yaml => "YAML error"
  | noInputs => "No definition paths were provided"
  | unsuitable path =>
    "Definition file '" ++ path ++ "' must end in .sig, .signature, .yml, .yaml or .json"
  | missing path => "Definition path '" ++ path ++ "' does not exist"
  | nothingFound => "No definition files found in provided paths"
  | workers => "thread pool error"

namespace Library

/-- What a file holds, by the extension of its name: bare signatures, JSON or YAML. -/
inductive Kind where
  | signature
  | json
  | yaml
deriving DecidableEq

def kindOf? (path : String) : Option Kind :=
  match Path.extension? path with
  | some e =>
    if e = "sig" ∨ e = "signature" then some .signature
    else if e = "json" then some .json
    else if e = "yml" ∨ e = "yaml" then some .yaml
    else none
  | none => none

def holdsDefinitions (path : String) : Bool := (kindOf? path).isSome

/-- The order in which a directory gives its names. It may be another each time. -/
structure ListingOrder where
  arrange : Nat → List String → List String
  perm : ∀ time names, (arrange time names).Perm names

/-- The names come as they are kept. -/
def ListingOrder.kept : ListingOrder := ⟨fun _ names => names, fun _ names => .refl names⟩

/-- The files that an input names: itself, or the definition files directly inside it. -/
def filesOf (t : FileTree) (arrange : List String → List String) (input : String) :
    Except LibraryError (List String) :=
  if t.isDirectory input then
    match t.list input with
    | .ok names =>
      .ok (((arrange names).map (Path.join input)).filter fun p =>
        t.isFile p && holdsDefinitions p)
    | .error e => .error (.file e)
  else if t.isFile input then
    if holdsDefinitions input then .ok [input] else .error (.unsuitable input)
  else .error (.missing input)

/-- Of paths with the same components the first. -/
def distinct : List String → List String
  | [] => []
  | p :: ps => p :: (distinct ps).filter (!Path.same p ·)

def sorted (ps : List String) : List String := (distinct ps).mergeSort fun p q => !Path.before q p

def filesOfEach (order : ListingOrder) (t : FileTree) (inputs : List String) :
    Except LibraryError (List (List String)) :=
  inputs.zipIdx.mapM fun (input, i) => filesOf t (order.arrange i) input

/-- The definition files of all inputs. The first input that is no good decides the error. -/
def collectIn (order : ListingOrder) (t : FileTree) (inputs : List String) :
    Except LibraryError (List String) := do
  if inputs.isEmpty then throw .noInputs
  let files := (← filesOfEach order t inputs).flatten
  if files.isEmpty then throw .nothingFound
  return sorted files

def collect (t : FileTree) (inputs : List String) : Except LibraryError (List String) :=
  collectIn .kept t inputs

/-- The definitions in a text. A file with another extension than these is read as YAML. -/
def decode (kind : Option Kind) (text : String) : Except LibraryError (List Definition) :=
  match kind with
  | some .signature => .ok [Definition.ofSignature text]
  | some .json =>
    match (Json.read? text).bind Definition.listOfDatum? with
    | some ds => .ok ds
    | none => .error .json
  | _ =>
    match (Yaml.read? text).bind Definition.listOfDatum? with
    | some ds => .ok ds
    | none => .error .yaml

/-- The definitions of a file, each with a source. -/
def loadFile (t : FileTree) (path : String) : Except LibraryError (List Definition) := do
  let text ← (t.readText path).mapError .file
  return (← decode (kindOf? path) text).map (Definition.fillSource path)

def load (t : FileTree) (paths : List String) : Except LibraryError (List Definition) := do
  return (← paths.mapM (loadFile t)).flatten

end Library

namespace Config

def defaultFile : String := ".signatures.yml"

/-- A directory can be opened but holds no configuration, and neither do bytes that are not text. -/
def load (t : FileTree) (path : String) : Except LibraryError Config :=
  match t.find path with
  | .error e => .error (.file e)
  | .ok (_, .directory) => .error .yaml
  | .ok (_, .file content) =>
    match (String.fromUTF8? content).bind Config.ofYaml? with
    | some c => .ok c
    | none => .error .yaml

def save (c : Config) (t : FileTree) (path : String) : Except LibraryError FileTree :=
  (t.write path c.document.yaml.toUTF8).mapError .file

end Config

end ConsoleSignature
