import ConsoleSignature.Files.Tree

/-!
Changes of a file tree. A file is written whole or not at all. What makes or removes several
directories may fail halfway, and then gives the tree with what was done so far beside the error.
-/
namespace ConsoleSignature.FileTree

/-- Takes away an item and all below it. -/
def erase (t : FileTree) (l : Location) : FileTree := ⟨t.items.filter fun (k, _) => !l.isPrefixOf k⟩

/-- Takes away all below a location. -/
def clear (t : FileTree) (l : Location) : FileTree :=
  ⟨t.items.filter fun (k, _) => k == l || !l.isPrefixOf k⟩

/-- The parts of a path without slashes at its end. -/
def piecesToName (path : String) : List String :=
  ((Path.pieces path).reverse.dropWhile (· == "")).reverse

def endsInSlash (path : String) : Bool := path.toList.getLast? == some '/'

/-- Puts a file in place of the one there, if there is one. A slash at the end asks for a directory.
-/
def write (t : FileTree) (path : String) (content : ByteArray) : Except FileError FileTree := do
  if endsInSlash path then
    let _ ← t.follow path ((piecesToName path).dropLast ++ [""])
    throw .isDirectory
  else
    let l ← t.locate path
    match t.item? l with
    | some .directory => throw .isDirectory
    | _ => return t.insert l (.file content)

/-- Makes a directory in one that is there. -/
def makeDirectory (t : FileTree) (path : String) : Except FileError FileTree := do
  let l ← t.follow path (piecesToName path)
  match t.item? l with
  | some _ => throw .alreadyExists
  | none => return t.insert l .directory

/-- Makes a directory where there is none yet. -/
def ensureDirectory (t : FileTree) (path : String) : FileTree × Option FileError :=
  match t.makeDirectory path with
  | .ok t => (t, none)
  | .error e => (t, if t.isDirectory path then none else some e)

/-- Makes the first of some paths, each of which lies in the next. Those after it are made only if
it cannot be found without them. -/
def ensureFirst (t : FileTree) : List String → FileTree × Option FileError
  | [] => (t, none)
  | p :: ps =>
    match t.ensureDirectory p with
    | (t, some .notFound) =>
      match t.ensureFirst ps with
      | (t, none) => t.ensureDirectory p
      | failed => failed
    | done => done

/-- Makes a directory and those on the way to it, as far as they are not there. -/
def makeDirectories (t : FileTree) (path : String) : FileTree × Option FileError :=
  t.ensureFirst (Path.ancestors path)

/-- Takes away an empty directory, which a dot does not name. Where nothing is, nothing is to do. -/
def removeDirectory (t : FileTree) (path : String) : FileTree × Option FileError :=
  match t.locate path with
  | .ok l =>
    if (piecesToName path).getLast? = some "." then (t, some .invalid) else (t.erase l, none)
  | .error .notFound => (t, none)
  | .error e => (t, some e)

/-- Removes a file, or what a directory holds and then the directory. -/
def remove (t : FileTree) (path : String) : FileTree × Option FileError :=
  match t.find path with
  | .ok (l, .file _) => (t.erase l, none)
  | .ok (l, .directory) => (t.clear l).removeDirectory path
  | .error e => (t, some e)

end ConsoleSignature.FileTree
