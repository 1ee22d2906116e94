import ConsoleSignature.Files.Path

/-!
File trees: the files and directories that a path can lead to, and what an operation on a path says
when it cannot be done. A location is the list of names on the way to a file; what lies outside the
tree's own directory starts with names that no file can have.
-/
namespace ConsoleSignature

inductive FileError where
  | notFound
  | alreadyExists
  | notDirectory
  | isDirectory
  | invalid
  | nameTooLong
  | nameHoldsNul
  | notText
deriving DecidableEq, Inhabited, Repr

def FileError.message : FileError → String
  | notFound => "No such file or directory (os error 2)"
  | alreadyExists => "File exists (os error 17)"
  | notDirectory => "Not a directory (os error 20)"
  | isDirectory => "Is a directory (os error 21)"
  | invalid => "Invalid argument (os error 22)"
  | nameTooLong => "File name too long (os error 36)"
  | nameHoldsNul => "file name contained an unexpected NUL byte"
  | notText => "stream did not contain valid UTF-8"

inductive Item where
  | file (content : ByteArray)
  | directory
deriving Inhabited

abbrev Location := List String

structure FileTree where
  items : List (Location × Item)
deriving Inhabited

namespace FileTree

def empty : FileTree := ⟨[]⟩

/-- The directory of the tree itself, those around it and the topmost one are always there. -/
def isGiven (l : Location) : Bool := l.all (· == "..") || l == ["/"]

def item? (t : FileTree) (l : Location) : Option Item :=
  if isGiven l then some .directory else t.items.lookup l

def insert (t : FileTree) (l : Location) (i : Item) : FileTree :=
  ⟨(l, i) :: t.items.filter (·.1 != l)⟩

def up (l : Location) : Location :=
  if l.all (· == "..") then l ++ [".."] else if l = ["/"] then l else l.dropLast

/-- Where a part of a path leads from a location. -/
def enter (l : Location) (piece : String) : Location :=
  if piece = "" ∨ piece = "." then l else if piece = ".." then up l else l ++ [piece]

/-- The bytes that a name may have. -/
def maxName : Nat := 255

/-- The bytes that a path may have. -/
def maxPath : Nat := 4095

/-- Follows the parts of a path. All but the last must lead to directories. -/
def walk (t : FileTree) (l : Location) : List String → Except FileError Location
  | [] => .ok l
  | p :: ps =>
    match t.item? l with
    | none => .error .notFound
    | some (.file _) => .error .notDirectory
    | some .directory =>
      if maxName < p.utf8ByteSize then .error .nameTooLong else t.walk (enter l p) ps

/-- Follows the parts of a path that may itself be used at all. -/
def follow (t : FileTree) (path : String) (pieces : List String) : Except FileError Location :=
  if path.toList.contains '\x00' then .error .nameHoldsNul
  else if path = "" then .error .notFound
  else if maxPath < path.utf8ByteSize then .error .nameTooLong
  else t.walk (if Path.isAbsolute path then ["/"] else []) pieces

/-- The location of a path, whether or not there is anything. -/
def locate (t : FileTree) (path : String) : Except FileError Location :=
  t.follow path (Path.pieces path)

def find (t : FileTree) (path : String) : Except FileError (Location × Item) := do
  let l ← t.locate path
  match t.item? l with
  | some i => return (l, i)
  | none => throw .notFound

def isFile (t : FileTree) (path : String) : Bool :=
  match t.find path with
  | .ok (_, .file _) => true
  | _ => false

def isDirectory (t : FileTree) (path : String) : Bool :=
  match t.find path with
  | .ok (_, .directory) => true
  | _ => false

def read (t : FileTree) (path : String) : Except FileError ByteArray := do
  match ← t.find path with
  | (_, .file content) => return content
  | (_, .directory) => throw .isDirectory

def textOf (content : ByteArray) : Except FileError String :=
  match String.fromUTF8? content with
  | some s => .ok s
  | none => .error .notText

def readText (t : FileTree) (path : String) : Except FileError String := do
  textOf (← t.read path)

/-- The names of what lies directly in a directory. -/
def children (t : FileTree) (l : Location) : List String :=
  t.items.filterMap fun (k, _) =>
    if k.length = l.length + 1 ∧ l.isPrefixOf k then k.getLast? else none

def list (t : FileTree) (path : String) : Except FileError (List String) := do
  match ← t.find path with
  | (l, .directory) => return t.children l
  | (_, .file _) => throw .notDirectory

end FileTree

end ConsoleSignature
