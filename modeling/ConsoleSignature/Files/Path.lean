import ConsoleSignature.Text.Split

/-!
Paths. A path is kept as it is written, and compared by its components: repeated slashes, a slash at
the end and dots that lead nowhere make no difference.
-/
namespace ConsoleSignature.Path

inductive Component where
  | root
  | current
  | parent
  | named (name : String)
deriving DecidableEq, Inhabited, Repr

namespace Component

def rank : Component → Nat
  | root => 0
  | current => 1
  | parent => 2
  | named _ => 3

/-- Names come last and are ordered by code points. -/
def before : Component → Component → Bool
  | named a, named b => a < b
  | a, b => a.rank < b.rank

end Component

def isAbsolute (path : String) : Bool := path.toList.head? == some '/'

/-- The parts between slashes. -/
def pieces (path : String) : List String := (path.toList.splitOn '/').map String.ofList

def componentOf (piece : String) : Component := if piece = ".." then .parent else .named piece

/-- A dot counts only at the start of a relative path. -/
def components (path : String) : List Component :=
  let ps := pieces path
  let start :=
    if isAbsolute path then [Component.root]
    else if ps.head? = some "." then [Component.current]
    else []
  start ++ (ps.filter fun p => p != "" && p != ".").map componentOf

def same (p q : String) : Bool := components p == components q

def componentsBefore : List Component → List Component → Bool
  | [], [] => false
  | [], _ :: _ => true
  | _ :: _, [] => false
  | a :: as, b :: bs => a.before b || (a == b && componentsBefore as bs)

/-- Component by component; a path comes before those it leads to. -/
def before (p q : String) : Bool := componentsBefore (components p) (components q)

/-- A path inside a directory. An absolute path stays what it is. -/
def join (directory path : String) : String :=
  if isAbsolute path then path
  else if directory = "" ∨ directory.toList.getLast? = some '/' then directory ++ path
  else directory ++ "/" ++ path

/-- Drops parts at the end that are no component. -/
def withoutEmptyEnd (absolute : Bool) (ps : List String) : List String :=
  match ps.length with
  | 0 => []
  | n =>
    let counts (i : Nat) (p : String) : Bool := p != "" && (p != "." || (i = 0 && !absolute))
    let last := (List.range n).reverse.find? fun i => (ps[i]?.map (counts i)).getD false
    ps.take ((last.map (· + 1)).getD (if absolute then 1 else 0))

/-- The path without its last component, unless it has none that can be taken away. -/
def parent? (path : String) : Option String :=
  let absolute := isAbsolute path
  let ps := withoutEmptyEnd absolute (pieces path)
  let floor := if absolute then 1 else 0
  if ps.length ≤ floor then none
  else
    let rest := withoutEmptyEnd absolute ps.dropLast
    some (if absolute ∧ rest.length ≤ 1 then "/" else "/".intercalate rest)

def ancestorsUpTo : Nat → String → List String
  | 0, _ => []
  | n + 1, path =>
    if path = "" then [] else path :: ((parent? path).map (ancestorsUpTo n)).getD []

/-- The path itself and those above it, the innermost first. -/
def ancestors (path : String) : List String := ancestorsUpTo ((pieces path).length + 1) path

def fileName? (path : String) : Option String :=
  match (components path).getLast? with
  | some (.named name) => some name
  | _ => none

/-- What follows the last dot of the file's name. A dot at its start does not count. -/
def extension? (path : String) : Option String := do
  let name ← fileName? path
  let parts := name.toList.splitOn '.'
  if parts.length < 2 ∨ (parts.length = 2 ∧ parts.head? = some []) then none
  else (parts.getLast?).map String.ofList

end ConsoleSignature.Path
