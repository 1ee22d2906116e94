import ConsoleSignature.CommandLine.Response
import Std.Time.Format

/-!
The program. What its arguments name is copied from disk into a file tree, the answer is found
there, and only a catalog that is to be saved is written back.
-/
namespace ConsoleSignature.Program

/-- The directories on the way to a path, the outermost first, and the path itself. -/
def stages (path : String) : List String :=
  let ps := Path.pieces path
  (List.range ps.length).map fun n => "/".intercalate (ps.take (n + 1))

/-- Copies what lies at a path: a file with what it holds, a directory without. -/
def copyItem (t : FileTree) (path : String) : IO FileTree := do
  let place := (← IO.currentDir) / path
  if ← place.isDir then return (t.makeDirectories path).1
  else if ← place.pathExists then
    return (t.write path (← IO.FS.readBinFile path)).toOption.getD t
  else return t

/-- Copies what lies at a path and on the way to it, and the definition files directly inside it. -/
def copy (t : FileTree) (path : String) : IO FileTree := do
  let t ← (stages path).foldlM copyItem t
  if t.isDirectory path then
    let names := (← ((← IO.currentDir) / path).readDir).toList.map (·.fileName)
    ((names.map (Path.join path)).filter Library.holdsDefinitions).foldlM copyItem t
  else return t

/-- The paths that an invocation names. -/
def pathsOf : Invocation → List String
  | .version => []
  | .compile source | .plan source => [source.input]
  | .catalog r => r.config.getD Config.defaultFile :: r.output.toList ++ r.inputs

/-- The paths that only the configuration names. -/
def discovered (s : Surroundings) : Invocation → List String
  | .catalog r =>
    match s.config r.config with
    | .ok (c, directory) => Surroundings.inputs c directory r
    | .error _ => []
  | _ => []

partial def readAll (input : IO.FS.Stream) (done : ByteArray) : IO ByteArray := do
  let part ← input.read 65536
  if part.isEmpty then return done else readAll input (done ++ part)

def readsInput : Invocation → Bool
  | .compile source | .plan source => Surroundings.isStandardInput source.input
  | _ => false

/-- The time in the form of RFC 3339. -/
def now : IO String := do
  let time := Std.Time.DateTime.ofTimestampWithZone (← Std.Time.Timestamp.now) .UTC
  return time.format "uuuu-MM-dd'T'HH:mm:ss.SSSSSSSSSxxx"

def surroundings (i : Invocation) : IO Surroundings := do
  let standardInput ←
    if readsInput i then readAll (← IO.getStdin) ByteArray.empty else pure ByteArray.empty
  let s : Surroundings := ⟨← (pathsOf i).foldlM copy FileTree.empty, standardInput, ← now⟩
  return { s with files := ← (discovered s i).foldlM copy s.files }

/-- Saves what a response asks for. -/
def save : Response → IO Unit
  | .save path text _ => IO.FS.writeFile path text
  | _ => return

def run (i : Invocation) : IO UInt32 := do
  let s ← surroundings i
  let response := s.respond .sequential i
  let outcome := response.perform s.files
  if outcome.code = 0 then save response
  IO.print outcome.output
  IO.eprint outcome.messages
  return UInt32.ofNat outcome.code

end ConsoleSignature.Program

def main (arguments : List String) : IO UInt32 := do
  match ConsoleSignature.Invocation.ofArguments? arguments with
  | some i => ConsoleSignature.Program.run i
  | none =>
    IO.eprintln "error: the arguments are not understood"
    return 2
