import ConsoleSignature.Catalog
import ConsoleSignature.CommandLine.Invocation
import ConsoleSignature.Files.Library

/-!
What the program does for an invocation. The answer is found without changing any file; only saving
a catalog changes one, and that is the last thing done.
-/
namespace ConsoleSignature

inductive Failure where
  | config (path : String) (e : LibraryError)
  | zeroJobs
  | noInputs
  | input (path : String) (e : FileError)
  | standardInput (e : FileError)
  | library (e : LibraryError)
  | output (path : String) (e : FileError)
deriving DecidableEq, Repr

def Failure.message : Failure → String
  | config path e => "Failed to load config '" ++ path ++ "': " ++ e.message
  | zeroJobs => "--jobs must be greater than 0"
  | noInputs =>
    "No definition inputs given and no discovery_paths configured in " ++ Config.defaultFile
  | input path e => "Failed to read '" ++ path ++ "': " ++ e.message
  | standardInput e => "Failed to read stdin: " ++ e.message
  | library e => e.message
  | output path e => "Failed to write '" ++ path ++ "': " ++ e.message

/-- What there is to be said or saved. -/
inductive Response where
  | print (text : String)
  | save (path : String) (text : String) (commands : Nat)
  | fail (failure : Failure)
deriving DecidableEq, Repr

/-- What compiles the definitions of a catalog: how many processors there are, if that can be told,
and the pools of workers that start. -/
structure Machine where
  processors : Option Nat
  start? : Nat → Option Catalog.Pool

/-- Compiles one definition after another, however many workers are asked for. -/
def Machine.sequential : Machine := ⟨none, fun _ => some fun compile ds => ds.map compile⟩

/-- All that a run may look at: the files, standard input and the time. -/
structure Surroundings where
  files : FileTree
  standardInput : ByteArray
  now : String

namespace Surroundings

/-- A text ends in exactly one line break. -/
def finished (text : String) : String :=
  String.ofList (Text.trimEnd text.toList ++ ['\n'])

/-- A lone dash stands for standard input. -/
def isStandardInput (path : String) : Bool := Path.same path "-"

def definition (s : Surroundings) (source : SignatureSource) : Except Failure Definition := do
  let text ←
    if isStandardInput source.input then
      (FileTree.textOf s.standardInput).mapError .standardInput
    else (s.files.readText source.input).mapError (.input source.input)
  return ⟨text, source.description, none⟩

def compiled (s : Surroundings) (source : SignatureSource) : Except Failure Command := do
  return Command.ofHandler ((← s.definition source).handler 0)

/-- The configuration to go by, and the directory that its paths start from: that of the file asked
for, or else the working directory, whose own file counts if there is one. -/
def config (s : Surroundings) (path : Option String) : Except Failure (Config × String) :=
  let load (path : String) : Except Failure (Config × String) := do
    let c ← (Config.load s.files path).mapError (.config path)
    let directory := (Path.parent? path).getD ""
    return (c, if directory = "" then "." else directory)
  match path with
  | some path => load path
  | none =>
    if s.files.isFile Config.defaultFile then load Config.defaultFile
    else .ok (Config.standard, ".")

/-- The configuration with what the request says instead or in addition. -/
def adjusted (c : Config) (r : CatalogRequest) : Config :=
  { c with
    jobs := r.jobs.or c.jobs
    cliName := r.cliName.getD c.cliName
    exclude := c.exclude ++ (r.exclude.map fun s => Text.commaParts s.toList).getD [] }

/-- The inputs of the request, or else what the configuration says where to look. -/
def inputs (c : Config) (directory : String) (r : CatalogRequest) : List String :=
  if r.inputs.isEmpty then c.discoveryPaths.map (Path.join directory) else r.inputs

/-- The definitions that a request finds, and the configuration they are built with. -/
def gathered (s : Surroundings) (r : CatalogRequest) :
    Except Failure (List Definition × Config) := do
  let (c, directory) ← s.config r.config
  if r.jobs = some 0 then throw .zeroJobs
  let c := adjusted c r
  let inputs := inputs c directory r
  if inputs.isEmpty then throw .noInputs
  let paths ← (Library.collect s.files inputs).mapError .library
  let definitions ← (Library.load s.files paths).mapError .library
  return (definitions, c)

def catalog (s : Surroundings) (m : Machine) (r : CatalogRequest) : Except Failure Catalog := do
  let (definitions, c) ← s.gathered r
  match Catalog.buildOn m.start? m.processors definitions c s.now with
  | some catalog => return catalog
  | none => throw (.library .workers)

def catalogText (r : CatalogRequest) (c : Catalog) : String :=
  finished (if r.plan then c.plan.render r.format else c.render r.format)

def versionText : String := "signature-compile 0.1.0\n"

def answer (s : Surroundings) (m : Machine) : Invocation → Except Failure Response
  | .version => .ok (.print versionText)
  | .compile source => do
    return .print (finished ((← s.compiled source).render source.format))
  | .plan source => do
    return .print (finished ((Plan.ofCommands [← s.compiled source]).render source.format))
  | .catalog request => do
    let c ← s.catalog m request
    let text := catalogText request c
    match request.output with
    | some path => return .save path text c.commands.length
    | none => return .print text

def respond (s : Surroundings) (m : Machine) (i : Invocation) : Response :=
  match s.answer m i with
  | .ok r => r
  | .error e => .fail e

end Surroundings

/-- What a run leaves behind. -/
structure Outcome where
  code : Nat
  output : String
  messages : String
  files : FileTree

namespace Outcome

def failed (files : FileTree) (e : Failure) : Outcome :=
  ⟨1, "", "error: " ++ e.message ++ "\n", files⟩

def savedMessage (path : String) (commands : Nat) : String :=
  "Wrote " ++ toString commands ++ " commands to " ++ path ++ "\n"

end Outcome

/-- Carries a response out. -/
def Response.perform (files : FileTree) : Response → Outcome
  | print text => ⟨0, text, "", files⟩
  | fail e => Outcome.failed files e
  | save path text commands =>
    match files.write path text.toUTF8 with
    | .ok written => ⟨0, "", Outcome.savedMessage path commands, written⟩
    | .error e => Outcome.failed files (.output path e)

namespace Surroundings

def carryOut (s : Surroundings) (m : Machine) (i : Invocation) : Outcome :=
  (s.respond m i).perform s.files

/-- A run of the program; the code is 2 where the arguments are rejected. -/
def runOn (s : Surroundings) (m : Machine) (arguments : List String) : Outcome :=
  match Invocation.ofArguments? arguments with
  | some i => s.carryOut m i
  | none => ⟨2, "", "", s.files⟩

def run (s : Surroundings) (arguments : List String) : Outcome := s.runOn .sequential arguments

end Surroundings

end ConsoleSignature
