import ConsoleSignature.Command.OfSignature
import ConsoleSignature.Command.Record
import ConsoleSignature.Config
import ConsoleSignature.Definition
import ConsoleSignature.Plan

/-! Catalogs: the compiled commands of a list of definitions, sorted by name. -/
namespace ConsoleSignature

structure Catalog where
  version : String
  cliName : String
  generatedAt : String
  commands : List Command
  /-- The names of the commands that were left out. -/
  skipped : List String
deriving Inhabited, Repr

namespace Catalog

def formatVersion : String := "1.0.0"

/-- Leaves out what is excluded by name, and what is hidden and no namespace if that is not wanted.
-/
def leavesOut (config : Config) (c : Command) : Bool :=
  config.excludes c.base || (c.hidden && !c.isNamespace && !config.includeHidden)

/-- Compiles a definition that stands at some place of a list. -/
def compile (x : Definition × Nat) : Command := Command.ofHandler (x.1.handler x.2)

def compileAll (ds : List Definition) : List Command := ds.zipIdx.map compile

def ofCompiled (compiled : List Command) (config : Config) (generatedAt : String) : Catalog where
  version := formatVersion
  cliName := config.cliName
  generatedAt
  commands := (compiled.filter (!leavesOut config ·)).mergeSort (·.base ≤ ·.base)
  skipped := ((compiled.filter (leavesOut config)).map (·.base)).mergeSort (· ≤ ·)

def build (ds : List Definition) (config : Config) (generatedAt : String) : Catalog :=
  ofCompiled (compileAll ds) config generatedAt

/-- A pool of workers: it compiles the definitions of a list, whichever of them first. -/
abbrev Pool := (Definition × Nat → Command) → List (Definition × Nat) → List Command

/-- Builds with as many workers as configured. A pool of so many may not start. -/
def buildOn (start? : Nat → Option Pool) (processors : Option Nat) (ds : List Definition)
    (config : Config) (generatedAt : String) : Option Catalog := do
  let pool ← start? (config.workers processors ds.length)
  return ofCompiled (pool compile ds.zipIdx) config generatedAt

def plan (c : Catalog) : Plan := Plan.ofCommands c.commands

def command? (c : Catalog) (base : String) : Option Command :=
  c.commands.find? (·.base == base)

def document (c : Catalog) : Document :=
  .record ([("version", .text c.version), ("cli_name", .text c.cliName),
      ("generated_at", .text c.generatedAt), ("commands", .list (c.commands.map Command.document))]
    ++ Document.nonempty? "skipped" (c.skipped.map .text))

end Catalog

end ConsoleSignature
