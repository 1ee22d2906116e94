import ConsoleSignature.Document

/-! The configuration of a catalog. -/
namespace ConsoleSignature

structure Config where
  version : String
  cliName : String
  discoveryPaths : List String
  /-- The names of the commands to leave out. -/
  exclude : List String
  jobs : Option Nat
  /-- Whether hidden commands stay; hidden namespaces always do. -/
  includeHidden : Bool
deriving DecidableEq, Repr

namespace Config

def standard : Config where
  version := "1.0"
  cliName := "cli"
  discoveryPaths := []
  exclude := []
  jobs := none
  includeHidden := true

def fieldNames : List String :=
  ["version", "cli_name", "discovery_paths", "exclude", "jobs", "include_hidden"]

def document (c : Config) : Document :=
  .record ([("version", .text c.version), ("cli_name", .text c.cliName),
      ("discovery_paths", .texts c.discoveryPaths), ("exclude", .texts c.exclude)]
    ++ Document.field? "jobs" (c.jobs.map .count)
    ++ [("include_hidden", .bool c.includeHidden)])

/-- Reads a configuration. All fields may be missing. -/
def ofDatum? (d : Datum) : Option Config :=
  match d.record? fieldNames with
  | some [version, cliName, discoveryPaths, exclude, jobs, includeHidden] => do
    let version ← Datum.defaulting standard.version Datum.text? version
    let cliName ← Datum.defaulting standard.cliName Datum.text? cliName
    let discoveryPaths ← Datum.defaulting [] Datum.texts? discoveryPaths
    let exclude ← Datum.defaulting [] Datum.texts? exclude
    let jobs ← Datum.optional Datum.count? jobs
    let includeHidden ← Datum.defaulting true Datum.bool? includeHidden
    return ⟨version, cliName, discoveryPaths, exclude, jobs, includeHidden⟩
  | _ => none

/-- How many workers compile: as many as asked for, or else one for each processor, but at most
eight and no more than there are definitions. -/
def workers (c : Config) (processors : Option Nat) (definitions : Nat) : Nat :=
  (c.jobs.filter (0 < ·)).getD (min (min (processors.getD 4) 8) (max definitions 1))

def excludes (c : Config) (command : String) : Bool := c.exclude.contains command

end Config

end ConsoleSignature
