import ConsoleSignature.Command
import ConsoleSignature.Plan.Token

/-!
Plans: the routes that a dispatcher registers for a list of commands. The routes of a command depend
on no other command.
-/
namespace ConsoleSignature

structure Route where
  /-- The name of the command, or those of a namespace and its sub-command with a colon between. -/
  name : String
  description : String
  hidden : Bool
  /-- The position of the command among those planned. -/
  commandIndex : Nat
  subCommand : Option String
  arguments : List Plan.Argument
  options : List Plan.Flag
deriving DecidableEq, Inhabited, Repr

structure Plan where
  routes : List Route
  /-- The options of hidden namespaces, which have no route of their own to carry them. -/
  rootOptions : List Plan.Flag
deriving DecidableEq, Inhabited, Repr

namespace Plan

def flagsOf (es : List Entry) (parent : Option Entry) : List Flag :=
  (es.filter (·.isFlag)).map (Flag.ofEntry · parent)

def argumentsOf (es : List Entry) (parent : Option Entry) : List Argument :=
  (es.filter (!·.isFlag)).map (Argument.ofEntry · parent)

def commandRoute (index : Nat) (c : Command) : Route where
  name := c.base
  description := c.description.getD ""
  hidden := c.hidden
  commandIndex := index
  subCommand := none
  arguments := argumentsOf (Entry.firstOfName c.options) none
  options := flagsOf (Entry.firstOfName c.options) none

def namespaceOptions (c : Command) : List Flag :=
  (Entry.firstOfName c.options).map (Flag.ofEntry · none)

def namespaceRoute (index : Nat) (c : Command) : Route where
  name := c.base
  description := c.description.getD ""
  hidden := false
  commandIndex := index
  subCommand := none
  arguments := []
  options := namespaceOptions c

/-- The entries that every sub-command has, first those among the sub-commands. -/
def sharedEntries (c : Command) (subs : List Entry) : List Entry :=
  subs.filter (·.shared) ++ c.options.filter (·.shared)

def subCommandRoute (index : Nat) (c : Command) (subs : List Entry) (sub : Entry) : Route :=
  let shared := sharedEntries c subs
  let own := Entry.firstOfName (sub.nested.getD [])
  { name := c.base ++ ":" ++ sub.name
    description := sub.description.getD ""
    hidden := c.hidden
    commandIndex := index
    subCommand := some sub.name
    arguments := argumentsOf shared (some sub) ++ argumentsOf own none
    options := flagsOf shared (some sub) ++ flagsOf own none }

/-- The sub-commands that have a route of their own. -/
def routed (subs : List Entry) : List Entry := Entry.firstOfName (subs.filter (!·.shared))

/-- The sub-commands of a command that is a namespace. -/
def expands? (c : Command) : Option (List Entry) := if c.isNamespace then c.subCommands else none

def routesOf (index : Nat) (c : Command) : List Route :=
  match expands? c with
  | some subs =>
    (if c.hidden then [] else [namespaceRoute index c])
      ++ (routed subs).map (subCommandRoute index c subs)
  | none => [commandRoute index c]

def rootOptionsOf (c : Command) : List Flag :=
  if (expands? c).isSome && c.hidden then namespaceOptions c else []

def ofCommands (cs : List Command) : Plan where
  routes := cs.zipIdx.flatMap fun (c, i) => routesOf i c
  rootOptions := cs.flatMap rootOptionsOf

def route? (p : Plan) (name : String) : Option Route := p.routes.find? (·.name == name)

def names (p : Plan) : List String := p.routes.map (·.name)

end Plan

def Route.document (r : Route) : Document :=
  .record ([("name", .text r.name), ("description", .text r.description),
      ("hidden", .bool r.hidden), ("command_index", .count r.commandIndex)]
    ++ Document.field? "sub_command" (r.subCommand.map .text)
    ++ [("arguments", .list (r.arguments.map Plan.Argument.document)),
      ("options", .list (r.options.map Plan.Flag.document))])

def Plan.document (p : Plan) : Document :=
  .record ([("routes", .list (p.routes.map Route.document))]
    ++ Document.nonempty? "root_options" (p.rootOptions.map Flag.document))

end ConsoleSignature
