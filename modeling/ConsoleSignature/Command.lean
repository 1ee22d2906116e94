import ConsoleSignature.Entry

/-! Commands, and the handlers they were compiled for. -/
namespace ConsoleSignature

/-- Who asked for a command. Two handlers with the same texts are still told apart by their
identity. -/
structure Handler where
  identity : Nat
  signature : String
  description : Option String
deriving DecidableEq, Inhabited, Repr

structure Command where
  base : String
  description : Option String
  hidden : Bool
  /-- Whether the command only gathers sub-commands under its name. -/
  isNamespace : Bool
  subCommands : Option (List Entry)
  options : List Entry
  handler : Handler
deriving Inhabited, Repr

namespace Command

def bare (base : String) (handler : Handler) : Command where
  base
  description := handler.description
  hidden := false
  isNamespace := false
  subCommands := none
  options := []
  handler

def option? (c : Command) (token : String) : Option Entry :=
  c.options.find? (·.answersTo token)

def subCommand? (c : Command) (name : String) : Option Entry :=
  (c.subCommands.getD []).find? (·.name == name)

def arguments (c : Command) : List Entry := c.options.filter Entry.isArgument

/-- Whether nothing but a header was declared. -/
def isEmpty (c : Command) : Bool := c.options.isEmpty && (c.subCommands.getD []).isEmpty

/-- Equality of all that was compiled and of the handler's identity. -/
def same (c d : Command) : Bool :=
  c.base == d.base && c.description == d.description && c.hidden == d.hidden
    && c.isNamespace == d.isNamespace && Entry.sameNested c.subCommands d.subCommands
    && Entry.sameAll c.options d.options && c.handler.identity == d.handler.identity

end Command

end ConsoleSignature
