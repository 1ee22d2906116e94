import ConsoleSignature.Document
import ConsoleSignature.Entry.Record
import ConsoleSignature.Plan.Reference

/-!
Arguments and options as a dispatcher registers them, with the token that shows how each is given.
-/
namespace ConsoleSignature.Plan

structure Argument where
  name : String
  token : String
  description : String
  required : Bool
  variadic : Bool
  choices : List String
  defaultValue : Option DefaultValue
deriving DecidableEq, Inhabited, Repr

structure Flag where
  name : String
  /-- The flags and the value, if one is taken. -/
  token : String
  flags : List String
  value : Option String
  description : String
  variadic : Bool
  choices : List String
  defaultValue : Option DefaultValue
deriving DecidableEq, Inhabited, Repr

def ellipsis (e : Entry) : String := if e.multiple then "..." else ""

/-- An empty text counts as no default. -/
def defaultOf (e : Entry) : Option DefaultValue := e.defaultValue.filter (!·.isBlank)

def argumentToken (e : Entry) : String :=
  e.placeholder.getD
    (if e.required then "<" ++ e.name ++ ellipsis e ++ ">" else "[" ++ e.name ++ ellipsis e ++ "]")

def withoutDashes (s : String) : String := String.ofList (s.toList.filter (· != '-'))

/-- The token of the value; an option that is neither required nor repeated takes none of its own.
-/
def valueToken (e : Entry) : Option String :=
  match e.placeholder with
  | some p => some p
  | none =>
    if e.required then some ("<" ++ withoutDashes e.name ++ ellipsis e ++ ">")
    else if e.multiple then some ("[" ++ withoutDashes e.name ++ "...]")
    else none

def flagToken (e : Entry) : String :=
  ", ".intercalate (e.flags.getD []) ++
    match valueToken e with
    | some v => " " ++ v
    | none => ""

def Argument.ofEntry (e : Entry) (parent : Option Entry) : Argument where
  name := e.name
  token := argumentToken e
  description := descriptionOf e parent
  required := e.required
  variadic := e.multiple
  choices := e.choices
  defaultValue := defaultOf e

def Flag.ofEntry (e : Entry) (parent : Option Entry) : Flag where
  name := e.name
  token := flagToken e
  flags := e.flags.getD []
  value := valueToken e
  description := descriptionOf e parent
  variadic := e.multiple
  choices := e.choices
  defaultValue := defaultOf e

def Argument.document (a : Argument) : Document :=
  .record ([("name", .text a.name), ("token", .text a.token), ("description", .text a.description),
      ("required", .bool a.required), ("variadic", .bool a.variadic)]
    ++ Document.nonempty? "choices" (a.choices.map .text)
    ++ Document.field? "default_value" (a.defaultValue.map DefaultValue.document))

def Flag.document (o : Flag) : Document :=
  .record ([("name", .text o.name), ("token", .text o.token), ("flags", .texts o.flags)]
    ++ Document.field? "value" (o.value.map .text)
    ++ [("description", .text o.description), ("variadic", .bool o.variadic)]
    ++ Document.nonempty? "choices" (o.choices.map .text)
    ++ Document.field? "default_value" (o.defaultValue.map DefaultValue.document))

end ConsoleSignature.Plan
