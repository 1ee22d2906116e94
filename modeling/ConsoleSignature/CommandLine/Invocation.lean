import ConsoleSignature.Render

/-!
Invocations: what the arguments of the program ask for. Arguments that ask for nothing in particular
are rejected as a whole.
-/
namespace ConsoleSignature

/-- One signature, from a file or from standard input. -/
structure SignatureSource where
  input : String
  description : Option String
  format : OutputFormat
deriving DecidableEq, Repr

structure CatalogRequest where
  inputs : List String
  config : Option String
  output : Option String
  jobs : Option Nat
  cliName : Option String
  exclude : Option String
  plan : Bool
  format : OutputFormat
deriving DecidableEq, Repr

inductive Invocation where
  | version
  | compile (source : SignatureSource)
  | plan (source : SignatureSource)
  | catalog (request : CatalogRequest)
deriving DecidableEq, Repr

namespace Invocation

/-- What the arguments after the name of a sub-command hold. -/
structure Given where
  /-- Options with their values, in the order given. -/
  values : List (String × String)
  /-- Options that take no value. -/
  switches : List String
  operands : List String
deriving DecidableEq, Repr

/-- The options of a sub-command: those with a value, those without, and whether operands may stand.
-/
structure Grammar where
  valued : List String
  switches : List String
  operands : Bool

/-- An option and its value, where one is attached. -/
def cutValue (option : List Char) : String × Option String :=
  let (name, value) := Text.cut '=' option
  (String.ofList name, value.map String.ofList)

/-- Dashes before more than a lone dash start an option. -/
def isOption (argument : String) : Bool :=
  match argument.toList with
  | '-' :: _ :: _ => true
  | _ => false

/-- Any number of `v` after a single dash, or the word in full. -/
def isVerbosity (argument : String) : Bool :=
  argument == "--verbose" ||
    match argument.toList with
    | '-' :: 'v' :: vs => vs.all (· == 'v')
    | _ => false

def Given.empty : Given := ⟨[], [], []⟩

def Given.addValue? (g : Given) (name value : String) : Option Given :=
  if (g.values.lookup name).isSome then none
  else some { g with values := g.values ++ [(name, value)] }

def Given.addSwitch? (g : Given) (name : String) : Option Given :=
  if g.switches.contains name then none else some { g with switches := name :: g.switches }

def Given.addOperands? (g : Given) (grammar : Grammar) (os : List String) : Option Given :=
  if os.isEmpty || grammar.operands then some { g with operands := g.operands ++ os } else none

/-- Sorts the arguments. A value that starts with a dash must be attached to its option, no option
may be given twice, and all after two dashes are operands. -/
def sort? (grammar : Grammar) (g : Given) : List String → Option Given
  | [] => some g
  | a :: as =>
    if a = "--" then g.addOperands? grammar as
    else if isVerbosity a then sort? grammar g as
    else if !isOption a then (g.addOperands? grammar [a]).bind (sort? grammar · as)
    else
      match cutValue a.toList with
      | (name, some value) =>
        if grammar.valued.contains name then
          (g.addValue? name value).bind (sort? grammar · as)
        else none
      | (name, none) =>
        if grammar.switches.contains name then (g.addSwitch? name).bind (sort? grammar · as)
        else if grammar.valued.contains name then
          match as with
          | value :: rest =>
            if isOption value then none
            else (g.addValue? name value).bind (sort? grammar · rest)
          | [] => none
        else none

def Given.value? (g : Given) (name : String) : Option String := g.values.lookup name

/-- A path, which cannot be empty. -/
def Given.path? (g : Given) (name : String) : Option (Option String) :=
  match g.value? name with
  | some "" => none
  | v => some v

def Given.format? (g : Given) : Option OutputFormat :=
  match g.value? "--format" with
  | some name => OutputFormat.ofName? name
  | none => some .json

/-- Digits, after a plus sign if need be, of a number that fits in 64 bits. -/
def number? (s : String) : Option Nat :=
  let ds := match s.toList with
    | '+' :: r => r
    | r => r
  if ds.isEmpty || !ds.all Char.isDigit then none
  else
    let n := Decimal.natOfDigits ds
    if n < UInt64.size then some n else none

def Given.jobs? (g : Given) : Option (Option Nat) :=
  match g.value? "--jobs" with
  | some s => (number? s).map some
  | none => some none

def sourceGrammar : Grammar := ⟨["--input", "--description", "--format"], [], false⟩

def source? (arguments : List String) : Option SignatureSource := do
  let g ← sort? sourceGrammar Given.empty arguments
  let input ← (← g.path? "--input")
  return ⟨input, g.value? "--description", ← g.format?⟩

def catalogGrammar : Grammar :=
  ⟨["--config", "--output", "--jobs", "--cli-name", "--exclude", "--format"], ["--plan"], true⟩

def catalogRequest? (arguments : List String) : Option CatalogRequest := do
  let g ← sort? catalogGrammar Given.empty arguments
  guard (!g.operands.contains "")
  return {
    inputs := g.operands
    config := ← g.path? "--config"
    output := ← g.path? "--output"
    jobs := ← g.jobs?
    cliName := g.value? "--cli-name"
    exclude := g.value? "--exclude"
    plan := g.switches.contains "--plan"
    format := ← g.format? }

/-- Whether the version is asked for in a cluster of letters after a dash, or by the word in full.
-/
def asksVersion (argument : String) : Bool :=
  argument == "--version" ||
    match argument.toList with
    | '-' :: cs => (cs.dropWhile (· == 'v')).head? == some 'V'
    | _ => false

/-- The invocation that the arguments spell; before the sub-command only the version and how much is
logged can be asked for. -/
def ofArguments? : List String → Option Invocation
  | [] => none
  | a :: as =>
    if a = "compile" then (source? as).map compile
    else if a = "plan" then (source? as).map plan
    else if a = "catalog" then (catalogRequest? as).map catalog
    else if isVerbosity a then ofArguments? as
    else if asksVersion a then some version
    else none

end Invocation

end ConsoleSignature
