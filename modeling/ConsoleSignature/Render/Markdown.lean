import ConsoleSignature.Catalog

/-! Commands, plans and catalogs as markdown. -/
namespace ConsoleSignature

/-- How an entry is listed: by its flags, or else by its name. -/
def Entry.label (e : Entry) : String :=
  match e.flags with
  | some flags => ", ".intercalate flags
  | none => e.name

namespace Render

def code (s : String) : String := "\x60" ++ s ++ "\x60"

def row (cells : List String) : String := "| " ++ " | ".intercalate cells ++ " |\n"

def rule (widths : List Nat) : String :=
  "|" ++ "|".intercalate (widths.map fun n => String.ofList (List.replicate n '-')) ++ "|\n"

def paragraph (s : String) : String := s ++ "\n\n"

/-- The description with the choices in parentheses. -/
def described (e : Entry) : String :=
  let text := e.description.getD ""
  let all := if e.choices.isEmpty then text else text ++ " (" ++ ", ".intercalate e.choices ++ ")"
  String.ofList (Text.trim all.toList)

def entryRow (e : Entry) : String :=
  row [code e.label, if e.required then "yes" else "no",
    (e.defaultValue.map fun v => code v.display).getD "", described e]

def entryTable (es : List Entry) : String :=
  row ["Name", "Required", "Default", "Description"] ++ rule [6, 10, 9, 13]
    ++ String.join (es.map entryRow) ++ "\n"

def subCommandRow (e : Entry) : String :=
  row [code e.name ++ (if e.shared then " (shared)" else ""), e.description.getD ""]

def subCommandTable (es : List Entry) : String :=
  row ["Subcommand", "Description"] ++ rule [12, 13] ++ String.join (es.map subCommandRow) ++ "\n"

/-- A titled part, left out where it would list nothing. -/
def part (title : String) (table : List Entry → String) (es : List Entry) : String :=
  if es.isEmpty then "" else paragraph title ++ table es

end Render

namespace Command

open Render

def title (c : Command) : String := c.base ++ if c.isNamespace then ":" else ""

def markdown (heading : String) (c : Command) : String :=
  paragraph (heading ++ " " ++ c.title)
    ++ (c.description.map paragraph).getD ""
    ++ (if c.hidden then paragraph "**Hidden:** yes" else "")
    ++ part (heading ++ "# Arguments") entryTable c.arguments
    ++ part (heading ++ "# Options") entryTable (c.options.filter (!·.isArgument))
    ++ part (heading ++ "# Subcommands") subCommandTable (c.subCommands.getD [])

end Command

namespace Route

/-- How the route is called. -/
def usage (r : Route) : String :=
  " ".intercalate (r.name :: r.arguments.map (·.token)
    ++ if r.options.isEmpty then [] else ["[options]"])

def markdown (r : Route) : String :=
  Render.paragraph ("## " ++ r.name)
    ++ (if r.description = "" then "" else Render.paragraph r.description)
    ++ Render.paragraph ("\x60\x60\x60text\n" ++ r.usage ++ "\n\x60\x60\x60")
    ++ if r.options.isEmpty then ""
      else Render.row ["Option", "Description"] ++ Render.rule [8, 13]
        ++ String.join (r.options.map fun o => Render.row [Render.code o.token, o.description])
        ++ "\n"

end Route

def Plan.markdown (p : Plan) : String :=
  Render.paragraph "# Registration Plan"
    ++ String.join (p.routes.map Route.markdown)
    ++ if p.rootOptions.isEmpty then ""
      else Render.paragraph "## Root Options"
        ++ String.join (p.rootOptions.map fun o =>
          "- " ++ Render.code o.token ++ " " ++ o.description ++ "\n")
        ++ "\n"

def Catalog.markdown (c : Catalog) : String :=
  Render.paragraph ("# " ++ c.cliName)
    ++ "- **Version:** " ++ c.version ++ "\n"
    ++ "- **Generated:** " ++ c.generatedAt ++ "\n"
    ++ "- **Commands:** " ++ toString c.commands.length ++ "\n"
    ++ (if c.skipped.isEmpty then "" else "- **Skipped:** " ++ ", ".intercalate c.skipped ++ "\n")
    ++ "\n"
    ++ String.join (c.commands.map (Command.markdown "##"))

end ConsoleSignature
