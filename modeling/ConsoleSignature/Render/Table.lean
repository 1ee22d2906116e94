import ConsoleSignature.Render.Markdown

/-!
Commands, plans and catalogs as plain tables of a name and a description. A column is as wide as the
longest name in it counted in bytes, and a name is filled up to that width counted in characters.
-/
namespace ConsoleSignature

namespace Render

def fillTo (width : Nat) (s : String) : String :=
  String.ofList (s.toList ++ List.replicate (width - s.length) ' ')

def widest (names : List String) : Nat := (names.map String.utf8ByteSize).foldl max 0

def line (width : Nat) (name description : String) : String :=
  fillTo width name ++ "  " ++ description ++ "\n"

/-- A titled list of entries, left out where there are none. -/
def listing (title : String) (entries : List (String × String)) : String :=
  if entries.isEmpty then ""
  else
    let width := widest (entries.map Prod.fst)
    "\n" ++ title ++ ":\n"
      ++ String.join (entries.map fun (name, description) =>
        "  " ++ line width name description)

end Render

def Command.table (c : Command) : String :=
  "Command: " ++ c.base ++ "  Kind: " ++ (if c.isNamespace then "namespace" else "command")
    ++ (if c.hidden then "  Hidden" else "") ++ "\n"
    ++ (c.description.map fun d => "  " ++ d ++ "\n").getD ""
    ++ Render.listing "Options" (c.options.map fun e => (e.label, e.description.getD ""))
    ++ Render.listing "Subcommands"
      ((c.subCommands.getD []).map fun e => (e.name, e.description.getD ""))

/-- The width of the names, where there are routes to take it from. -/
def Plan.nameWidth (p : Plan) : Nat :=
  if p.routes.isEmpty then 4 else Render.widest (p.routes.map Route.usage)

def Plan.table (p : Plan) : String :=
  let width := p.nameWidth
  String.join (p.routes.map fun r =>
      Render.line width r.usage (r.description ++ if r.hidden then "  (hidden)" else ""))
    ++ String.join (p.rootOptions.map fun o => Render.line width o.token o.description)

/-- The width of the names, each with room for the colon of a namespace. -/
def Catalog.nameWidth (c : Catalog) : Nat :=
  if c.commands.isEmpty then 4 else Render.widest (c.commands.map (·.base)) + 1

def Catalog.table (c : Catalog) : String :=
  let width := c.nameWidth
  c.cliName ++ "  " ++ toString c.commands.length ++ " commands  generated " ++ c.generatedAt
    ++ "\n\n"
    ++ String.join (c.commands.map fun d =>
      Render.line width d.title (d.description.getD ""))

end ConsoleSignature
