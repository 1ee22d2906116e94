import ConsoleSignature.Json.Writing
import ConsoleSignature.Render.Table
import ConsoleSignature.Yaml.Writing

/-! The four formats in which commands, plans and catalogs are shown. -/
namespace ConsoleSignature

inductive OutputFormat where
  | json
  | yaml
  | markdown
  | table
deriving DecidableEq, Inhabited, Repr

namespace OutputFormat

def name : OutputFormat → String
  | json => "json"
  | yaml => "yaml"
  | markdown => "markdown"
  | table => "table"

def ofName? (s : String) : Option OutputFormat :=
  [json, yaml, markdown, table].find? (·.name == s)

end OutputFormat

def Command.render (c : Command) : OutputFormat → String
  | .json => c.document.json
  | .yaml => c.document.yaml
  | .markdown => c.markdown "#"
  | .table => c.table

def Plan.render (p : Plan) : OutputFormat → String
  | .json => p.document.json
  | .yaml => p.document.yaml
  | .markdown => p.markdown
  | .table => p.table

def Catalog.render (c : Catalog) : OutputFormat → String
  | .json => c.document.json
  | .yaml => c.document.yaml
  | .markdown => c.markdown
  | .table => c.table

end ConsoleSignature
