import ConsoleSignature.Command
import ConsoleSignature.Document

/-! Definitions: signatures as they are kept in files, each with a description and a source. -/
namespace ConsoleSignature

structure Definition where
  signature : String
  description : Option String
  source : Option String
deriving DecidableEq, Inhabited, Repr

namespace Definition

def ofSignature (signature : String) : Definition := ⟨signature, none, none⟩

/-- The handler of the definition at this place in a list. -/
def handler (d : Definition) (index : Nat) : Handler := ⟨index, d.signature, d.description⟩

def fillSource (source : String) (d : Definition) : Definition :=
  { d with source := d.source.orElse fun _ => some source }

def fieldNames : List String := ["signature", "description", "source"]

def document (d : Definition) : Document :=
  .record ([("signature", .text d.signature)]
    ++ Document.field? "description" (d.description.map .text)
    ++ Document.field? "source" (d.source.map .text))

def ofDatum? (d : Datum) : Option Definition :=
  match d.record? fieldNames with
  | some [signature, description, source] => do
    let signature ← Datum.required Datum.text? signature
    let description ← Datum.optional Datum.text? description
    let source ← Datum.optional Datum.text? source
    return ⟨signature, description, source⟩
  | _ => none

/-- Reads a list of definitions, or else a single one. Nothing in them may be unreadable, even where
it is not looked at. -/
def listOfDatum? (d : Datum) : Option (List Definition) :=
  if d.isReadable then
    (d.sequence?.bind (·.mapM ofDatum?)).or ((ofDatum? d).map ([·]))
  else none

end Definition

end ConsoleSignature
