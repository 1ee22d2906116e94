import ConsoleSignature.Yaml.Node.OfTokens
import ConsoleSignature.Yaml.Scalar

/-! The data of a tree: scalars are told apart by tag or spelling, and aliases are followed. -/
namespace ConsoleSignature.Yaml

/-- What a scalar without a tag stands for. Only a plain one can be other than text. -/
def untagged (style : ScalarStyle) (text : List Char) : Datum :=
  if style = .plain then Scalar.plain text else .text (String.ofList text)

/-- What a scalar stands for. A core tag must suit the spelling, and every other makes it text. A
tag that only starts as a local one does says nothing. -/
def scalarDatum? (tag : Option Tag) (style : ScalarStyle) (text : List Char) : Option Datum :=
  match tag with
  | none => some (untagged style text)
  | some t =>
    if t = Tag.core "bool" then (Scalar.bool? text).map .bool
    else if t = Tag.core "int" then Scalar.integer? text
    else if t = Tag.core "float" then (Scalar.number? text).map .number
    else if t = Tag.core "null" then
      if Scalar.isNull text ∧ text ≠ [] then some .null else none
    else if t.isLocal then none
    else if t.startsLocal then some (untagged style text)
    else some (.text (String.ofList text))

namespace Tree

/-- Collections in more than this many levels are refused. -/
def maxDepth : Nat := 128

/-- Goes from an alias to its node, and counts that. -/
def follow (t : Tree) (n : Node) : StateT Nat Option Node := do
  match n with
  | .alias number =>
    modify (· + 1)
    guard ((← get) ≤ 100 * t.events)
    StateT.lift (t.anchored? number)
  | n => return n

def datumOf (t : Tree) : Nat → Node → StateT Nat Option Datum
  | depth, n => do
    match ← t.follow n, depth with
    | .scalar tag style text, _ => StateT.lift (scalarDatum? tag style text)
    | .sequence tag items, depth + 1 =>
      guard (!tag.any Tag.isLocal)
      return .sequence (← items.mapM (datumOf t depth))
    | .mapping tag fields, depth + 1 =>
      guard (!tag.any Tag.isLocal)
      return .mapping (← fields.mapM fun (k, v) => do
        return (← datumOf t depth k, ← datumOf t depth v))
    | _, _ => failure

/-- An empty tree is null. -/
def datum? (t : Tree) : Option Datum :=
  match t.root with
  | none => some .null
  | some n => (t.datumOf maxDepth n).run' 0

end Tree

/-- The datum that the whole text spells. -/
def read? (s : String) : Option Datum := (Tree.ofText? s.toList).bind Tree.datum?

end ConsoleSignature.Yaml
