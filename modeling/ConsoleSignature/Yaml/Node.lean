import ConsoleSignature.Yaml.Token

/-!
Nodes: the tree of a YAML document before its scalars are given meaning and its aliases followed.
-/
namespace ConsoleSignature.Yaml

inductive Node where
  | scalar (tag : Option Tag) (style : ScalarStyle) (text : List Char)
  | sequence (tag : Option Tag) (items : List Node)
  | mapping (tag : Option Tag) (fields : List (Node × Node))
  /-- Stands for the anchored node of this number. -/
  | alias (number : Nat)
deriving Inhabited

/-- An anchored node: when it was met, its number, and the node itself. -/
structure Anchored where
  order : Nat
  number : Nat
  node : Node

structure Tree where
  /-- A text of comments alone has none. -/
  root : Option Node
  anchored : List Anchored
  /-- The scalars, aliases, and starts and ends of collections in the tree. -/
  events : Nat

namespace Tree

/-- The node that an alias of this number stands for: the one that was met last. -/
def anchored? (t : Tree) (number : Nat) : Option Node :=
  let found := t.anchored.filter (·.number == number)
  (found.find? fun a => found.all (·.order ≤ a.order)).map (·.node)

end Tree

end ConsoleSignature.Yaml
