import ConsoleSignature.Yaml.Tag

/-!
The tokens of YAML text. Where a block collection starts and ends is told by tokens of its own.
-/
namespace ConsoleSignature.Yaml

inductive ScalarStyle where
  | plain
  | singleQuoted
  | doubleQuoted
  | literal
  | folded
deriving DecidableEq, Inhabited, Repr

inductive Token where
  | versionDirective (major minor : Nat)
  | tagDirective (handle : List Char) (start : Tag)
  | documentStart
  | documentEnd
  | blockSequenceStart
  | blockMappingStart
  | blockEnd
  | flowSequenceStart
  | flowSequenceEnd
  | flowMappingStart
  | flowMappingEnd
  | blockEntry
  | flowEntry
  | key
  | value
  | alias (name : List Char)
  | anchor (name : List Char)
  | tag (handle : List Char) (suffix : Tag)
  | scalar (style : ScalarStyle) (text : List Char)
  | streamEnd
deriving DecidableEq, Inhabited, Repr

end ConsoleSignature.Yaml
