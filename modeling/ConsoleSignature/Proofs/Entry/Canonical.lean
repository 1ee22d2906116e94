import ConsoleSignature.Entry.OfBlock
import ConsoleSignature.Proofs.Text

/-!
The written form of entries: a tree for each block that the grammar has, the text the tree is
written as, and the entry it stands for. Blanks around delimiters are part of the tree.
-/
namespace ConsoleSignature.Canonical

open Text

structure Blanks where
  chars : List Char
  blank : ∀ c ∈ chars, isBlank c

/-- A character of words. -/
def IsPlain (c : Char) : Prop := c.isAlphanum ∨ c = '_' ∨ c = '-'

instance : DecidablePred IsPlain := fun c =>
  inferInstanceAs (Decidable (c.isAlphanum ∨ c = '_' ∨ c = '-'))

/-- An argument's name, or a flag without its dashes. -/
structure Word where
  chars : List Char
  nonempty : chars ≠ []
  plain : ∀ c ∈ chars, IsPlain c
  undashed : chars.head? ≠ some '-'

inductive Marker where
  | hidden
  | shared

inductive Name where
  | argument (word : Word)
  | flags (first : Word) (others : List Word)

/-- What stands after the equals sign; it may be empty. -/
structure Value where
  chars : List Char
  trimmed : Trimmed chars
  plain : ∀ c ∈ chars, c ≠ ':' ∧ c ≠ '{' ∧ c ≠ '}'

/-- A character of choices. -/
def IsOption (c : Char) : Prop := isWord c ∨ isBlank c ∨ c = '.' ∨ c = '/' ∨ c = '-'

instance : DecidablePred IsOption := fun c =>
  inferInstanceAs (Decidable (isWord c ∨ isBlank c ∨ c = '.' ∨ c = '/' ∨ c = '-'))

structure Choice where
  chars : List Char
  nonempty : chars ≠ []
  trimmed : Trimmed chars
  plain : ∀ c ∈ chars, IsOption c

/-- Choices after a second colon, in brackets or bare. -/
structure Choices where
  before : Blanks
  after : Blanks
  bracketed : Bool
  first : Choice
  others : List Choice

structure Description where
  chars : List Char
  nonempty : chars ≠ []
  trimmed : Trimmed chars
  plain : ∀ c ∈ chars, c ≠ ':' ∧ c ≠ '|' ∧ c ≠ '{' ∧ c ≠ '}'
  unmarked : ∀ c ∈ chars.head?, Entry.isMarker c = false
  choices : Option Choices

/-- An entry without nested entries; the blanks are those around its first colon. -/
structure Leaf where
  marker : Option Marker
  name : Name
  modifier : Entry.Modifier
  value : Option Value
  before : Blanks
  after : Blanks
  description : Option Description

/-- An entry with nested entries, if there are any: each in braces of its own behind some blanks,
the first behind a bar. -/
structure Tree extends Leaf where
  beforeBar : Blanks
  nested : List (Blanks × Leaf)

/-! What is written. -/

def Marker.char : Marker → Char
  | hidden => '#'
  | shared => '^'

def Name.words : Name → List Word
  | argument w => [w]
  | flags w ws => w :: ws

def Name.dashes : Name → List Char
  | argument _ => []
  | flags _ _ => ['-', '-']

def Name.text (n : Name) : List Char := n.dashes ++ ['|'].intercalate (n.words.map Word.chars)

def Choices.list (c : Choices) : List Choice := c.first :: c.others

def Choices.listText (c : Choices) : List Char :=
  [',', ' '].intercalate (c.list.map Choice.chars)

def Choices.text (c : Choices) : List Char :=
  c.before.chars ++ ':' :: (c.after.chars ++
    if c.bracketed then '[' :: c.listText ++ [']'] else c.listText)

def Description.text (d : Description) : List Char :=
  d.chars ++ (d.choices.map Choices.text).getD []

namespace Leaf

/-- The name with its modifier and its default. -/
def part (l : Leaf) : List Char :=
  l.name.text ++ l.modifier.marks ++ (l.value.map fun v => '=' :: v.chars).getD []

def descriptionText (l : Leaf) : List Char := (l.description.map Description.text).getD []

/-- What follows the name, where `bar` is the text of nested entries; without a description there is
a colon only before such a text. -/
def tail (l : Leaf) (bar : List Char) : List Char :=
  if l.description.isNone ∧ bar = [] then []
  else l.before.chars ++ ':' :: (l.after.chars ++ l.descriptionText ++ bar)

def textWith (l : Leaf) (bar : List Char) : List Char :=
  (l.marker.map Marker.char).toList ++ (l.part ++ l.tail bar)

def text (l : Leaf) : List Char := l.textWith []

end Leaf

def nestedText (ns : List (Blanks × Leaf)) : List Char :=
  ns.flatMap fun (w, l) => w.chars ++ '{' :: l.text ++ ['}']

def Tree.bar (e : Tree) : List Char :=
  if e.nested = [] then [] else e.beforeBar.chars ++ '|' :: nestedText e.nested

def Tree.text (e : Tree) : List Char := e.textWith e.bar

/-! What is meant. -/

/-- A flag of one character takes one dash, a longer one two. -/
def Word.flag (w : Word) : String :=
  String.ofList (if w.chars.length = 1 then '-' :: w.chars else '-' :: '-' :: w.chars)

/-- The last of the words is the name of the entry. -/
def Name.last : Name → Word
  | argument w => w
  | flags w ws => ws.getLast?.getD w

def Name.isFlags : Name → Bool
  | argument _ => false
  | flags _ _ => true

namespace Leaf

def placeholder (l : Leaf) : Option String :=
  let name := l.name.last.chars
  match l.modifier, l.value with
  | .optional, _ => some (String.ofList ('[' :: name ++ [']']))
  | _, some v => some (String.ofList
      (if v.chars = [] then '<' :: name ++ ['>'] else '[' :: name ++ [']']))
  | _, none => none

/-- A repeated entry has a list of defaults, where a star means none; the default of a flag is
typed, that of an argument is text. -/
def defaultValue (l : Leaf) : Option DefaultValue :=
  l.value.map fun v =>
    if l.modifier.isRepeated then
      .list (if v.chars = ['*'] then [] else commaParts v.chars)
    else if l.name.isFlags then .ofText (String.ofList v.chars) false
    else .text (String.ofList v.chars)

def entry (l : Leaf) (nested : Option (List Entry)) : Entry where
  name := String.ofList l.name.last.chars
  flags := if l.name.isFlags then some (l.name.words.map Word.flag) else none
  isFlag := l.name.isFlags
  required := !l.name.isFlags && l.modifier == .plain && l.value.isNone
  multiple := l.modifier.isRepeated
  placeholder := l.placeholder
  description := l.description.map fun d => String.ofList d.chars
  defaultValue := l.defaultValue
  choices := ((l.description.bind Description.choices).map fun c =>
    c.list.map fun x => String.ofList x.chars).getD []
  hidden := l.marker matches some .hidden
  shared := l.marker matches some .shared
  nested

end Leaf

def Tree.entry (e : Tree) : Entry :=
  e.toLeaf.entry (if e.nested = [] then none else some (e.nested.map fun (_, l) => l.entry none))

end ConsoleSignature.Canonical
