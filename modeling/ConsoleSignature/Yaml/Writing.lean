import ConsoleSignature.Document
import ConsoleSignature.Yaml.Char
import ConsoleSignature.Yaml.Scalar

/-!
Documents as YAML text in block style. Text is plain where it cannot be taken for anything else, a
literal block if it has several lines, and quoted otherwise. Lines are never folded.
-/
namespace ConsoleSignature.Yaml

def numbers : NumberStyle where
  positional := some (-5, 15)
  whole := ".0"
  plus := ""
  tieUp := false
  nan := ".nan"
  infinity := ".inf"
  negativeInfinity := "-.inf"

namespace Written

def startIndicators : List Char :=
  ['#', ',', '[', ']', '{', '}', '&', '*', '!', '|', '>', '\'', '"', '%', '@', '\x60']

/-- Whether the first character would start something else than a plain scalar. -/
def startsAsSyntax (s : List Char) : Bool :=
  ['-', '-', '-'].isPrefixOf s || ['.', '.', '.'].isPrefixOf s ||
    match s with
    | c :: r =>
      startIndicators.contains c ||
        ((c == '?' || c == ':' || c == '-') && (r.head?.map isGap).getD true)
    | [] => false

/-- Whether a later character would end a plain scalar: a colon before a gap or a `#` after one. -/
def endsWithin : List Char → Bool
  | a :: b :: r =>
    (b == ':' && (r.head?.map isGap).getD true) || (b == '#' && isGap a) || endsWithin (b :: r)
  | _ => false

/-- Whether two neighbours, in this order, occur in the text. -/
def hasPair (p q : Char → Bool) : List Char → Bool
  | a :: b :: r => (p a && q b) || hasPair p q (b :: r)
  | _ => false

def isSpace (c : Char) : Bool := c == ' '

def edgeIs (p : Char → Bool) (c : Option Char) : Bool := (c.map p).getD false

/-- Only double quotes can hold unprintable characters and spaces before a break. -/
def needsEscapes (s : List Char) : Bool := s.any (!isPrintable ·) || hasPair isSpace isBreak s

def isPlain (s : List Char) : Bool :=
  !s.isEmpty && Scalar.isPlainText s && !needsEscapes s && !s.any isBreak
    && !edgeIs isSpace s.head? && !edgeIs isSpace s.getLast?
    && !startsAsSyntax s && !endsWithin s

/-- Quotes cannot hold spaces after a break. -/
def isSingle (s : List Char) : Bool := !needsEscapes s && !hasPair isBreak isSpace s

/-- A literal block cannot end in a space. -/
def isLiteral (s : List Char) : Bool :=
  s.contains '\n' && !needsEscapes s && !edgeIs isSpace s.getLast?

def spaces (n : Nat) : List Char := List.replicate n ' '

/-- Indents every line that is not empty; `fresh` tells that a line starts here. -/
def indented (n : Nat) : Bool → List Char → List Char
  | _, [] => []
  | fresh, c :: r =>
    if isBreak c then c :: indented n true r
    else (if fresh then spaces n else []) ++ c :: indented n false r

def single (n : Nat) (s : List Char) : List Char :=
  '\'' :: indented n false (s.flatMap fun c => if c = '\'' then ['\'', '\''] else [c])
    ++ (if edgeIs isBreak s.getLast? then spaces n else []) ++ ['\'']

def hex (width n : Nat) : List Char :=
  let ds := (Nat.toDigits 16 n).map Char.toUpper
  List.replicate (width - ds.length) '0' ++ ds

def escaped (c : Char) : List Char :=
  let n := c.toNat
  if c = '"' ∨ c = '\\' then ['\\', c]
  else if isPrintable c ∧ !isBreak c then [c]
  else
    match n with
    | 0 => ['\\', '0']
    | 7 => ['\\', 'a']
    | 8 => ['\\', 'b']
    | 9 => ['\\', 't']
    | 10 => ['\\', 'n']
    | 11 => ['\\', 'v']
    | 12 => ['\\', 'f']
    | 13 => ['\\', 'r']
    | 27 => ['\\', 'e']
    | 0x85 => ['\\', 'N']
    | 0x2028 => ['\\', 'L']
    | 0x2029 => ['\\', 'P']
    | _ =>
      if n ≤ 0xFF then '\\' :: 'x' :: hex 2 n
      else if n ≤ 0xFFFF then '\\' :: 'u' :: hex 4 n
      else '\\' :: 'U' :: hex 8 n

def double (s : List Char) : List Char := '"' :: s.flatMap escaped ++ ['"']

/-- The indentation must be given where it cannot be read off the first line. -/
def indentHint (s : List Char) : List Char :=
  if edgeIs isSpace s.head? || edgeIs isBreak s.head? then ['2'] else []

/-- How many breaks at the end belong to the text. -/
def breakHint (s : List Char) : List Char :=
  match s.reverse with
  | a :: b :: _ => if !isBreak a then ['-'] else if isBreak b then ['+'] else []
  | [a] => if isBreak a then ['+'] else ['-']
  | [] => ['-']

def endLine (s : List Char) : List Char := if edgeIs isBreak s.getLast? then [] else ['\n']

def literal (n : Nat) (s : List Char) : List Char :=
  '|' :: indentHint s ++ breakHint s ++ '\n' :: indented n true s ++ endLine s

/-- A text, its last line ended, inside a container that is indented by `n`. -/
def text (n : Nat) (s : List Char) : List Char :=
  if isLiteral s then literal (n + 2) s
  else if isPlain s then s ++ ['\n']
  else if isSingle s && !s.contains '\n' then single (n + 2) s ++ ['\n']
  else double s ++ ['\n']

def key (s : List Char) : List Char := if isPlain s then s else double s

def line (s : String) : String := s ++ "\n"

def pad (n : Nat) : String := String.ofList (spaces n)

/-- Entries of a container, the first where it stands and the others on lines of their own. -/
def stacked (n : Nat) (entries : List String) : String := (pad n).intercalate entries

end Written

open Written

mutual

/-- A value inside a container that is indented by `n`, after the key and its colon. -/
def valueText (n : Nat) : Document → String
  | .bool b => line (if b then " true" else " false")
  | .count k => line (" " ++ toString k)
  | .number x => line (" " ++ x.text numbers)
  | .text s => " " ++ String.ofList (Written.text n s.toList)
  | .list xs => if xs.isEmpty then line " []" else "\n" ++ pad n ++ stacked n (itemTexts n xs)
  | .record fs =>
    if fs.isEmpty then line " \x7b\x7d"
    else "\n" ++ pad (n + 2) ++ stacked (n + 2) (fieldTexts (n + 2) fs)

/-- A value after the dash of an item at indentation `n`. -/
def itemText (n : Nat) : Document → String
  | .bool b => line (if b then " true" else " false")
  | .count k => line (" " ++ toString k)
  | .number x => line (" " ++ x.text numbers)
  | .text s => " " ++ String.ofList (Written.text n s.toList)
  | .list xs => if xs.isEmpty then line " []" else " " ++ stacked (n + 2) (itemTexts (n + 2) xs)
  | .record fs =>
    if fs.isEmpty then line " \x7b\x7d" else " " ++ stacked (n + 2) (fieldTexts (n + 2) fs)

def itemTexts (n : Nat) : List Document → List String
  | [] => []
  | d :: ds => ("-" ++ itemText n d) :: itemTexts n ds

def fieldTexts (n : Nat) : List (String × Document) → List String
  | [] => []
  | (k, d) :: fs => (String.ofList (key k.toList) ++ ":" ++ valueText n d) :: fieldTexts n fs

end

/-- The text of a whole document, which is a record or a list if it has any structure. -/
def documentText : Document → String
  | .list xs => if xs.isEmpty then line "[]" else stacked 0 (itemTexts 0 xs)
  | .record fs => if fs.isEmpty then line "\x7b\x7d" else stacked 0 (fieldTexts 0 fs)
  | d => String.ofList ((valueText 0 d).toList.drop 1)

end ConsoleSignature.Yaml

namespace ConsoleSignature

def Document.yaml (d : Document) : String := Yaml.documentText d

end ConsoleSignature
