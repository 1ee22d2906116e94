import ConsoleSignature.Document
import ConsoleSignature.Number.Style

/-!
Documents as JSON text, each item and field on a line of its own, indented by two spaces a level.
-/
namespace ConsoleSignature.Json

/-- A fraction is always written, and an exponent from `10 ^ 16` on and below `10 ^ (-5)`. -/
def numbers : NumberStyle where
  positional := some (-5, 15)
  whole := ".0"
  plus := "+"
  tieUp := false
  nan := "null"
  infinity := "null"
  negativeInfinity := "null"

def hexDigit (n : Nat) : Char := (Nat.toDigits 16 (n % 16)).headD '0'

/-- Quotes, backslashes and control characters are escaped. -/
def escaped (c : Char) : List Char :=
  match c with
  | '"' => ['\\', '"']
  | '\\' => ['\\', '\\']
  | '\n' => ['\\', 'n']
  | '\r' => ['\\', 'r']
  | '\t' => ['\\', 't']
  | c =>
    if c.toNat = 8 then ['\\', 'b']
    else if c.toNat = 12 then ['\\', 'f']
    else if c.toNat < 32 then
      ['\\', 'u', '0', '0', hexDigit (c.toNat / 16), hexDigit c.toNat]
    else [c]

def quoted (s : String) : String := String.ofList ('"' :: s.toList.flatMap escaped ++ ['"'])

def pad (indent : Nat) : String := String.ofList (List.replicate indent ' ')

/-- The items between brackets, on lines of their own if there are any. -/
def enclosed (opening closing : String) (indent : Nat) (items : List String) : String :=
  if items.isEmpty then opening ++ closing
  else opening ++ "\n" ++ ",\n".intercalate items ++ "\n" ++ pad indent ++ closing

mutual

def text (indent : Nat) : Document → String
  | .bool b => if b then "true" else "false"
  | .count n => toString n
  | .number x => x.text numbers
  | .text s => quoted s
  | .list xs => enclosed "[" "]" indent (items (indent + 2) xs)
  | .record fs => enclosed "\x7b" "\x7d" indent (fieldItems (indent + 2) fs)

def items (indent : Nat) : List Document → List String
  | [] => []
  | d :: ds => (pad indent ++ text indent d) :: items indent ds

def fieldItems (indent : Nat) : List (String × Document) → List String
  | [] => []
  | (k, d) :: fs => (pad indent ++ quoted k ++ ": " ++ text indent d) :: fieldItems indent fs

end

end ConsoleSignature.Json

namespace ConsoleSignature

def Document.json (d : Document) : String := Json.text 0 d

end ConsoleSignature
