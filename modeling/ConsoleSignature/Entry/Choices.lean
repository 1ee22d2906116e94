import ConsoleSignature.Text.Split
import ConsoleSignature.Text.Word

/-! The list of choices that may close a description after a colon, in brackets or bare. -/
namespace ConsoleSignature.Entry

open Text

def isChoiceChar (c : Char) : Bool :=
  isWord c || isBlank c || c == ',' || c == '.' || c == '/' || c == '-'

/-- What follows an opening bracket, before which blanks may stand; without one, all of it. -/
def afterBracket (s : List Char) : List Char :=
  match trimStart s with
  | '[' :: r => r
  | _ => s

def beforeBracket (s : List Char) : List Char :=
  match s.reverse with
  | ']' :: r => r.reverse
  | _ => s

/-- The text and the choices of a description that ends in a list of choices. -/
def cutChoices? (description : List Char) : Option (List Char × List String) :=
  match cut ':' description with
  | (text, some rest) =>
    let list := beforeBracket (afterBracket rest)
    if text ≠ [] ∧ list ≠ [] ∧ list.all isChoiceChar then some (trim text, commaParts list)
    else none
  | (_, none) => none

def cutChoices (description : List Char) : List Char × List String :=
  (cutChoices? description).getD (trim description, [])

end ConsoleSignature.Entry
