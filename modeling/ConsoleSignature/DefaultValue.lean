import ConsoleSignature.Text.Split
import ConsoleSignature.Number.Style

/-! The value an entry has when none is given. -/
namespace ConsoleSignature

inductive DefaultValue where
  | bool (b : Bool)
  | number (x : Binary64)
  | text (s : String)
  | list (xs : List String)
deriving DecidableEq, Inhabited, Repr

namespace DefaultValue

/-- Numbers inside text are written positionally, whatever their size. -/
def plainNumber : NumberStyle where
  positional := none
  whole := ""
  plus := ""
  tieUp := true
  nan := "NaN"
  infinity := "inf"
  negativeInfinity := "-inf"

def display : DefaultValue → String
  | bool b => if b then "true" else "false"
  | number x => x.text plainNumber
  | text s => s
  | list xs => ",".intercalate xs

def finite? (s : List Char) : Option Binary64 :=
  (Decimal.read? s).bind fun (negative, d) =>
    let x := Binary64.ofDecimal negative d.digits d.exponent
    if x.isFinite then some x else none

/-- The typed value of raw text: a lone star is the empty list, the two truth values and numbers are
themselves, nothing at all is false unless a value is required, all else stays text. -/
def ofText (raw : String) (required : Bool) : DefaultValue :=
  if raw = "*" then list []
  else if raw = "true" then bool true
  else if raw = "false" then bool false
  else if raw = "" ∧ required = false then bool false
  else
    match finite? (Text.trim raw.toList) with
    | some x => number x
    | none => text raw

/-- Text becomes its comma-separated parts, a single value a list of its own. -/
def asList : DefaultValue → DefaultValue
  | list xs => list xs
  | text s => list (Text.commaParts s.toList)
  | v => list [v.display]

def isBlank (v : DefaultValue) : Bool := v == text ""

/-- Numeric equality on numbers, so that the two zeros are the same value. -/
def same : DefaultValue → DefaultValue → Bool
  | number x, number y => x.same y
  | v, w => v == w

end DefaultValue

end ConsoleSignature
