import ConsoleSignature.Json.Token

/-!
Data of JSON text. Every token takes the reader one step further; the containers that stand open are
on a stack, so that nothing but memory limits their depth.
-/
namespace ConsoleSignature.Json

/-- A container that stands open, its contents in reverse order. -/
inductive Frame where
  | sequence (done : List Datum)
  | mapping (done : List (Datum × Datum))
  /-- A mapping that waits for the value of a key. -/
  | field (done : List (Datum × Datum)) (key : Datum)

/-- What may come next; `first` tells that the innermost container is still empty. -/
inductive State where
  | value (stack : List Frame) (first : Bool)
  | key (stack : List Frame) (first : Bool)
  | colon (stack : List Frame)
  | after (stack : List Frame)
  | finished (d : Datum)

namespace State

/-- Puts a finished value where it belongs. -/
def deliver (d : Datum) : List Frame → Option State
  | [] => some (finished d)
  | .sequence ds :: stack => some (after (.sequence (d :: ds) :: stack))
  | .field fs k :: stack => some (after (.mapping ((k, d) :: fs) :: stack))
  | .mapping _ :: _ => none

def closeBracket : List Frame → Option State
  | .sequence ds :: stack => deliver (.sequence ds.reverse) stack
  | _ => none

def closeBrace : List Frame → Option State
  | .mapping fs :: stack => deliver (.mapping fs.reverse) stack
  | _ => none

def textDatum : Option String → Datum
  | some s => .text s
  | none => .unreadable

def step : State → Token → Option State
  | value stack _, .literal d => deliver d stack
  | value stack _, .text s => deliver (textDatum s) stack
  | value stack _, .openBracket => some (value (.sequence [] :: stack) true)
  | value stack _, .openBrace => some (key (.mapping [] :: stack) true)
  | value stack true, .closeBracket => closeBracket stack
  | key (.mapping fs :: stack) _, .text s => some (colon (.field fs (textDatum s) :: stack))
  | key stack true, .closeBrace => closeBrace stack
  | colon stack, .colon => some (value stack false)
  | after (.sequence ds :: stack), .comma => some (value (.sequence ds :: stack) false)
  | after (.mapping fs :: stack), .comma => some (key (.mapping fs :: stack) false)
  | after stack, .closeBracket => closeBracket stack
  | after stack, .closeBrace => closeBrace stack
  | _, _ => none

end State

def ofTokens? (ts : List Token) : Option Datum :=
  match ts.foldlM State.step (.value [] false) with
  | some (.finished d) => some d
  | _ => none

/-- The number of levels in which containers may stand. -/
def maxDepth : Nat := 127

/-- The datum that the whole text spells. Containers in too many levels denote nothing. -/
def read? (s : String) : Option Datum :=
  ((Token.scan? s.toList).bind ofTokens?).map (Datum.limitDepth maxDepth)

end ConsoleSignature.Json
