import ConsoleSignature.DefaultValue

/-!
Entries: what the blocks of a signature declare, which is an argument, an option or a sub-command.
-/
namespace ConsoleSignature

structure Entry where
  name : String
  /-- The spellings of an option in the order written; an argument has none. -/
  flags : Option (List String)
  isFlag : Bool
  required : Bool
  multiple : Bool
  /-- The token shown for the value, where the block fixes one. -/
  placeholder : Option String
  description : Option String
  defaultValue : Option DefaultValue
  choices : List String
  hidden : Bool
  /-- Whether a namespace attaches the entry to each of its sub-commands. -/
  shared : Bool
  nested : Option (List Entry)
deriving Inhabited, Repr

namespace Entry

def isArgument (e : Entry) : Bool := e.flags.isNone

/-- Whether the token is the name or one of the flags. -/
def answersTo (e : Entry) (token : String) : Bool :=
  e.name == token || e.flags.any (·.contains token)

def sameDefault : Option DefaultValue → Option DefaultValue → Bool
  | none, none => true
  | some v, some w => v.same w
  | _, _ => false

mutual

/-- Equality of all fields, numbers being compared as numbers. -/
def same : Entry → Entry → Bool
  | ⟨n, f, i, r, m, p, d, v, c, h, s, k⟩, ⟨n', f', i', r', m', p', d', v', c', h', s', k'⟩ =>
    n == n' && f == f' && i == i' && r == r' && m == m' && p == p' && d == d' && sameDefault v v'
      && c == c' && h == h' && s == s' && sameNested k k'

def sameNested : Option (List Entry) → Option (List Entry) → Bool
  | none, none => true
  | some xs, some ys => sameAll xs ys
  | _, _ => false

def sameAll : List Entry → List Entry → Bool
  | [], [] => true
  | x :: xs, y :: ys => same x y && sameAll xs ys
  | _, _ => false

end

/-- The first entry of each name. -/
def firstOfName : List Entry → List Entry
  | [] => []
  | e :: es => e :: (firstOfName es).filter (·.name != e.name)

end Entry

end ConsoleSignature
