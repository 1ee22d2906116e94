/-! The classes of characters that YAML tells apart. -/
namespace ConsoleSignature.Yaml

def isBreak (c : Char) : Bool :=
  c == '\n' || c == '\r' || c.toNat == 0x85 || c.toNat == 0x2028 || c.toNat == 0x2029

def isPrintable (c : Char) : Bool :=
  let n := c.toNat
  n == 0x0A || (0x20 ≤ n && n ≤ 0x7E) || (0xA0 ≤ n && n != 0xFEFF && n != 0xFFFE && n != 0xFFFF)

def isBlank (c : Char) : Bool := c == ' ' || c == '\t'

/-- Characters that end a word: spaces, tabs and breaks. -/
def isGap (c : Char) : Bool := isBlank c || isBreak c

/-- The end of the text counts as a gap. -/
def isGapAt (c : Option Char) : Bool := (c.map isGap).getD true

def isBreakAt (c : Option Char) : Bool := (c.map isBreak).getD true

/-- Characters of names: ASCII letters, digits, underscores and dashes. -/
def isNameChar (c : Char) : Bool := c.isAlphanum || c == '_' || c == '-'

def isFlowIndicator (c : Char) : Bool := c == ',' || c == '[' || c == ']' || c == '{' || c == '}'

/-- Characters that a text may hold at all. -/
def isAllowed (c : Char) : Bool :=
  let n := c.toNat
  n == 9 || n == 10 || n == 13 || (0x20 ≤ n && n ≤ 0x7E) || n == 0x85
    || (0xA0 ≤ n && n != 0xFFFE && n != 0xFFFF)

def isByteOrderMark (c : Char) : Bool := c.toNat == 0xFEFF

end ConsoleSignature.Yaml
