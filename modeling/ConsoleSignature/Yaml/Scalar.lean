import ConsoleSignature.Datum
import ConsoleSignature.DefaultValue

/-!
Plain scalars under the core schema: null, the truth values, integers in four bases and numbers are
told from text by their spelling.
-/
namespace ConsoleSignature.Yaml.Scalar

def isNull (s : List Char) : Bool :=
  s.isEmpty || ["null", "Null", "NULL", "~"].any (·.toList == s)

def bool? (s : List Char) : Option Bool :=
  if ["true", "True", "TRUE"].any (·.toList == s) then some true
  else if ["false", "False", "FALSE"].any (·.toList == s) then some false
  else none

def digitValue? (base : Nat) (c : Char) : Option Nat :=
  let n := c.toNat
  let v :=
    if '0'.toNat ≤ n ∧ n ≤ '9'.toNat then n - '0'.toNat
    else if 'a'.toNat ≤ n ∧ n ≤ 'z'.toNat then n - 'a'.toNat + 10
    else if 'A'.toNat ≤ n ∧ n ≤ 'Z'.toNat then n - 'A'.toNat + 10
    else base
  if v < base then some v else none

def natural? (base : Nat) (s : List Char) : Option Nat :=
  if s.isEmpty then none else s.foldlM (fun n c => (digitValue? base c).map (base * n + ·)) 0

/-- A sequence of digits with a needless leading zero is text. -/
def isPadded (s : List Char) : Bool :=
  match s with
  | '0' :: d :: ds => (d :: ds).all Char.isDigit
  | _ => false

/-- The value of digits without a sign, in the base that their first two characters may name. -/
def magnitude? (s : List Char) : Option Nat :=
  match s with
  | '0' :: 'x' :: ds => natural? 16 ds
  | '0' :: 'o' :: ds => natural? 8 ds
  | '0' :: 'b' :: ds => natural? 2 ds
  | ds => if isPadded ds then none else natural? 10 ds

/-- An integer that a machine word holds. Minus zero is a number, and what needs 65 to 128 bits is
well formed but denotes nothing. -/
def integer? (s : List Char) : Option Datum :=
  let (negative, ds) := Decimal.splitSign s
  match magnitude? ds with
  | none => none
  | some m =>
    if negative then
      if m = 0 then some (.number (Binary64.zero true))
      else if m ≤ UInt64.size / 2 then some (.integer (-m))
      else if m ≤ UInt64.size * UInt64.size / 2 then some .unreadable
      else none
    else if m < UInt64.size then some (.integer m)
    else if m < UInt64.size * UInt64.size then some .unreadable
    else none

def special? (s : List Char) : Option Binary64 :=
  let unsigned := match s with
    | '+' :: r => r
    | r => r
  if [".inf", ".Inf", ".INF"].any (·.toList == unsigned) then some (Binary64.infinity false)
  else if ["-.inf", "-.Inf", "-.INF"].any (·.toList == s) then some (Binary64.infinity true)
  else if [".nan", ".NaN", ".NAN"].any (·.toList == s) then some ⟨0x7FF8000000000000⟩
  else none

def number? (s : List Char) : Option Binary64 := (special? s).or (DefaultValue.finite? s)

/-- What a plain scalar stands for. -/
def plain (s : List Char) : Datum :=
  if isNull s then .null
  else
    match bool? s, integer? s with
    | some b, _ => .bool b
    | none, some d => d
    | none, none =>
      if isPadded (Decimal.splitSign s).2 then .text (String.ofList s)
      else
        match number? s with
        | some x => .number x
        | none => .text (String.ofList s)

/-- Whether the spelling alone shows that it is text. -/
def isPlainText (s : List Char) : Bool :=
  match plain s with
  | .text _ => !isPadded (Decimal.splitSign s).2
  | _ => false

theorem integer?_ne_text (s : List Char) (t : String) : integer? s ≠ some (.text t) := by
  unfold integer?
  dsimp only
  split
  · simp
  · split
    · split
      · simp
      · split
        · simp
        · split <;> simp
    · split
      · simp
      · split <;> simp

/-- What stands for a text stands for itself. -/
theorem eq_of_plain_eq_text {s : List Char} {t : String} (h : plain s = .text t) :
    t = String.ofList s := by
  unfold plain at h
  split at h
  · simp at h
  · split at h
    · simp at h
    · rename_i d _ hd
      exact absurd (h ▸ hd) (integer?_ne_text s t)
    · split at h
      · simpa [eq_comm] using h
      · split at h
        · simp at h
        · simpa [eq_comm] using h

/-- A text that needs no quotes is read back as it was written. -/
theorem plain_of_isPlainText {s : List Char} (h : isPlainText s) :
    plain s = .text (String.ofList s) := by
  unfold isPlainText at h
  split at h
  · rename_i t ht
    rw [ht, eq_of_plain_eq_text ht]
  · simp at h

example : plain "yes".toList = .text "yes" := plain_of_isPlainText (by decide +kernel)

end ConsoleSignature.Yaml.Scalar
