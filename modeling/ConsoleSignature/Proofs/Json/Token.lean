import ConsoleSignature.Json.Reading
import ConsoleSignature.Json.Writing
import Mathlib.Tactic.SplitIfs

/-!
The tokens of a written document. What is written between the tokens, which is spaces alone, does
not matter to the reader; quoted text is read back unit by unit.
-/
namespace ConsoleSignature.Json

variable {c : Char} {s s' r : List Char} {ts ts' : List Token} {t : Token} {d : Document} {n : Nat}

theorem hexNumber?_control : ∀ n < 32,
    Text.hexNumber? ['0', '0', hexDigit (n / 16), hexDigit n] = some n := by decide

/-- Whatever way a character is escaped, it is read as one unit. -/
theorem takeUnits?_escaped (c : Char) (r : List Char) :
    takeUnits? (escaped c ++ r) = (takeUnits? r).map (Prod.map (c.toNat :: ·) id) := by
  have hunits (n : Nat) : ((takeUnits? r).bind fun x => some (n :: x.1, x.2)) =
      (takeUnits? r).map (Prod.map (n :: ·) id) := by
    cases takeUnits? r <;> rfl
  unfold escaped
  split
  · exact hunits 0x22
  · exact hunits 0x5C
  · exact hunits 0x0A
  · exact hunits 0x0D
  · exact hunits 0x09
  · rename_i hquote hslash _ _ _
    split_ifs with hback hfeed hcontrol
    · rw [hback]
      exact hunits 0x08
    · rw [hfeed]
      exact hunits 0x0C
    · have hhex := hexNumber?_control c.toNat hcontrol
      simp only [List.cons_append, List.nil_append, takeUnits?, hhex]
      exact hunits c.toNat
    · rw [List.singleton_append, takeUnits?, if_neg hcontrol]
      · exact hunits c.toNat
      · exact hquote
      · exact fun _ _ _ _ _ he => absurd he hslash
      · exact fun _ _ he => absurd he hslash

theorem takeUnits?_quoted (s r : List Char) :
    takeUnits? (s.flatMap escaped ++ '"' :: r) = some (s.map Char.toNat, r) := by
  induction s with
  | nil => rfl
  | cons c s ih =>
    rw [List.flatMap_cons, List.append_assoc, takeUnits?_escaped, ih]
    rfl

/-- No character is half of a surrogate pair. -/
theorem not_isSurrogate (c : Char) :
    isHighSurrogate c.toNat = false ∧ isLowSurrogate c.toNat = false := by
  have hvalid : c.toNat < 0xD800 ∨ 0xDFFF < c.toNat ∧ c.toNat < 0x110000 := c.valid
  simp only [isHighSurrogate, isLowSurrogate, Bool.and_eq_false_iff, decide_eq_false_iff_not]
  omega

theorem ofUnits?_map_toNat (s : List Char) : ofUnits? (s.map Char.toNat) = some s := by
  induction s with
  | nil => rfl
  | cons c s ih =>
    obtain ⟨hhigh, hlow⟩ := not_isSurrogate c
    cases s with
    | nil => simp [ofUnits?, hhigh, hlow]
    | cons c' s => simp_all [ofUnits?]

/-- The text is made of these tokens, whatever stands after it. -/
def Scans (s : List Char) (ts : List Token) : Prop :=
  ∀ r, Token.scan? (s ++ r) = (Token.scan? r).map (ts ++ ·)

theorem scans_nil : Scans [] [] := by
  intro r
  cases h : Token.scan? r <;> simp [h]

theorem Scans.append (h : Scans s ts) (h' : Scans s' ts') : Scans (s ++ s') (ts ++ ts') := by
  intro r
  rw [List.append_assoc, h, h', Option.map_map]
  simp [Function.comp_def]

theorem scans_space (h : Token.isSpace c) : Scans [c] [] := by
  intro r
  rw [List.singleton_append, Token.scan?, if_pos h]
  cases Token.scan? r <;> rfl

theorem scans_spaces (h : ∀ c ∈ s, Token.isSpace c) : Scans s [] := by
  induction s with
  | nil => exact scans_nil
  | cons c s ih =>
    rw [List.forall_mem_cons] at h
    exact (scans_space h.1).append (ih h.2)

theorem scans_pad (indent : Nat) : Scans (pad indent).toList [] := by
  apply scans_spaces
  intro c hc
  rw [pad, String.toList_ofList] at hc
  rw [List.eq_of_mem_replicate hc]
  decide

theorem scans_token (hc : Token.isSpace c = false)
    (h : ∀ r, Token.take? (c :: s ++ r) = some (t, r)) : Scans (c :: s) [t] := by
  intro r
  rw [List.cons_append, Token.scan?, if_neg (by simp [hc])]
  have htake : Token.take? (c :: (s ++ r)) = some (t, r) := h r
  split
  · rename_i hnone
    rw [htake] at hnone
    cases hnone
  · rename_i t' r' hsome
    rw [htake] at hsome
    cases hsome
    rfl

theorem scans_quoted (x : String) : Scans (quoted x).toList [.text (some x)] := by
  rw [quoted, String.toList_ofList, List.cons_append]
  refine scans_token rfl fun r => ?_
  rw [List.cons_append, List.append_assoc, List.singleton_append, Token.take?, takeUnits?_quoted]
  simp [ofUnits?_map_toNat]

/-- Items on lines of their own are told apart by the commas between them. -/
theorem scans_intercalate {α : Type} {xs : List α} {f : α → String} {g : α → List Token}
    (h : ∀ x ∈ xs, Scans (f x).toList (g x)) :
    Scans (",\n".intercalate (xs.map f)).toList ([.comma].intercalate (xs.map g)) := by
  have hcomma : Scans [',', '\n'] [.comma] :=
    (scans_token (t := .comma) (s := []) rfl fun _ => rfl).append (scans_space (c := '\n') rfl)
  rw [String.toList_intercalate]
  induction xs with
  | nil => exact scans_nil
  | cons x xs ih =>
    rw [List.forall_mem_cons] at h
    cases xs with
    | nil => simpa using h.1
    | cons y ys =>
      simp only [List.map_cons, List.intercalate_cons_cons] at ih ⊢
      exact (h.1.append hcomma).append (ih h.2)

theorem scans_enclosed {opening closing : String} {first last : Token} {items : List String}
    (hopening : Scans opening.toList [first]) (hclosing : Scans closing.toList [last])
    (h : Scans (",\n".intercalate items).toList ts) (indent : Nat) :
    Scans (enclosed opening closing indent items).toList (first :: ts ++ [last]) := by
  have hline : Scans ['\n'] [] := scans_space rfl
  unfold enclosed
  split
  · rename_i hnone
    obtain rfl := List.isEmpty_iff.1 hnone
    have hnil : ts = [] := by simpa [Token.scan?] using h []
    rw [hnil, String.toList_append]
    exact hopening.append hclosing
  · have hlines := ((hopening.append hline).append h).append hline
    simpa using (hlines.append (scans_pad indent)).append hclosing

mutual

/-- The tokens that a document is written in. -/
def tokens : Document → List Token
  | .bool b => [.literal (.bool b)]
  | .count n => [.literal (.integer n)]
  | .number x => [.literal ((Document.number x).datum .kept)]
  | .text s => [.text (some s)]
  | .list xs => .openBracket :: [.comma].intercalate (itemTokens xs) ++ [.closeBracket]
  | .record fs => .openBrace :: [.comma].intercalate (fieldTokens fs) ++ [.closeBrace]

def itemTokens : List Document → List (List Token)
  | [] => []
  | d :: ds => tokens d :: itemTokens ds

def fieldTokens : List (String × Document) → List (List Token)
  | [] => []
  | (k, d) :: fs => (.text (some k) :: .colon :: tokens d) :: fieldTokens fs

end

theorem itemTokens_eq_map (ds : List Document) : itemTokens ds = ds.map tokens := by
  induction ds with
  | nil => rfl
  | cons d ds ih => rw [itemTokens, ih, List.map_cons]

theorem fieldTokens_eq_map (fs : List (String × Document)) :
    fieldTokens fs = fs.map fun f => .text (some f.1) :: .colon :: tokens f.2 := by
  induction fs with
  | nil => rfl
  | cons f fs ih => rw [fieldTokens, ih, List.map_cons]

theorem items_eq_map (indent : Nat) (ds : List Document) :
    items indent ds = ds.map fun d => pad indent ++ text indent d := by
  induction ds with
  | nil => rfl
  | cons d ds ih => rw [items, ih, List.map_cons]

theorem fieldItems_eq_map (indent : Nat) (fs : List (String × Document)) :
    fieldItems indent fs = fs.map fun f => pad indent ++ quoted f.1 ++ ": " ++ text indent f.2 := by
  induction fs with
  | nil => rfl
  | cons f fs ih => rw [fieldItems, ih, List.map_cons]

/-- There are only texts and truth values in the document, in so many levels of containers at most.
-/
inductive Plain : Nat → Document → Prop
  | bool (n : Nat) (b : Bool) : Plain n (.bool b)
  | text (n : Nat) (s : String) : Plain n (.text s)
  | list {n : Nat} {ds : List Document} : (∀ d ∈ ds, Plain n d) → Plain (n + 1) (.list ds)
  | record {n : Nat} {fs : List (String × Document)} :
    (∀ f ∈ fs, Plain n f.2) → Plain (n + 1) (.record fs)

theorem scans_text (h : Plain n d) (indent : Nat) : Scans (text indent d).toList (tokens d) := by
  induction h generalizing indent with
  | bool n b =>
    rw [text, tokens]
    cases b with
    | false => exact scans_token (c := 'f') (s := ['a', 'l', 's', 'e']) rfl fun _ => rfl
    | true => exact scans_token (c := 't') (s := ['r', 'u', 'e']) rfl fun _ => rfl
  | text n s =>
    rw [text, tokens]
    exact scans_quoted s
  | list h ih =>
    rw [text, tokens, items_eq_map, itemTokens_eq_map]
    have hopening : Scans "[".toList [.openBracket] := scans_token (s := []) rfl fun _ => rfl
    have hclosing : Scans "]".toList [.closeBracket] := scans_token (s := []) rfl fun _ => rfl
    refine scans_enclosed hopening hclosing (scans_intercalate fun d hd => ?_) indent
    rw [String.toList_append]
    exact (scans_pad _).append (ih d hd _)
  | record h ih =>
    rw [text, tokens, fieldItems_eq_map, fieldTokens_eq_map]
    have hopening : Scans "\x7b".toList [.openBrace] := scans_token (s := []) rfl fun _ => rfl
    have hclosing : Scans "\x7d".toList [.closeBrace] := scans_token (s := []) rfl fun _ => rfl
    have hcolon : Scans ": ".toList [.colon] :=
      (scans_token (t := .colon) (s := []) rfl fun _ => rfl).append (scans_space (c := ' ') rfl)
    refine scans_enclosed hopening hclosing (scans_intercalate fun f hf => ?_) indent
    simp only [String.toList_append]
    exact (((scans_pad _).append (scans_quoted f.1)).append hcolon).append (ih f hf _)

end ConsoleSignature.Json
