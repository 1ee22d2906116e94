import ConsoleSignature.Text.Split
import Mathlib.Data.List.Forall2

/-!
Texts as rows of symbols, which are the bytes of UTF-8 or the characters themselves. A slice is cut
out of a text at two offsets into its row, and there is one only where both fall between characters.
-/
namespace ConsoleSignature

variable {content : ByteArray} {text : String}

theorem fromUTF8?_eq_some_iff : String.fromUTF8? content = some text ↔ content = text.toUTF8 := by
  unfold String.fromUTF8?
  split
  · rename_i hvalid
    rw [Option.some.injEq, ← String.toByteArray_inj]
    rfl
  · rename_i hinvalid
    simp only [reduceCtorEq, false_iff]
    rintro rfl
    exact hinvalid text.isValidUTF8

namespace Text

/-- How characters are written as symbols. An ASCII character is a single symbol that is in no other
character, and a symbol tells whether a character starts with it. -/
structure Encoding (α : Type) where
  symbols : Char → List α
  /-- The symbol of an ASCII character. -/
  mark : Char → α
  isStart : α → Bool
  read? : List α → Option (List Char)
  symbols_of_ascii (c : Char) : c.toNat < 128 → symbols c = [mark c]
  mark_not_mem (c d : Char) : c.toNat < 128 → c ≠ d → mark c ∉ symbols d
  symbols_ne_nil (c : Char) : symbols c ≠ []
  isStart_iff (c : Char) (i : Nat) (h : i < (symbols c).length) : isStart (symbols c)[i] ↔ i = 0
  read?_symbols (s : List Char) : read? (s.flatMap symbols) = some s

namespace Encoding

/-- Every character is a symbol of its own. -/
def points : Encoding Char where
  symbols c := [c]
  mark c := c
  isStart _ := true
  read? := some
  symbols_of_ascii _ _ := rfl
  mark_not_mem _ _ _ h := by simpa using h
  symbols_ne_nil _ := by simp
  isStart_iff c i h := by simpa using h
  read?_symbols s := by simp

theorem utf8EncodeChar_of_ascii {c : Char} (h : c.toNat < 128) :
    String.utf8EncodeChar c = [c.val.toUInt8] := by
  refine String.utf8EncodeChar_eq_singleton (Char.utf8Size_eq_one_iff.2 ?_)
  exact UInt32.le_iff_toNat_le.2 (Nat.le_of_lt_succ h)

theorem le_toNat_or {x k : UInt8} (h : 128 ≤ k.toNat) : 128 ≤ (x ||| k).toNat := by
  rw [UInt8.toNat_or]
  exact Nat.le_trans h Nat.right_le_or

theorem le_toNat_of_mem_utf8EncodeChar {c : Char} (h : 128 ≤ c.toNat) {b : UInt8}
    (hb : b ∈ String.utf8EncodeChar c) : 128 ≤ b.toNat := by
  match hsize : c.utf8Size, c.utf8Size_pos, c.utf8Size_le_four with
  | 1, _, _ =>
    have hle : c.toNat ≤ 127 := UInt32.le_iff_toNat_le.1 (Char.utf8Size_eq_one_iff.1 hsize)
    omega
  | 2, _, _ =>
    simp only [String.utf8EncodeChar_eq_cons_cons hsize, List.mem_cons, List.not_mem_nil,
      or_false] at hb
    rcases hb with rfl | rfl <;> exact le_toNat_or (by decide)
  | 3, _, _ =>
    simp only [String.utf8EncodeChar_eq_cons_cons_cons hsize, List.mem_cons, List.not_mem_nil,
      or_false] at hb
    rcases hb with rfl | rfl | rfl <;> exact le_toNat_or (by decide)
  | 4, _, _ =>
    simp only [String.utf8EncodeChar_eq_cons_cons_cons_cons hsize, List.mem_cons, List.not_mem_nil,
      or_false] at hb
    rcases hb with rfl | rfl | rfl | rfl <;> exact le_toNat_or (by decide)

theorem toNat_toUInt8_of_ascii {c : Char} (h : c.toNat < 128) : c.val.toUInt8.toNat = c.toNat := by
  rw [UInt32.toNat_toUInt8]
  exact Nat.mod_eq_of_lt (Nat.lt_trans h (by decide))

theorem toUInt8_not_mem_utf8EncodeChar {c d : Char} (h : c.toNat < 128) (hne : c ≠ d) :
    c.val.toUInt8 ∉ String.utf8EncodeChar d := by
  intro hm
  have hbyte := toNat_toUInt8_of_ascii h
  rcases Nat.lt_or_ge d.toNat 128 with hd | hd
  · rw [utf8EncodeChar_of_ascii hd, List.mem_singleton] at hm
    rw [hm, toNat_toUInt8_of_ascii hd] at hbyte
    exact hne (Char.toNat_inj.1 hbyte.symm)
  · have hle := le_toNat_of_mem_utf8EncodeChar hd hm
    omega

/-- The bytes of UTF-8. -/
def utf8 : Encoding UInt8 where
  symbols := String.utf8EncodeChar
  mark c := c.val.toUInt8
  isStart b := b.IsUTF8FirstByte
  read? bs := (String.fromUTF8? bs.toByteArray).map String.toList
  symbols_of_ascii _ := utf8EncodeChar_of_ascii
  mark_not_mem _ _ := toUInt8_not_mem_utf8EncodeChar
  symbols_ne_nil _ := String.utf8EncodeChar_ne_nil
  isStart_iff c i h := by simp
  read?_symbols s := by
    have hbytes : (s.flatMap String.utf8EncodeChar).toByteArray = (String.ofList s).toUTF8 := rfl
    rw [fromUTF8?_eq_some_iff.2 hbytes]
    simp

section

variable {α : Type} {E : Encoding α} {c d : Char} {s t u v : List Char} {r : Nat × Nat}

def encode (E : Encoding α) (s : List Char) : List α := s.flatMap E.symbols

theorem encode_append (s t : List Char) : E.encode (s ++ t) = E.encode s ++ E.encode t :=
  List.flatMap_append

theorem encode_cons (c : Char) (s : List Char) : E.encode (c :: s) = E.symbols c ++ E.encode s :=
  List.flatMap_cons

theorem encode_cons_ascii (hc : c.toNat < 128) (s : List Char) :
    E.encode (c :: s) = E.mark c :: E.encode s := by
  rw [encode_cons, E.symbols_of_ascii c hc, List.singleton_append]

theorem length_encode_concat (s : List Char) (hc : c.toNat < 128) :
    (E.encode (s ++ [c])).length = (E.encode s).length + 1 := by
  rw [encode_append, encode_cons_ascii hc, List.length_append]
  rfl

theorem mark_mem_symbols_iff (hc : c.toNat < 128) : E.mark c ∈ E.symbols d ↔ c = d := by
  constructor
  · intro h
    by_contra hne
    exact E.mark_not_mem c d hc hne h
  · rintro rfl
    simp [E.symbols_of_ascii c hc]

theorem ne_mark_of_mem_symbols {a : α} (hc : c.toNat < 128) (hne : d ≠ c)
    (ha : a ∈ E.symbols d) : a ≠ E.mark c := by
  rintro rfl
  exact hne ((mark_mem_symbols_iff hc).1 ha).symm

theorem mark_inj (hc : c.toNat < 128) (hd : d.toNat < 128) : E.mark c = E.mark d ↔ c = d := by
  rw [← mark_mem_symbols_iff (E := E) hc, E.symbols_of_ascii d hd, List.mem_singleton]

theorem mark_mem_encode_iff (hc : c.toNat < 128) : E.mark c ∈ E.encode s ↔ c ∈ s := by
  simp [encode, mark_mem_symbols_iff hc]

theorem head?_encode_iff (hc : c.toNat < 128) :
    (E.encode s).head? = some (E.mark c) ↔ s.head? = some c := by
  cases s with
  | nil => simp [encode]
  | cons d s =>
    rw [encode_cons, List.head?_append_of_ne_nil _ (E.symbols_ne_nil d), List.head?_cons,
      Option.some.injEq]
    constructor
    · intro h
      exact ((mark_mem_symbols_iff hc).1 (List.mem_of_head? h)).symm
    · rintro rfl
      simp [E.symbols_of_ascii d hc]

/-- The text can be cut at both offsets: they are in order and in its row, and a character starts
at each of them where the row has not ended. -/
structure IsSlice (E : Encoding α) (t : List Char) (i j : Nat) : Prop where
  ordered : i ≤ j
  inBounds : j ≤ (E.encode t).length
  left : ∀ a ∈ (E.encode t)[i]?, E.isStart a
  right : ∀ a ∈ (E.encode t)[j]?, E.isStart a

instance (E : Encoding α) (t : List Char) (i j : Nat) : Decidable (E.IsSlice t i j) :=
  decidable_of_iff (i ≤ j ∧ j ≤ (E.encode t).length ∧ (E.encode t)[i]?.all E.isStart ∧
      (E.encode t)[j]?.all E.isStart) <| by
    simp only [Option.all_eq_true]
    exact ⟨fun ⟨h₁, h₂, h₃, h₄⟩ => ⟨h₁, h₂, h₃, h₄⟩, fun ⟨h₁, h₂, h₃, h₄⟩ => ⟨h₁, h₂, h₃, h₄⟩⟩

/-- The text between two offsets, if it can be cut there. -/
def slice? (E : Encoding α) (t : List Char) (i j : Nat) : Option (List Char) :=
  if E.IsSlice t i j then E.read? (((E.encode t).take j).drop i) else none

/-- The offsets are those between which a part of the text stands. -/
def Around (E : Encoding α) (t : List Char) (r : Nat × Nat) (s : List Char) : Prop :=
  ∃ u v, t = u ++ s ++ v ∧ r = ((E.encode u).length, (E.encode (u ++ s)).length)

theorem isStart_of_append {a : α} (h : a ∈ (E.encode (u ++ v))[(E.encode u).length]?) :
    E.isStart a := by
  rw [encode_append, List.getElem?_append_right (Nat.le_refl _), Nat.sub_self,
    ← List.head?_eq_getElem?] at h
  cases v with
  | nil => simp [encode] at h
  | cons c v =>
    rw [encode_cons, List.head?_append_of_ne_nil _ (E.symbols_ne_nil c),
      List.head?_eq_getElem?] at h
    obtain ⟨hlt, rfl⟩ := List.getElem?_eq_some_iff.1 h
    exact (E.isStart_iff c 0 hlt).2 rfl

theorem Around.isSlice (h : E.Around t r s) : E.IsSlice t r.1 r.2 := by
  obtain ⟨u, v, rfl, rfl⟩ := h
  refine ⟨?_, ?_, ?_, ?_⟩
  · simp [encode_append]
  · simp [encode_append]
  · intro a ha
    rw [List.append_assoc] at ha
    exact isStart_of_append ha
  · exact fun a ha => isStart_of_append ha

theorem Around.slice? (h : E.Around t r s) : E.slice? t r.1 r.2 = some s := by
  rw [Encoding.slice?, if_pos h.isSlice]
  obtain ⟨u, v, rfl, rfl⟩ := h
  simp only [encode_append, List.take_left, List.drop_left]
  exact E.read?_symbols s

theorem around_left (u v : List Char) : E.Around (u ++ v) (0, (E.encode u).length) u :=
  ⟨[], v, rfl, rfl⟩

theorem around_right (u v : List Char) :
    E.Around (u ++ v) ((E.encode u).length, (E.encode (u ++ v)).length) v :=
  ⟨u, [], by simp, rfl⟩

/-- The text without what stands between two offsets. -/
def without? (E : Encoding α) (t : List Char) (i j : Nat) : Option (List Char) := do
  let before ← E.slice? t 0 i
  let after ← E.slice? t j (E.encode t).length
  return before ++ after

theorem without?_append (s t u : List Char) :
    E.without? (s ++ t ++ u) (E.encode s).length (E.encode (s ++ t)).length = some (s ++ u) := by
  have hbefore : E.slice? (s ++ t ++ u) 0 (E.encode s).length = some s := by
    rw [List.append_assoc]
    exact (around_left s (t ++ u)).slice?
  rw [without?, hbefore, (around_right (s ++ t) u).slice?]
  rfl

theorem isSlice_of_around {rs : List (Nat × Nat)} {ts : List (List Char)}
    (h : List.Forall₂ (E.Around t) rs ts) : ∀ r ∈ rs, E.IsSlice t r.1 r.2 := by
  induction h with
  | nil => simp
  | cons hr _ ih => exact List.forall_mem_cons.2 ⟨hr.isSlice, ih⟩

theorem mapM_slice? {rs : List (Nat × Nat)} {ts : List (List Char)}
    (h : List.Forall₂ (E.Around t) rs ts) :
    (rs.mapM fun r => E.slice? t r.1 r.2) = some ts := by
  induction h with
  | nil => rfl
  | cons hr _ ih => simp [hr.slice?, ih]

end

/-- For bytes, the positions of a string are where a character starts or its row ends. -/
theorem isValid_utf8_iff {t : List Char} {i : Nat} :
    (⟨i⟩ : String.Pos.Raw).IsValid (String.ofList t) ↔
      i ≤ (utf8.encode t).length ∧ ∀ a ∈ (utf8.encode t)[i]?, utf8.isStart a := by
  have hsize : (String.ofList t).utf8ByteSize = (utf8.encode t).length := List.size_toByteArray
  have hend : (⟨i⟩ : String.Pos.Raw) = (String.ofList t).rawEndPos ↔
      i = (utf8.encode t).length := by
    rw [String.Pos.Raw.ext_iff, String.rawEndPos, hsize]
  have hlt : (⟨i⟩ : String.Pos.Raw) < (String.ofList t).rawEndPos ↔
      i < (utf8.encode t).length := by
    rw [String.Pos.Raw.lt_iff, String.rawEndPos, hsize]
  rw [String.Pos.Raw.isValid_iff_isUTF8FirstByte, hend]
  rcases Nat.lt_trichotomy i (utf8.encode t).length with hi | rfl | hi
  · have hbyte : (String.ofList t).getUTF8Byte ⟨i⟩ (hlt.2 hi) = (utf8.encode t)[i] :=
      List.getElem_toByteArray
    have hstart : utf8.isStart (utf8.encode t)[i] ↔ ((utf8.encode t)[i]).IsUTF8FirstByte :=
      decide_eq_true_iff
    rw [List.getElem?_eq_getElem hi]
    constructor
    · rintro (heq | ⟨_, h⟩)
      · exact absurd heq (Nat.ne_of_lt hi)
      · refine ⟨Nat.le_of_lt hi, ?_⟩
        rintro a ⟨⟩
        exact hstart.2 (hbyte ▸ h)
    · rintro ⟨-, h⟩
      exact .inr ⟨hlt.2 hi, hbyte ▸ hstart.1 (h _ rfl)⟩
  · rw [List.getElem?_eq_none (Nat.le_refl _)]
    simp
  · constructor
    · rintro (heq | ⟨h, -⟩)
      · exact absurd heq (Nat.ne_of_gt hi)
      · exact absurd (hlt.1 h) (Nat.lt_asymm hi)
    · rintro ⟨h, -⟩
      exact absurd h (Nat.not_le_of_lt hi)

/-- For bytes, the offsets of a slice are two positions of a string, in order. -/
theorem isSlice_utf8_iff {t : List Char} {i j : Nat} : utf8.IsSlice t i j ↔
    i ≤ j ∧ (⟨i⟩ : String.Pos.Raw).IsValid (String.ofList t) ∧
      (⟨j⟩ : String.Pos.Raw).IsValid (String.ofList t) := by
  rw [isValid_utf8_iff, isValid_utf8_iff]
  constructor
  · rintro ⟨hij, hj, hleft, hright⟩
    exact ⟨hij, ⟨Nat.le_trans hij hj, hleft⟩, hj, hright⟩
  · rintro ⟨hij, ⟨-, hleft⟩, hj, hright⟩
    exact ⟨hij, hj, hleft, hright⟩

example : utf8.IsSlice "né!".toList 0 3 ∧ ¬utf8.IsSlice "né!".toList 0 2 := by decide

end Encoding

end Text

end ConsoleSignature
