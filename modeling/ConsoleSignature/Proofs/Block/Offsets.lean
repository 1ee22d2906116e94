import ConsoleSignature.Block
import ConsoleSignature.Proofs.Text.Encoding
import Mathlib.Data.List.Forall2

/-!
Blocks found by their offsets. The search goes through the symbols of a text one by one, where a
character may have several; what it cuts out are the blocks that a search by characters finds.
-/
namespace ConsoleSignature.Block

open Text

section Search

variable {α : Type} [DecidableEq α] (E : Encoding α)

/-- The offset of the brace that closes a block, where `inner` tells whether a brace stands open
inside it, and what is left of its row starts at offset `i`. -/
def closeAt? (inner : Bool) (i : Nat) : List α → Option Nat
  | [] => none
  | a :: r =>
    if a = E.mark '{' then
      if inner then none else closeAt? true (i + 1) r
    else if a = E.mark '}' then
      if inner then closeAt? false (i + 1) r else some i
    else closeAt? inner (i + 1) r

/-- Where the block closes that opens at offset `i`. -/
def endAt? (xs : List α) (i : Nat) : Option Nat :=
  match xs[i + 1]? with
  | none => none
  | some a =>
    if a = E.mark '{' ∨ a = E.mark '}' then none else closeAt? E false (i + 1) (xs.drop (i + 1))

variable {E}

theorem le_of_closeAt? {inner : Bool} {i j : Nat} {xs : List α}
    (h : closeAt? E inner i xs = some j) : i ≤ j := by
  fun_induction closeAt? E inner i xs with
  | case1 => simp at h
  | case2 => simp at h
  | case3 _ _ _ _ ih => exact Nat.le_of_succ_le (ih h)
  | case4 _ _ _ ih => exact Nat.le_of_succ_le (ih h)
  | case5 => exact Nat.le_of_eq (Option.some.inj h)
  | case6 _ _ _ _ _ _ ih => exact Nat.le_of_succ_le (ih h)

theorem lt_of_endAt? {i j : Nat} {xs : List α} (h : endAt? E xs i = some j) : i < j := by
  unfold endAt? at h
  split at h
  · simp at h
  · split at h
    · simp at h
    · exact le_of_closeAt? h

variable (E)

/-- The offsets around each block from offset `i` on. -/
def ranges (xs : List α) (i : Nat) : List (Nat × Nat) :=
  if _hi : i < xs.length then
    if xs[i] = E.mark '{' then
      match _h : endAt? E xs i with
      | some j => (i + 1, j) :: ranges xs (j + 1)
      | none => ranges xs (i + 1)
    else ranges xs (i + 1)
  else []
termination_by xs.length - i
decreasing_by
  · have := lt_of_endAt? ‹_›
    omega
  · omega
  · omega

/-- The blocks of a text, cut out at their offsets. -/
def extract? (t : List Char) : Option (List (List Char)) :=
  (ranges E (E.encode t) 0).mapM fun r => E.slice? t r.1 r.2

end Search

variable {α : Type} [DecidableEq α] {E : Encoding α} {xs ys zs : List α} {s t u v : List Char}
  {c : Char} {i : Nat} {inner : Bool}

theorem closeAt?_append (h : ∀ a ∈ xs, a ≠ E.mark '{' ∧ a ≠ E.mark '}') (i : Nat) :
    closeAt? E inner i (xs ++ ys) = closeAt? E inner (i + xs.length) ys := by
  induction xs generalizing i with
  | nil => rfl
  | cons a xs ih =>
    rw [List.forall_mem_cons] at h
    rw [List.cons_append, closeAt?, if_neg h.1.1, if_neg h.1.2, ih h.2, List.length_cons,
      Nat.add_right_comm, Nat.add_assoc]

theorem closeAt?_open (inner : Bool) (i : Nat) (s : List Char) :
    closeAt? E inner i (E.encode ('{' :: s)) =
      if inner then none else closeAt? E true (i + (E.symbols '{').length) (E.encode s) := by
  rw [E.encode_cons_ascii (by decide), closeAt?, if_pos rfl, E.symbols_of_ascii _ (by decide)]
  rfl

theorem closeAt?_close (inner : Bool) (i : Nat) (s : List Char) :
    closeAt? E inner i (E.encode ('}' :: s)) =
      if inner then closeAt? E false (i + (E.symbols '}').length) (E.encode s) else some i := by
  have hne : E.mark '}' ≠ E.mark '{' := by
    rw [Ne, Encoding.mark_inj (by decide) (by decide)]
    decide
  rw [E.encode_cons_ascii (by decide), closeAt?, if_neg hne, if_pos rfl,
    E.symbols_of_ascii _ (by decide)]
  rfl

theorem closeAt?_other (hopen : c ≠ '{') (hclose : c ≠ '}') (inner : Bool) (i : Nat)
    (s : List Char) : closeAt? E inner i (E.encode (c :: s)) =
      closeAt? E inner (i + (E.symbols c).length) (E.encode s) := by
  rw [Encoding.encode_cons]
  exact closeAt?_append (fun a ha => ⟨Encoding.ne_mark_of_mem_symbols (by decide) hopen ha,
    Encoding.ne_mark_of_mem_symbols (by decide) hclose ha⟩) i

/-- A search by offsets that starts behind `i` symbols and one by characters close a block alike. -/
theorem closeAt?_encode (inner : Bool) (i : Nat) (s : List Char) :
    closeAt? E inner i (E.encode s) =
      (close? inner s).map fun p => i + (E.encode p.1).length := by
  have hstep (c : Char) (i : Nat) (closed : Option (List Char × List Char)) :
      (closed.map (Prod.map (c :: ·) id)).map (fun p => i + (E.encode p.1).length) =
        closed.map fun p => i + (E.symbols c).length + (E.encode p.1).length := by
    simp [Function.comp_def, Encoding.encode_cons, Nat.add_assoc]
  induction s generalizing inner i with
  | nil => rfl
  | cons c s ih =>
    by_cases hopen : c = '{'
    · subst hopen
      rw [closeAt?_open, close?, if_pos rfl, ih]
      cases inner with
      | true => rfl
      | false => exact (hstep '{' i (close? true s)).symm
    by_cases hclose : c = '}'
    · subst hclose
      rw [closeAt?_close, close?, if_neg hopen, if_pos rfl]
      cases inner with
      | true => rw [if_pos rfl, if_pos rfl, ih, hstep]
      | false => simp [Encoding.encode]
    · rw [closeAt?_other hopen hclose, close?, if_neg hopen, if_neg hclose, ih, hstep]

theorem endAt?_encode (u s : List Char) :
    endAt? E (E.encode (u ++ '{' :: s)) (E.encode u).length =
      (body? s).map fun p => (E.encode (u ++ '{' :: p.1)).length := by
  have hrow : E.encode (u ++ '{' :: s) = E.encode (u ++ ['{']) ++ E.encode s := by
    rw [← Encoding.encode_append, List.append_assoc, List.singleton_append]
  have hlength : (E.encode u).length + 1 = (E.encode (u ++ ['{'])).length :=
    (Encoding.length_encode_concat u (by decide)).symm
  rw [endAt?, hlength, hrow, List.drop_left, List.getElem?_append_right (Nat.le_refl _),
    Nat.sub_self, ← List.head?_eq_getElem?]
  cases s with
  | nil => rfl
  | cons c s =>
    obtain ⟨a, ha⟩ : ∃ a, (E.encode (c :: s)).head? = some a := by
      rw [Encoding.encode_cons, List.head?_append_of_ne_nil _ (E.symbols_ne_nil c)]
      exact ⟨_, List.head?_eq_some_head (E.symbols_ne_nil c)⟩
    have hmark (d : Char) (hd : d.toNat < 128) : a = E.mark d ↔ c = d := by
      have := Encoding.head?_encode_iff (E := E) (s := c :: s) hd
      simpa [ha] using this
    simp only [ha, hmark '{' (by decide), hmark '}' (by decide), body?]
    split
    · rfl
    · rw [closeAt?_encode]
      simp only [← List.length_append, ← Encoding.encode_append, List.append_assoc,
        List.singleton_append]

theorem ranges_append (h : ∀ a ∈ ys, a ≠ E.mark '{') (xs zs : List α) :
    ranges E (xs ++ ys ++ zs) xs.length = ranges E (xs ++ ys ++ zs) (xs ++ ys).length := by
  induction ys generalizing xs with
  | nil => simp
  | cons a ys ih =>
    rw [List.forall_mem_cons] at h
    have hrow : xs ++ a :: ys = xs ++ [a] ++ ys := by simp
    have hstep : ranges E (xs ++ [a] ++ ys ++ zs) xs.length =
        ranges E (xs ++ [a] ++ ys ++ zs) (xs ++ [a]).length := by
      rw [ranges, dif_pos (by simp), if_neg (by simpa using h.1), List.length_append]
      rfl
    rw [hrow, hstep, ih h.2 (xs ++ [a])]

theorem ranges_other (hc : c ≠ '{') (u s : List Char) :
    ranges E (E.encode (u ++ c :: s)) (E.encode u).length =
      ranges E (E.encode (u ++ c :: s)) (E.encode (u ++ [c])).length := by
  have hsymbols : ∀ a ∈ E.symbols c, a ≠ E.mark '{' :=
    fun a ha => Encoding.ne_mark_of_mem_symbols (by decide) hc ha
  have h := ranges_append hsymbols (E.encode u) (E.encode s)
  have hrow : E.encode u ++ E.symbols c = E.encode (u ++ [c]) := by
    simp [Encoding.encode]
  rwa [hrow, ← Encoding.encode_append, List.append_assoc, List.singleton_append] at h

theorem ranges_open (u s : List Char) :
    ranges E (E.encode (u ++ '{' :: s)) (E.encode u).length =
      match body? s with
      | some (b, _) =>
        ((E.encode (u ++ ['{'])).length, (E.encode (u ++ '{' :: b)).length) ::
          ranges E (E.encode (u ++ '{' :: s)) (E.encode (u ++ '{' :: b ++ ['}'])).length
      | none => ranges E (E.encode (u ++ '{' :: s)) (E.encode (u ++ ['{'])).length := by
  have hrow : E.encode (u ++ '{' :: s) = E.encode u ++ E.mark '{' :: E.encode s := by
    rw [Encoding.encode_append, E.encode_cons_ascii (by decide)]
  have hlt : (E.encode u).length < (E.encode (u ++ '{' :: s)).length := by
    rw [hrow]
    simp
  have hopen : (E.encode (u ++ '{' :: s))[(E.encode u).length] = E.mark '{' := by
    simp [hrow]
  rw [ranges, dif_pos hlt, if_pos hopen, Encoding.length_encode_concat u (by decide)]
  have hend := endAt?_encode (E := E) u s
  split
  · rename_i j hj
    obtain ⟨⟨b, r⟩, hb, rfl⟩ := Option.map_eq_some_iff.1 (hend.symm.trans hj)
    simp only [hb, Encoding.length_encode_concat (u ++ '{' :: b) (show '}'.toNat < 128 by decide)]
  · rename_i hnone
    rw [Option.map_eq_none_iff.1 (hend.symm.trans hnone)]

/-- The offsets are around the blocks of the text, in order, and around nothing else. -/
theorem around_ranges (u s : List Char) :
    List.Forall₂ (E.Around (u ++ s)) (ranges E (E.encode (u ++ s)) (E.encode u).length)
      (extract s) := by
  -- Along the search by characters, where `u` is what it has gone through: the row stays whole,
  -- since offsets count from its start.
  fun_induction extract s generalizing u with
  | case1 =>
    rw [List.append_nil, ranges, dif_neg (Nat.lt_irrefl _)]
    exact .nil
  | case2 r b rest hb ih =>
    obtain rfl := eq_append_of_body? hb
    rw [ranges_open, hb]
    refine .cons ⟨u ++ ['{'], '}' :: rest, by simp, by simp⟩ ?_
    have h := ih (u ++ '{' :: b ++ ['}'])
    simpa using h
  | case3 r hb ih =>
    rw [ranges_open, hb]
    simpa using ih (u ++ ['{'])
  | case4 c r hc ih =>
    rw [ranges_other hc]
    simpa using ih (u ++ [c])

theorem isSlice_of_mem_ranges (t : List Char) :
    ∀ r ∈ ranges E (E.encode t) 0, E.IsSlice t r.1 r.2 :=
  Encoding.isSlice_of_around (around_ranges [] t)

theorem extract?_eq (t : List Char) : extract? E t = some (extract t) :=
  Encoding.mapM_slice? (around_ranges [] t)

end ConsoleSignature.Block
