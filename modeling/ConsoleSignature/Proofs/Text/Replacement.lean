import ConsoleSignature.Proofs.Text

/-!
Literals replaced in a text, all at once. What a place of the text turns into is read off the text
as it was, so that nothing that is put in is ever looked at. Literals in brackets that hold no
others never overlap.
-/
namespace ConsoleSignature.Text

structure Replacement where
  literal : List Char
  value : List Char

/-- Whether the literal stands at this place of the text. -/
def Replacement.standsAt (r : Replacement) (s : List Char) (i : Nat) : Bool :=
  r.literal.isPrefixOf (s.drop i)

variable {rs : List Replacement} {r q : Replacement} {s t u w : List Char} {c : Char} {i j : Nat}

def replacementAt? (rs : List Replacement) (s : List Char) (i : Nat) : Option Replacement :=
  rs.find? (·.standsAt s i)

/-- Whether the place lies within a literal that starts before it. -/
def isCovered (rs : List Replacement) (s : List Char) (i : Nat) : Bool :=
  (List.range i).any fun j => rs.any fun r => r.standsAt s j && i < j + r.literal.length

/-- A literal turns into its value at its first place, and into nothing at the others; all else
stays. -/
def imageAt (rs : List Replacement) (s : List Char) (i : Nat) : List Char :=
  match replacementAt? rs s i with
  | some r => r.value
  | none => if isCovered rs s i then [] else s[i]?.toList

def replaceAtOnce (rs : List Replacement) (s : List Char) : List Char :=
  (List.range s.length).flatMap (imageAt rs s)

theorem isCovered_iff : isCovered rs s i = true ↔
    ∃ j < i, ∃ r ∈ rs, r.standsAt s j = true ∧ i < j + r.literal.length := by
  simp [isCovered]

theorem standsAt_append (r : Replacement) (u s : List Char) (i : Nat) :
    r.standsAt (u ++ s) (u.length + i) = r.standsAt s i := by
  rw [Replacement.standsAt, Replacement.standsAt, List.drop_length_add_append]

theorem replacementAt?_append (rs : List Replacement) (u s : List Char) (i : Nat) :
    replacementAt? rs (u ++ s) (u.length + i) = replacementAt? rs s i := by
  simp only [replacementAt?, standsAt_append]

/-- No literal that starts in the first part of a text reaches into the second. -/
def Parted (rs : List Replacement) (u s : List Char) : Prop :=
  ∀ j < u.length, ∀ r ∈ rs, r.standsAt (u ++ s) j = true → j + r.literal.length ≤ u.length

theorem isCovered_append (h : Parted rs u s) (i : Nat) :
    isCovered rs (u ++ s) (u.length + i) = isCovered rs s i := by
  rw [Bool.eq_iff_iff, isCovered_iff, isCovered_iff]
  constructor
  · rintro ⟨j, hj, r, hr, hstands, hover⟩
    have hright : u.length ≤ j := by
      by_contra hleft
      have := h j (by omega) r hr hstands
      omega
    obtain ⟨k, rfl⟩ := Nat.exists_eq_add_of_le hright
    rw [standsAt_append] at hstands
    exact ⟨k, by omega, r, hr, hstands, by omega⟩
  · rintro ⟨j, hj, r, hr, hstands, hover⟩
    refine ⟨u.length + j, by omega, r, hr, ?_, by omega⟩
    rwa [standsAt_append]

theorem imageAt_append (h : Parted rs u s) (i : Nat) :
    imageAt rs (u ++ s) (u.length + i) = imageAt rs s i := by
  have hchar : (u ++ s)[u.length + i]? = s[i]? := by
    rw [List.getElem?_append_right (by omega), Nat.add_sub_cancel_left]
  simp only [imageAt, replacementAt?_append, isCovered_append h, hchar]

/-- Parts that no literal reaches over are replaced apart. -/
theorem replaceAtOnce_append (h : Parted rs u s) : replaceAtOnce rs (u ++ s) =
    (List.range u.length).flatMap (imageAt rs (u ++ s)) ++ replaceAtOnce rs s := by
  simp only [replaceAtOnce, List.length_append, List.range_add, List.flatMap_append,
    List.flatMap_map, imageAt_append h]

theorem standsAt_eq_false (h : replacementAt? rs s i = none) (hr : r ∈ rs) :
    r.standsAt s i = false := by
  simpa using List.find?_eq_none.1 h r hr

/-- A character at which no literal starts stays. -/
theorem replaceAtOnce_cons (h : replacementAt? rs (c :: s) 0 = none) :
    replaceAtOnce rs (c :: s) = c :: replaceAtOnce rs s := by
  have hparted : Parted rs [c] s := by
    intro j hj r hr hstands
    obtain rfl : j = 0 := by simpa using hj
    have hno := standsAt_eq_false h hr
    rw [List.singleton_append, hno] at hstands
    simp at hstands
  have himage : imageAt rs (c :: s) 0 = [c] := by
    simp [imageAt, h, isCovered]
  have hsplit := replaceAtOnce_append hparted
  simpa [himage] using hsplit

/-- Each literal is a word in brackets that holds none itself. -/
def Bracketed (rs : List Replacement) : Prop :=
  ∀ r ∈ rs, ∃ w, r.literal = '[' :: w ++ [']'] ∧ '[' ∉ w ∧ ']' ∉ w

theorem standsAt_iff : r.standsAt s i = true ↔ r.literal <+: s.drop i := List.isPrefixOf_iff_prefix

theorem getElem?_of_standsAt (h : r.standsAt s i = true) (hj : j < r.literal.length) :
    s[i + j]? = r.literal[j]? := by
  obtain ⟨t, ht⟩ := standsAt_iff.1 h
  rw [← List.getElem?_drop, ← ht, List.getElem?_append_left hj]

namespace Bracketed

theorem getElem?_zero (h : Bracketed rs) (hr : r ∈ rs) (hstands : r.standsAt s i = true) :
    s[i]? = some '[' := by
  obtain ⟨w, hw, -, -⟩ := h r hr
  have hchar := getElem?_of_standsAt (j := 0) hstands (by simp [hw])
  simpa [hw] using hchar

theorem getElem?_ne (h : Bracketed rs) (hr : r ∈ rs) (hstands : r.standsAt s i = true)
    (hij : i < j) (hj : j < i + r.literal.length) : s[j]? ≠ some '[' := by
  obtain ⟨w, hw, hopen, -⟩ := h r hr
  obtain ⟨k, rfl⟩ := Nat.exists_eq_add_of_lt hij
  have hchar := getElem?_of_standsAt (j := k + 1) hstands (by omega)
  rw [Nat.add_assoc, hchar, hw, List.cons_append, List.getElem?_cons_succ]
  intro hat
  have hmem := List.mem_of_getElem? hat
  simp [hopen] at hmem

theorem le_of_lt (h : Bracketed rs) (hr : r ∈ rs) (hq : q ∈ rs) (hrs : r.standsAt s i = true)
    (hqs : q.standsAt s j = true) (hij : i < j) : i + r.literal.length ≤ j := by
  by_contra hover
  exact h.getElem?_ne hr hrs hij (by omega) (h.getElem?_zero hq hqs)

theorem literal_eq (h : Bracketed rs) (hr : r ∈ rs) (hq : q ∈ rs) (hrs : r.standsAt s i = true)
    (hqs : q.standsAt s i = true) : r.literal = q.literal := by
  obtain ⟨v, hv, -, hclose⟩ := h r hr
  obtain ⟨w, hw, -, hclose'⟩ := h q hq
  obtain ⟨t, ht⟩ := standsAt_iff.1 hrs
  obtain ⟨t', ht'⟩ := standsAt_iff.1 hqs
  have hsame : v ++ ']' :: t = w ++ ']' :: t' := by
    rw [hv, ← ht', hw] at ht
    simpa using ht
  have hcut := congrArg (cut ']') hsame
  rw [cut_append hclose, cut_append hclose'] at hcut
  rw [hv, hw, (Prod.mk.inj hcut).1]

/-- No literal reaches over another's end. -/
theorem parted (h : Bracketed rs) (hr : r ∈ rs) (hstands : r.standsAt (r.literal ++ s) 0 = true) :
    Parted rs r.literal s := by
  intro j hj q hq hqs
  rcases Nat.eq_zero_or_pos j with rfl | hpos
  · rw [h.literal_eq hr hq hstands hqs, Nat.zero_add]
  · have := h.le_of_lt hr hq hstands hqs hpos
    omega

end Bracketed

theorem mem_of_replacementAt? (h : replacementAt? rs s i = some r) :
    r ∈ rs ∧ r.standsAt s i = true :=
  ⟨List.mem_of_find?_eq_some h, by simpa using List.find?_some h⟩

/-- A literal is replaced as a whole, and the text behind it apart from it. -/
theorem replaceAtOnce_literal (hrs : Bracketed rs)
    (h : replacementAt? rs (r.literal ++ s) 0 = some r) :
    replaceAtOnce rs (r.literal ++ s) = r.value ++ replaceAtOnce rs s := by
  obtain ⟨hr, hstands⟩ := mem_of_replacementAt? h
  obtain ⟨n, hn⟩ : ∃ n, r.literal.length = n + 1 := by
    obtain ⟨w, hw, -⟩ := hrs r hr
    exact ⟨w.length + 1, by simp [hw]⟩
  have hfirst : imageAt rs (r.literal ++ s) 0 = r.value := by
    rw [imageAt, h]
  have hinside : ∀ i < n, imageAt rs (r.literal ++ s) (i + 1) = [] := by
    intro i hi
    have hnone : replacementAt? rs (r.literal ++ s) (i + 1) = none := by
      rw [replacementAt?, List.find?_eq_none]
      intro q hq hqs
      have := hrs.le_of_lt hr hq hstands hqs (Nat.succ_pos i)
      omega
    have hcovered : isCovered rs (r.literal ++ s) (i + 1) = true :=
      isCovered_iff.2 ⟨0, Nat.succ_pos i, r, hr, hstands, by omega⟩
    simp [imageAt, hnone, hcovered]
  have hvalue : (List.range r.literal.length).flatMap (imageAt rs (r.literal ++ s)) = r.value := by
    have hnil : (List.range n).flatMap (fun i => imageAt rs (r.literal ++ s) (i + 1)) = [] := by
      rw [List.flatMap_eq_nil_iff]
      intro i hi
      exact hinside i (List.mem_range.1 hi)
    rw [hn, List.range_succ_eq_map, List.flatMap_cons, List.flatMap_map, hfirst]
    simp only [Nat.succ_eq_add_one, hnil, List.append_nil]
  rw [replaceAtOnce_append (hrs.parted hr hstands), hvalue]

/-- Where no bracket opens all stays. -/
theorem replaceAtOnce_of_not_mem (hrs : Bracketed rs) (hu : '[' ∉ u) (s : List Char) :
    replaceAtOnce rs (u ++ s) = u ++ replaceAtOnce rs s := by
  induction u with
  | nil => rfl
  | cons c u ih =>
    obtain ⟨hc, hu⟩ := List.ne_and_not_mem_of_not_mem_cons hu
    have hnone : replacementAt? rs (c :: (u ++ s)) 0 = none := by
      rw [replacementAt?, List.find?_eq_none]
      intro r hr hstands
      exact hc (by simpa using (hrs.getElem?_zero hr hstands).symm)
    rw [List.cons_append, replaceAtOnce_cons hnone, ih hu, List.cons_append]

end ConsoleSignature.Text
