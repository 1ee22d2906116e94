import ConsoleSignature.Text.Split
import Mathlib.Data.List.DropRight

/-! Trimming and cutting: what the parts of a text contain, and when a text is its own part. -/
namespace ConsoleSignature.Text

variable {c sep : Char} {s t u v w p : List Char}

/-- No blank stands at either end. -/
def Trimmed (s : List Char) : Prop :=
  (∀ c ∈ s.head?, isBlank c = false) ∧ ∀ c ∈ s.getLast?, isBlank c = false

instance : DecidablePred Trimmed := fun s =>
  decidable_of_iff (s.head?.all (!isBlank ·) ∧ s.getLast?.all (!isBlank ·)) (by
    simp [Trimmed, Option.all_eq_true])

theorem trimEnd_eq_rdropWhile (s : List Char) : trimEnd s = s.rdropWhile isBlank := rfl

theorem trim_isInfix (s : List Char) : trim s <:+: s :=
  (List.rdropWhile_prefix isBlank _).isInfix.trans (List.dropWhile_suffix isBlank).isInfix

theorem mem_of_mem_trim (h : c ∈ trim s) : c ∈ s := (trim_isInfix s).subset h

theorem trimStart_head (h : c ∈ (trimStart s).head?) : isBlank c = false := by
  have hd := List.head?_dropWhile_not isBlank s
  rw [Option.mem_def, trimStart] at h
  simpa [h] using hd

theorem trimEnd_getLast (h : c ∈ (trimEnd s).getLast?) : isBlank c = false := by
  have hd := List.head?_dropWhile_not isBlank s.reverse
  rw [Option.mem_def, trimEnd, List.getLast?_reverse] at h
  simpa [h] using hd

theorem trimmed_trim (s : List Char) : Trimmed (trim s) := by
  refine ⟨?_, fun c hc => trimEnd_getLast hc⟩
  intro c hc
  obtain ⟨r, hr⟩ := List.rdropWhile_prefix isBlank (trimStart s)
  apply trimStart_head (s := s)
  rw [Option.mem_def] at hc ⊢
  rw [← hr, List.head?_append]
  exact Option.or_eq_some_iff.2 (Or.inl hc)

theorem dropWhile_eq_self {q : Char → Bool} (h : ∀ c ∈ s.head?, q c = false) :
    s.dropWhile q = s := by
  cases s with
  | nil => rfl
  | cons c r => simp [h c rfl]

theorem dropEndWhile_append {q : Char → Bool} (ht : ∀ c ∈ t, q c) (s : List Char) :
    dropEndWhile q (s ++ t) = dropEndWhile q s := by
  have hr : ∀ c ∈ t.reverse, q c := fun c hc => ht c (List.mem_reverse.1 hc)
  simp only [dropEndWhile, List.reverse_append]
  rw [List.dropWhile_append_of_pos hr]

theorem dropEndWhile_eq_self {q : Char → Bool} (h : ∀ c ∈ s.getLast?, q c = false) :
    dropEndWhile q s = s := by
  have hr : ∀ c ∈ s.reverse.head?, q c = false := by simpa using h
  rw [dropEndWhile, dropWhile_eq_self hr, List.reverse_reverse]

theorem dropWhile_append_cons {q : Char → Bool} (hc : q c = false) (s t : List Char) :
    (s ++ c :: t).dropWhile q = s.dropWhile q ++ c :: t := by
  rw [List.dropWhile_append]
  split
  · rename_i hs
    simp [List.isEmpty_iff.1 hs, hc]
  · rfl

theorem not_mem_of_blank (hw : ∀ c ∈ w, isBlank c) (hc : isBlank c = false) : c ∉ w := by
  intro h
  simp [hw c h] at hc

theorem trimStart_of_blank (hw : ∀ c ∈ w, isBlank c) (s : List Char) :
    trimStart (w ++ s) = trimStart s := by
  rw [trimStart, List.dropWhile_append_of_pos hw, trimStart]

theorem trimEnd_of_blank (hw : ∀ c ∈ w, isBlank c) (s : List Char) :
    trimEnd (s ++ w) = trimEnd s := dropEndWhile_append hw s

theorem trimStart_eq_self (h : ∀ c ∈ s.head?, isBlank c = false) : trimStart s = s :=
  dropWhile_eq_self h

theorem trimEnd_eq_self (h : ∀ c ∈ s.getLast?, isBlank c = false) : trimEnd s = s :=
  dropEndWhile_eq_self h

theorem forall_head_append {q : Char → Prop} (hs : ∀ c ∈ s.head?, q c)
    (ht : ∀ c ∈ t.head?, q c) : ∀ c ∈ (s ++ t).head?, q c := by
  cases s with
  | nil => exact ht
  | cons c s => simpa using hs

theorem forall_getLast_append {q : Char → Prop} (hs : ∀ c ∈ s.getLast?, q c)
    (ht : ∀ c ∈ t.getLast?, q c) : ∀ c ∈ (s ++ t).getLast?, q c := by
  by_cases hnil : t = []
  · simpa [hnil] using hs
  · rwa [List.getLast?_append_of_ne_nil s hnil]

theorem trimmed_of_forall (h : ∀ c ∈ s, isBlank c = false) : Trimmed s :=
  ⟨fun c hc => h c (List.mem_of_head? hc), fun c hc => h c (List.mem_of_getLast? hc)⟩

theorem trimmed_append (hs : Trimmed s) (ht : Trimmed t) : Trimmed (s ++ t) :=
  ⟨forall_head_append hs.1 ht.1, forall_getLast_append hs.2 ht.2⟩

theorem intercalate_ne_nil {ts : List (List Char)} (hts : ts ≠ []) (h : ∀ t ∈ ts, t ≠ []) :
    s.intercalate ts ≠ [] := by
  cases ts with
  | nil => exact absurd rfl hts
  | cons t ts =>
    cases ts with
    | nil => simpa using h t (by simp)
    | cons t' ts => simp [List.intercalate_cons_cons, h t (by simp)]

theorem trimmed_intercalate {ts : List (List Char)} (h : ∀ t ∈ ts, t ≠ [] ∧ Trimmed t) :
    Trimmed (s.intercalate ts) := by
  induction ts with
  | nil => exact ⟨by simp, by simp⟩
  | cons t ts ih =>
    cases ts with
    | nil => simpa using (h t (by simp)).2
    | cons t' ts =>
      obtain ⟨hne, ht⟩ := h t (by simp)
      have htail : ∀ u ∈ t' :: ts, u ≠ [] ∧ Trimmed u := fun u hu => h u (List.mem_cons_of_mem t hu)
      have hrest : s.intercalate (t' :: ts) ≠ [] :=
        intercalate_ne_nil (by simp) fun u hu => (htail u hu).1
      rw [List.intercalate_cons_cons]
      constructor
      · rw [List.append_assoc, List.head?_append_of_ne_nil t hne]
        exact ht.1
      · rw [List.getLast?_append_of_ne_nil _ hrest]
        exact (ih htail).2

theorem trim_eq_self (h : Trimmed s) : trim s = s := by
  rw [trim, trimStart_eq_self h.1, trimEnd_eq_self h.2]

/-- Blanks around a text are all that trimming takes away. -/
theorem trim_pad (hu : ∀ c ∈ u, isBlank c) (hv : ∀ c ∈ v, isBlank c) (hs : Trimmed s) :
    trim (u ++ s ++ v) = s := by
  cases s with
  | nil =>
    have huv : ∀ c ∈ u ++ [] ++ v, isBlank c := by
      intro c hc
      rcases List.mem_append.1 hc with hc | hc
      · exact hu c (by simpa using hc)
      · exact hv c hc
    have : trimStart (u ++ [] ++ v) = [] := List.dropWhile_eq_nil_iff.2 huv
    rw [trim, this]
    rfl
  | cons c r =>
    have hc : trimStart (c :: r ++ v) = c :: r ++ v := by
      refine trimStart_eq_self fun d hd => hs.1 d ?_
      simpa using hd
    rw [trim, List.append_assoc, trimStart_of_blank hu, hc, trimEnd_of_blank hv,
      trimEnd_eq_self hs.2]

theorem trim_blank_append (hw : ∀ c ∈ w, isBlank c) (hs : Trimmed s) : trim (w ++ s) = s := by
  simpa using trim_pad (v := []) hw (by simp) hs

theorem trim_append_blank (hw : ∀ c ∈ w, isBlank c) (hs : Trimmed s) : trim (s ++ w) = s := by
  simpa using trim_pad (u := []) (by simp) hw hs

theorem trimEnd_append_cons (hc : isBlank c = false) (s t : List Char) :
    trimEnd (s ++ c :: t) = s ++ c :: trimEnd t := by
  rw [trimEnd, List.reverse_append, List.reverse_cons, List.append_assoc,
    List.singleton_append, dropWhile_append_cons hc]
  simp [trimEnd]

/-- Trimming stops at a character that is not blank, from either end. -/
theorem trim_append_cons (hc : isBlank c = false) (s t : List Char) :
    trim (s ++ c :: t) = trimStart s ++ c :: trimEnd t := by
  have hstart : trimStart (s ++ c :: t) = trimStart s ++ c :: t := dropWhile_append_cons hc s t
  rw [trim, hstart, trimEnd_append_cons hc]

/-- Between texts that meet in no blank, trimming takes nothing away. -/
theorem trim_append_append (hs : ∃ c ∈ s.getLast?, isBlank c = false)
    (ht : ∃ c ∈ t.head?, isBlank c = false) (w : List Char) :
    trim (s ++ w ++ t) = trim s ++ w ++ trim t := by
  obtain ⟨c, hc, hcb⟩ := hs
  obtain ⟨d, hd, hdb⟩ := ht
  obtain ⟨s, rfl⟩ := List.getLast?_eq_some_iff.1 hc
  obtain ⟨t, rfl⟩ := List.head?_eq_some_iff.1 hd
  have hleft : trim (s ++ [c]) = trimStart s ++ [c] := trim_append_cons hcb s []
  have hright : trim (d :: t) = d :: trimEnd t := trim_append_cons hdb [] t
  rw [hleft, hright, List.append_assoc, List.append_assoc, List.singleton_append,
    trim_append_cons hcb, trimEnd_append_cons hdb]
  simp

theorem trim_eq_nil_iff : trim s = [] ↔ ∀ c ∈ s, isBlank c := by
  constructor
  · intro h
    have hs : trimStart s = [] := by
      by_contra hne
      obtain ⟨c, hc⟩ := Option.ne_none_iff_exists'.1 (mt List.head?_eq_none_iff.1 hne)
      have hblank := List.rdropWhile_eq_nil_iff.1 h c (List.mem_of_head? hc)
      exact Bool.noConfusion ((trimStart_head hc).symm.trans hblank)
    exact List.dropWhile_eq_nil_iff.1 hs
  · intro h
    simpa using trim_blank_append (s := []) h (by simp [Trimmed])

/-- Trimming takes blanks from both ends. -/
theorem exists_trim (s : List Char) :
    ∃ u v, s = u ++ trim s ++ v ∧ (∀ c ∈ u, isBlank c) ∧ ∀ c ∈ v, isBlank c := by
  refine ⟨s.takeWhile isBlank, (trimStart s).rtakeWhile isBlank, ?_,
    fun c hc => List.mem_takeWhile_imp hc, fun c hc => List.mem_rtakeWhile_imp hc⟩
  rw [trim, trimEnd_eq_rdropWhile, List.append_assoc, List.rdropWhile_append_rtakeWhile, trimStart,
    List.takeWhile_append_dropWhile]

theorem trim_blanks (hu : ∀ c ∈ u, isBlank c) (hv : ∀ c ∈ v, isBlank c) (s : List Char) :
    trim (u ++ s ++ v) = trim s := by
  obtain ⟨x, y, he, hx, hy⟩ := exists_trim s
  have hux : ∀ c ∈ u ++ x, isBlank c := by
    intro c hc
    rcases List.mem_append.1 hc with hc | hc
    · exact hu c hc
    · exact hx c hc
  have hyv : ∀ c ∈ y ++ v, isBlank c := by
    intro c hc
    rcases List.mem_append.1 hc with hc | hc
    · exact hy c hc
    · exact hv c hc
  calc trim (u ++ s ++ v) = trim (u ++ (x ++ trim s ++ y) ++ v) := by rw [← he]
    _ = trim ((u ++ x) ++ trim s ++ (y ++ v)) := by simp only [List.append_assoc]
    _ = trim s := trim_pad hux hyv (trimmed_trim s)

theorem trim_trimStart (s : List Char) : trim (trimStart s) = trim s := by
  rw [trim, trimStart_eq_self fun _ hc => trimStart_head hc, trim]

theorem filter_trim {q : Char → Bool} (hq : ∀ c, isBlank c → q c = false) (s : List Char) :
    (trim s).filter q = s.filter q := by
  obtain ⟨u, v, he, hu, hv⟩ := exists_trim s
  have hnil {w : List Char} (hw : ∀ c ∈ w, isBlank c) : w.filter q = [] := by
    simpa using fun c hc => hq c (hw c hc)
  calc (trim s).filter q = (u ++ trim s ++ v).filter q := by simp [hnil hu, hnil hv]
    _ = s.filter q := by rw [← he]

theorem toNat_of_isAlphanum (h : c.isAlphanum) :
    ((65 ≤ c.toNat ∧ c.toNat ≤ 90) ∨ (97 ≤ c.toNat ∧ c.toNat ≤ 122)) ∨
      (48 ≤ c.toNat ∧ c.toNat ≤ 57) := by
  have between {a b : UInt32} (ha : a ≤ c.val) (hb : c.val ≤ b) :
      a.toNat ≤ c.toNat ∧ c.toNat ≤ b.toNat :=
    ⟨UInt32.le_iff_toNat_le.1 ha, UInt32.le_iff_toNat_le.1 hb⟩
  rcases Bool.or_eq_true_iff.1 h with h | h
  · rcases Bool.or_eq_true_iff.1 h with h | h
    · obtain ⟨ha, hb⟩ := of_decide_eq_true h
      exact Or.inl (Or.inl (between ha hb))
    · obtain ⟨ha, hb⟩ := Bool.and_eq_true_iff.1 h
      exact Or.inl (Or.inr (between (of_decide_eq_true ha) (of_decide_eq_true hb)))
  · exact Or.inr (Char.isDigit_iff_toNat.1 h)

theorem isBlank_of_isAlphanum (h : c.isAlphanum) : isBlank c = false := by
  have := toNat_of_isAlphanum h
  simp only [isBlank, Bool.or_eq_false_iff, Bool.and_eq_false_iff, decide_eq_false_iff_not,
    beq_eq_false_iff_ne]
  omega

theorem mem_intercalate {ts : List (List Char)} (h : c ∈ s.intercalate ts) :
    c ∈ s ∨ ∃ t ∈ ts, c ∈ t := by
  induction ts with
  | nil => simp at h
  | cons t ts ih =>
    cases ts with
    | nil => exact Or.inr ⟨t, by simp, by simpa using h⟩
    | cons t' ts =>
      rw [List.intercalate_cons_cons, List.mem_append, List.mem_append] at h
      rcases h with (h | h) | h
      · exact Or.inr ⟨t, by simp, h⟩
      · exact Or.inl h
      · rcases ih h with h | ⟨u, hu, hc⟩
        · exact Or.inl h
        · exact Or.inr ⟨u, List.mem_cons_of_mem t hu, hc⟩

theorem not_mem_cut_fst (sep : Char) (s : List Char) : sep ∉ (cut sep s).1 := by
  intro h
  simpa using List.mem_takeWhile_imp h

theorem cut_eq_self (h : sep ∉ s) : cut sep s = (s, none) := by
  have hne : ∀ c ∈ s, (c != sep) = true := by
    intro c hc
    simpa using fun he : c = sep => h (he ▸ hc)
  simp [cut, List.takeWhile_eq_self_iff.2 hne, List.dropWhile_eq_nil_iff.2 hne]

theorem cut_append (h : sep ∉ s) (r : List Char) : cut sep (s ++ sep :: r) = (s, some r) := by
  have hne : ∀ c ∈ s, (c != sep) = true := by
    intro c hc
    simpa using fun he : c = sep => h (he ▸ hc)
  simp [cut, List.takeWhile_append_of_pos hne, List.dropWhile_append_of_pos hne]

/-- Trimming before the cut takes nothing from a text that ends in no blank. -/
theorem cut_trim (hsep : isBlank sep = false) (h : sep ∉ s)
    (ht : ∀ c ∈ t.getLast?, isBlank c = false) :
    cut sep (trim (s ++ sep :: t)) = (trimStart s, some t) := by
  have hmem : sep ∉ trimStart s := fun hm => h ((List.dropWhile_sublist isBlank).subset hm)
  rw [trim_append_cons hsep, trimEnd_eq_self ht, cut_append hmem]

/-- What stands before the last `sep`, and what stands after it. -/
def cutLast? (sep : Char) (s : List Char) : Option (List Char × List Char) :=
  (cut sep s.reverse).2.map fun before => (before.reverse, (cut sep s.reverse).1.reverse)

theorem cutLast?_append (h : sep ∉ t) (s : List Char) :
    cutLast? sep (s ++ sep :: t) = some (s, t) := by
  have hcut : cut sep (t.reverse ++ sep :: s.reverse) = (t.reverse, some s.reverse) :=
    cut_append (by simpa using h) s.reverse
  have hreverse : (s ++ sep :: t).reverse = t.reverse ++ sep :: s.reverse := by simp
  rw [cutLast?, hreverse, hcut]
  simp

theorem mem_of_mem_cut_fst (h : c ∈ (cut sep s).1) : c ∈ s := List.takeWhile_subset _ h

/-- Everything about pieces follows from this equation and the next. -/
theorem pieces_append (sep : Char) (s t : List Char) :
    pieces sep (s ++ sep :: t) = pieces sep s ++ pieces sep t := by
  simp [pieces, List.splitOn_append_cons_self]

theorem pieces_of_not_mem (h : sep ∉ s) :
    pieces sep s = if trim s = [] then [] else [trim s] := by
  rw [pieces, List.splitOn_eq_singleton h]
  split <;> simp_all

theorem filter_intercalate {q : Char → Bool} (h : s.filter q = []) (ts : List (List Char)) :
    (s.intercalate ts).filter q = ts.flatMap (List.filter q) := by
  induction ts with
  | nil => rfl
  | cons t ts ih =>
    cases ts with
    | nil => simp
    | cons t' ts => simp [List.intercalate_cons_cons, h, ih]

/-- Pieces keep all characters of a class without separator and blanks. -/
theorem filter_pieces {q : Char → Bool} (hq : ∀ c, isBlank c → q c = false) (hsep : q sep = false)
    (s : List Char) : (pieces sep s).flatMap (List.filter q) = s.filter q := by
  have hempty (ts : List (List Char)) :
      (ts.filter (· ≠ [])).flatMap (List.filter q) = ts.flatMap (List.filter q) := by
    induction ts with
    | nil => rfl
    | cons t ts ih => cases t <;> simp_all
  calc (pieces sep s).flatMap (List.filter q)
      = (s.splitOn sep).flatMap (fun t => (trim t).filter q) := by
        rw [pieces, hempty, List.flatMap_map]
    _ = (s.splitOn sep).flatMap (List.filter q) := by simp only [filter_trim hq]
    _ = ([sep].intercalate (s.splitOn sep)).filter q := by
        rw [filter_intercalate (by simp [hsep])]
    _ = s.filter q := by rw [List.intercalate_splitOn]

theorem intercalate_append {ts us : List (List Char)} (hts : ts ≠ []) (hus : us ≠ []) :
    s.intercalate (ts ++ us) = s.intercalate ts ++ s ++ s.intercalate us := by
  induction ts with
  | nil => exact absurd rfl hts
  | cons t ts ih =>
    cases ts with
    | nil => simp [List.intercalate_cons_of_ne_nil hus]
    | cons t' ts =>
      have htail := ih (by simp)
      simp only [List.cons_append] at htail
      simp [List.intercalate_cons_cons, htail]

theorem eq_or_append_of_sep (sep : Char) (s : List Char) :
    sep ∉ s ∨ ∃ l r, s = l ++ sep :: r ∧ sep ∉ l := by
  by_cases h : sep ∈ s
  · obtain ⟨l, r, he, hl⟩ := List.eq_append_cons_of_mem h
    exact Or.inr ⟨l, r, he, hl⟩
  · exact Or.inl h

/-- A text is a part without separators, or such a part before a separator and a text. -/
@[elab_as_elim]
theorem sep_induction {P : List Char → Prop} (sep : Char) (single : ∀ s, sep ∉ s → P s)
    (append : ∀ l r, sep ∉ l → P r → P (l ++ sep :: r)) (s : List Char) : P s := by
  induction hn : s.length using Nat.strong_induction_on generalizing s with
  | _ n ih =>
    rcases eq_or_append_of_sep sep s with hs | ⟨l, r, rfl, hl⟩
    · exact single s hs
    · refine append l r hl (ih r.length ?_ r rfl)
      simp only [List.length_append, List.length_cons] at hn
      omega

/-- A piece is never empty, and it is made of the text between separators. -/
theorem mem_pieces (h : p ∈ pieces sep s) : p ≠ [] ∧ Trimmed p ∧ sep ∉ p ∧ p ⊆ s := by
  have hsingle : ∀ l, sep ∉ l → p ∈ pieces sep l → p ≠ [] ∧ Trimmed p ∧ sep ∉ p ∧ p ⊆ l := by
    intro l hl h
    rw [pieces_of_not_mem hl] at h
    split at h
    · simp at h
    · rename_i hne
      obtain rfl : p = trim l := by simpa using h
      exact ⟨hne, trimmed_trim l, fun hm => hl (mem_of_mem_trim hm), (trim_isInfix l).subset⟩
  induction s using sep_induction sep with
  | single s hs => exact hsingle s hs h
  | append l r hl ih =>
    rw [pieces_append] at h
    rcases List.mem_append.1 h with h | h
    · obtain ⟨h₁, h₂, h₃, h₄⟩ := hsingle l hl h
      exact ⟨h₁, h₂, h₃, fun c hc => by simp [h₄ hc]⟩
    · obtain ⟨h₁, h₂, h₃, h₄⟩ := ih h
      exact ⟨h₁, h₂, h₃, fun c hc => by simp [h₄ hc]⟩

/-- Pieces lose nothing but separators and blanks. -/
theorem exists_mem_pieces (hc : c ∈ s) (hsep : c ≠ sep) (hb : isBlank c = false) :
    ∃ p ∈ pieces sep s, c ∈ p := by
  have hsingle : ∀ l, sep ∉ l → c ∈ l → ∃ p ∈ pieces sep l, c ∈ p := by
    intro l hl hc
    have htrim : c ∈ trim l := by
      obtain ⟨u, v, he, hu, hv⟩ := exists_trim l
      rw [he] at hc
      rcases List.mem_append.1 hc with hc | hc
      · rcases List.mem_append.1 hc with hc | hc
        · simp [hu c hc] at hb
        · exact hc
      · simp [hv c hc] at hb
    rw [pieces_of_not_mem hl, if_neg (List.ne_nil_of_mem htrim)]
    exact ⟨trim l, by simp, htrim⟩
  induction s using sep_induction sep with
  | single s hs => exact hsingle s hs hc
  | append l r hl ih =>
    rw [pieces_append]
    rcases List.mem_append.1 hc with hc | hc
    · obtain ⟨p, hp, hcp⟩ := hsingle l hl hc
      exact ⟨p, List.mem_append_left _ hp, hcp⟩
    · obtain ⟨p, hp, hcp⟩ := ih ((List.mem_cons.1 hc).resolve_left hsep)
      exact ⟨p, List.mem_append_right _ hp, hcp⟩

end ConsoleSignature.Text
