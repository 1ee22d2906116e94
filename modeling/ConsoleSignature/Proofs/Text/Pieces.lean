import ConsoleSignature.Proofs.Text
import Mathlib.Logic.Relation

/-!
Pieces of a text that is laid out anew: blanks around it do not matter to them, and pieces put
together with separators are the pieces of what they make.
-/
namespace ConsoleSignature.Text

variable {sep : Char} {s t u v w p : List Char}

theorem pieces_of_blank (hw : ∀ c ∈ w, isBlank c) : pieces sep w = [] := by
  refine List.eq_nil_iff_forall_not_mem.2 fun p hp => ?_
  obtain ⟨hne, ht, -, hsub⟩ := mem_pieces hp
  obtain ⟨c, r, rfl⟩ := List.exists_cons_of_ne_nil hne
  have hblank := hw c (hsub List.mem_cons_self)
  simp [ht.1 c rfl] at hblank

theorem pieces_nil (sep : Char) : pieces sep [] = [] := pieces_of_blank (by simp)

theorem pieces_blanks_of_not_mem (hu : ∀ c ∈ u, isBlank c) (hv : ∀ c ∈ v, isBlank c)
    (h : sep ∉ u ++ s ++ v) : pieces sep (u ++ s ++ v) = pieces sep s := by
  have hs : sep ∉ s := fun hm => h (by simp [hm])
  rw [pieces_of_not_mem h, pieces_of_not_mem hs, trim_blanks hu hv]

/-- Blanks at the end of a text add no piece and change none. -/
theorem pieces_append_blank (hw : ∀ c ∈ w, isBlank c) (s : List Char) :
    pieces sep (s ++ w) = pieces sep s := by
  induction s using sep_induction sep with
  | append l r _ ih => rw [List.append_assoc, List.cons_append, pieces_append, pieces_append, ih]
  | single s hs =>
    rcases eq_or_append_of_sep sep w with hsep | ⟨l, r, rfl, hl⟩
    · exact pieces_blanks_of_not_mem (u := []) (by simp) hw (by simp [hs, hsep])
    · have hleft : ∀ c ∈ l, isBlank c := fun c hc => hw c (by simp [hc])
      have hright : ∀ c ∈ r, isBlank c := fun c hc => hw c (by simp [hc])
      rw [← List.append_assoc, pieces_append, pieces_of_blank hright, List.append_nil]
      exact pieces_blanks_of_not_mem (u := []) (by simp) hleft (by simp [hs, hl])

theorem pieces_blank_append (hw : ∀ c ∈ w, isBlank c) (s : List Char) :
    pieces sep (w ++ s) = pieces sep s := by
  induction w using sep_induction sep with
  | append l r _ ih =>
    have hleft : ∀ c ∈ l, isBlank c := fun c hc => hw c (by simp [hc])
    have hright : ∀ c ∈ r, isBlank c := fun c hc => hw c (by simp [hc])
    rw [List.append_assoc, List.cons_append, pieces_append, pieces_of_blank hleft, ih hright,
      List.nil_append]
  | single w hsep =>
    have hsingle : ∀ l, sep ∉ l → pieces sep (w ++ l) = pieces sep l := by
      intro l hl
      simpa using pieces_blanks_of_not_mem (v := []) hw (by simp) (by simp [hsep, hl])
    rcases eq_or_append_of_sep sep s with hs | ⟨l, r, rfl, hl⟩
    · exact hsingle s hs
    · rw [← List.append_assoc, pieces_append, pieces_append, hsingle l hl]

theorem pieces_of_piece (hne : p ≠ []) (ht : Trimmed p) (hsep : sep ∉ p) : pieces sep p = [p] := by
  rw [pieces_of_not_mem hsep, trim_eq_self ht, if_neg hne]

/-- Pieces that are put together with separators fall apart into themselves. -/
theorem pieces_intercalate {ps : List (List Char)}
    (h : ∀ p ∈ ps, p ≠ [] ∧ Trimmed p ∧ sep ∉ p) : pieces sep ([sep].intercalate ps) = ps := by
  induction ps with
  | nil => exact pieces_nil sep
  | cons p ps ih =>
    rw [List.forall_mem_cons] at h
    obtain ⟨⟨hne, ht, hsep⟩, hps⟩ := h
    cases ps with
    | nil => simpa using pieces_of_piece hne ht hsep
    | cons q qs =>
      rw [List.intercalate_cons_cons, List.append_assoc, List.singleton_append, pieces_append,
        ih hps, pieces_of_piece hne ht hsep]
      rfl

/-- The pieces that stand between separators in a text, each perhaps with blanks around it; between
two separators there may also be blanks only. -/
inductive FallsInto (sep : Char) : List Char → List (List Char) → Prop
  | blank {w : List Char} : (∀ c ∈ w, isBlank c) → sep ∉ w → FallsInto sep w []
  | piece {u p v : List Char} : (∀ c ∈ u, isBlank c) → (∀ c ∈ v, isBlank c) → p ≠ [] →
    Trimmed p → sep ∉ u ++ p ++ v → FallsInto sep (u ++ p ++ v) [p]
  | append {s t : List Char} {ps qs : List (List Char)} :
    FallsInto sep s ps → FallsInto sep t qs → FallsInto sep (s ++ sep :: t) (ps ++ qs)

theorem fallsInto_of_not_mem (h : sep ∉ s) : FallsInto sep s (pieces sep s) := by
  obtain ⟨u, v, hs, hu, hv⟩ := exists_trim s
  rw [pieces_of_not_mem h]
  split
  · rename_i htrim
    exact .blank (trim_eq_nil_iff.1 htrim) h
  · rename_i htrim
    rw [hs] at h
    have hpiece := FallsInto.piece hu hv htrim (trimmed_trim s) h
    rwa [← hs] at hpiece

theorem fallsInto_pieces (sep : Char) (s : List Char) : FallsInto sep s (pieces sep s) := by
  induction s using sep_induction sep with
  | append l r hl ih =>
    rw [pieces_append]
    exact .append (fallsInto_of_not_mem hl) ih
  | single s hs => exact fallsInto_of_not_mem hs

theorem fallsInto_iff {ps : List (List Char)} : FallsInto sep s ps ↔ pieces sep s = ps := by
  constructor
  · intro h
    induction h with
    | blank hw _ => exact pieces_of_blank hw
    | piece hu hv hne ht hsep =>
      rw [pieces_blanks_of_not_mem hu hv hsep,
        pieces_of_piece hne ht fun hm => hsep (by simp [hm])]
    | append _ _ ihs iht => rw [pieces_append, ihs, iht]
  · rintro rfl
    exact fallsInto_pieces sep s

/-- Blanks are put around one separator, or one empty part before, between or after the others. -/
inductive Loosens (sep : Char) : List Char → List Char → Prop
  | blanks (s t : List Char) {u v : List Char} : (∀ c ∈ u, isBlank c) → (∀ c ∈ v, isBlank c) →
    Loosens sep (s ++ sep :: t) (s ++ u ++ sep :: (v ++ t))
  | before (s : List Char) : Loosens sep s (sep :: s)
  | between (s t : List Char) : Loosens sep (s ++ sep :: t) (s ++ sep :: sep :: t)
  | after (s : List Char) : Loosens sep s (s ++ [sep])

theorem pieces_cons_self (sep : Char) (s : List Char) : pieces sep (sep :: s) = pieces sep s := by
  rw [← List.nil_append (sep :: s), pieces_append, pieces_nil, List.nil_append]

theorem pieces_of_loosens (h : Loosens sep s t) : pieces sep t = pieces sep s := by
  cases h with
  | blanks s t hu hv =>
    rw [pieces_append, pieces_append_blank hu, pieces_blank_append hv, pieces_append]
  | before s => rw [pieces_cons_self]
  | between s t => rw [pieces_append, pieces_cons_self, pieces_append]
  | after s => rw [pieces_append, pieces_nil, List.append_nil]

theorem pieces_of_loosened (h : Relation.ReflTransGen (Loosens sep) s t) :
    pieces sep t = pieces sep s := by
  induction h with
  | refl => rfl
  | tail _ hstep ih => rw [pieces_of_loosens hstep, ih]

/-- Parts that stand side by side in a list may as well be one part with what is put between. -/
theorem intercalate_append_cons_cons (xs : List (List Char)) (t u : List Char)
    (ys : List (List Char)) :
    s.intercalate (xs ++ t :: u :: ys) = s.intercalate (xs ++ (t ++ s ++ u) :: ys) := by
  have hjoin : s.intercalate (t :: u :: ys) = s.intercalate ((t ++ s ++ u) :: ys) := by
    cases ys with
    | nil => simp [List.intercalate_cons_cons]
    | cons y ys => simp [List.intercalate_cons_cons]
  by_cases hxs : xs = []
  · rw [hxs, List.nil_append, List.nil_append, hjoin]
  · rw [intercalate_append hxs (by simp), intercalate_append hxs (by simp), hjoin]

end ConsoleSignature.Text
