import ConsoleSignature.Proofs.Entry.Canonical.Description
import ConsoleSignature.Proofs.Entry.Canonical.Name
import ConsoleSignature.Proofs.Entry.Qualified

/-! Reading a written marker: it is taken off, and no colon of the text stands before another. -/
namespace ConsoleSignature.Canonical

open Text Entry

variable {c : Char} {s t : List Char}

theorem isMarker_of_isPlain (h : IsPlain c) : isMarker c = false :=
  isMarker_eq_false_iff.2 ⟨ne_of_isPlain h (by decide), ne_of_isPlain h (by decide)⟩

/-- No marker stands after a colon, nor does one when text without such a marker follows. -/
def Unqualified (s : List Char) : Prop :=
  ∀ t, cutQualified? t = none → cutQualified? (s ++ t) = none

theorem Unqualified.cutQualified? (h : Unqualified s) : Entry.cutQualified? s = none := by
  simpa using h [] rfl

theorem Unqualified.append (hs : Unqualified s) (ht : Unqualified t) : Unqualified (s ++ t) := by
  intro u hu
  rw [List.append_assoc]
  exact hs _ (ht u hu)

theorem unqualified_cons (hc : c ≠ ':') (h : Unqualified s) : Unqualified (c :: s) := by
  intro t ht
  have hs := h t ht
  rw [List.cons_append]
  cases he : s ++ t with
  | nil => rfl
  | cons m r =>
    rw [he] at hs
    simp [cutQualified?, hc, hs]

theorem unqualified_nil : Unqualified [] := fun _ ht => ht

theorem unqualified_of_not_mem (h : ':' ∉ s) : Unqualified s := by
  induction s with
  | nil => exact unqualified_nil
  | cons c s ih =>
    simp only [List.mem_cons, not_or] at h
    exact unqualified_cons (Ne.symm h.1) (ih h.2)

theorem unqualified_colon (hne : s ≠ []) (hm : ∀ c ∈ s.head?, isMarker c = false)
    (h : Unqualified s) : Unqualified (':' :: s) := by
  intro t ht
  obtain ⟨m, r, rfl⟩ := List.exists_cons_of_ne_nil hne
  have hs := h t ht
  rw [List.cons_append] at hs ⊢
  simp [cutQualified?, hm m rfl, hs]

theorem Blanks.unqualified (w : Blanks) : Unqualified w.chars :=
  unqualified_of_not_mem (w.not_mem (by decide))

theorem Blanks.head (w : Blanks) : ∀ c ∈ w.chars.head?, isMarker c = false := by
  intro c hc
  by_contra hm
  exact w.not_mem (isBlank_of_isMarker (by simpa using hm)) (List.mem_of_head? hc)

theorem Choices.unqualified_text (ch : Choices) : Unqualified ch.text := by
  have hmem (c : Char) (hc : c ∈ ch.listText) : c ≠ ':' ∧ isMarker c = false := by
    rw [isMarker_eq_false_iff]
    refine ⟨?_, ?_, ?_⟩
    all_goals
      rintro rfl
      exact absurd (mem_listText hc) (by decide)
  have hlist : Unqualified ch.listText := unqualified_of_not_mem fun h => (hmem _ h).1 rfl
  have hhead : ∀ c ∈ ch.listText.head?, isMarker c = false :=
    fun c hc => (hmem c (List.mem_of_head? hc)).2
  refine ch.before.unqualified.append (unqualified_colon ?_ ?_ (ch.after.unqualified.append ?_))
  · refine List.append_ne_nil_of_right_ne_nil _ ?_
    split
    · simp
    · exact ch.listText_ne_nil
  · refine forall_head_append ch.after.head ?_
    split
    · simp [isMarker]
    · exact hhead
  · split
    · exact unqualified_cons (by decide)
        (hlist.append (unqualified_of_not_mem (by decide)))
    · exact hlist

theorem Description.unqualified_text (d : Description) : Unqualified d.text := by
  refine (unqualified_of_not_mem fun h => (d.plain ':' h).1 rfl).append ?_
  cases d.choices with
  | none => exact unqualified_nil
  | some ch => exact ch.unqualified_text

namespace Leaf

theorem head_part (l : Leaf) (t : List Char) : ∀ c ∈ (l.part ++ t).head?, IsPlain c := by
  intro c hc
  rw [part, List.append_assoc, List.append_assoc,
    List.head?_append_of_ne_nil _ l.name.text_ne_nil] at hc
  exact Name.head_text hc

theorem unqualified_descriptionText (l : Leaf) : Unqualified l.descriptionText := by
  unfold descriptionText
  cases l.description with
  | none => exact unqualified_nil
  | some d => exact d.unqualified_text

theorem head_descriptionText (l : Leaf) :
    ∀ c ∈ l.descriptionText.head?, isMarker c = false := by
  unfold descriptionText
  cases l.description with
  | none => simp
  | some d => simpa [d.head_text] using d.unmarked

theorem unqualified_tail (l : Leaf) {bar : List Char} (hb : ∀ c ∈ bar.head?, isMarker c = false)
    (h : Unqualified bar) : Unqualified (l.tail bar) := by
  unfold tail
  split
  · exact unqualified_nil
  · rename_i hne
    refine l.before.unqualified.append (unqualified_colon ?_ ?_ ?_)
    · rw [List.append_assoc]
      exact List.append_ne_nil_of_right_ne_nil _ (descriptionText_append_ne_nil hne)
    · exact forall_head_append (forall_head_append l.after.head l.head_descriptionText) hb
    · exact (l.after.unqualified.append l.unqualified_descriptionText).append h

theorem unqualified_textWith (l : Leaf) {bar : List Char}
    (hb : ∀ c ∈ bar.head?, isMarker c = false) (h : Unqualified bar) :
    Unqualified (l.textWith bar) := by
  refine Unqualified.append ?_
    ((unqualified_of_not_mem (l.not_mem_part (Or.inl rfl))).append (l.unqualified_tail hb h))
  cases l.marker with
  | none => exact unqualified_nil
  | some m => exact unqualified_of_not_mem (by cases m <;> decide)

end Leaf

theorem marking_text (m : Option Marker) (hb : ∀ c ∈ s.head?, isBlank c = false)
    (hm : ∀ c ∈ s.head?, isMarker c = false) (h : Unqualified s) :
    Marking.ofText ((m.map Marker.char).toList ++ s) =
      { text := s, hidden := m matches some .hidden, shared := m matches some .shared } := by
  cases m with
  | some m => cases m <;> simp [Marking.ofText, Marker.char, trimStart_eq_self hb]
  | none =>
    have hqualified : ¬ Qualified s := cutQualified?_eq_none_iff.1 h.cutQualified?
    have hmarking := marking_of_head hm
    simpa [hqualified, unmarked?_eq_none_iff.2 hqualified] using hmarking

end ConsoleSignature.Canonical
