import ConsoleSignature.Proofs.Entry.Canonical
import ConsoleSignature.Proofs.Entry.Choices

/-! Reading a written description: its text and its choices come back. -/
namespace ConsoleSignature.Canonical

open Text Entry

variable {c : Char} {s : List Char}

theorem Blanks.not_mem (w : Blanks) (hc : isBlank c = false) : c ∉ w.chars :=
  not_mem_of_blank w.blank hc

theorem Choice.not_mem (x : Choice) (h : ¬ IsOption c) : c ∉ x.chars := fun hm => h (x.plain c hm)

theorem pieces_choices (xs : List Choice) :
    pieces ',' ([',', ' '].intercalate (xs.map Choice.chars)) = xs.map Choice.chars := by
  induction xs with
  | nil => exact pieces_of_blank (by simp)
  | cons x xs ih =>
    have hpiece : pieces ',' x.chars = [x.chars] :=
      pieces_of_piece x.nonempty x.trimmed (x.not_mem (by decide))
    cases xs with
    | nil => simpa using hpiece
    | cons y ys =>
      have hblank : ∀ c ∈ [' '], isBlank c := by simp [isBlank]
      have htail : pieces ',' ([' '] ++ [',', ' '].intercalate ((y :: ys).map Choice.chars)) =
          (y :: ys).map Choice.chars := by rw [pieces_blank_append hblank, ih]
      rw [List.map_cons, List.map_cons, List.intercalate_cons_cons, ← List.map_cons,
        List.append_assoc, List.cons_append, pieces_append, htail, hpiece]
      rfl

namespace Choices

variable {ch : Choices}

theorem mem_listText (h : c ∈ ch.listText) : IsOption c ∨ c = ',' := by
  rcases mem_intercalate h with h | ⟨t, ht, hc⟩
  · have hsep : c = ',' ∨ c = ' ' := by simpa using h
    rcases hsep with rfl | rfl
    · exact Or.inr rfl
    · exact Or.inl (by decide)
  · obtain ⟨x, -, rfl⟩ := List.mem_map.1 ht
    exact Or.inl (x.plain c hc)

theorem trimmed_listText (ch : Choices) : Trimmed ch.listText := by
  apply trimmed_intercalate
  intro t ht
  obtain ⟨x, -, rfl⟩ := List.mem_map.1 ht
  exact ⟨x.nonempty, x.trimmed⟩

theorem listText_ne_nil (ch : Choices) : ch.listText ≠ [] := by
  refine intercalate_ne_nil (by simp [list]) ?_
  intro t ht
  obtain ⟨x, -, rfl⟩ := List.mem_map.1 ht
  exact x.nonempty

theorem mem_text (h : c ∈ ch.text) : IsOption c ∨ c ∈ [',', ':', '[', ']'] := by
  have hblank (b : Blanks) (hc : c ∈ b.chars) : IsOption c := Or.inr (Or.inl (b.blank c hc))
  have hlist (hc : c ∈ ch.listText) : IsOption c ∨ c ∈ [',', ':', '[', ']'] := by
    refine (mem_listText hc).imp_right ?_
    rintro rfl
    simp
  rcases List.mem_append.1 h with h | h
  · exact Or.inl (hblank ch.before h)
  · rcases List.mem_cons.1 h with rfl | h
    · exact Or.inr (by simp)
    · rcases List.mem_append.1 h with h | h
      · exact Or.inl (hblank ch.after h)
      · split at h
        · rcases List.mem_append.1 h with h | h
          · rcases List.mem_cons.1 h with rfl | h
            · exact Or.inr (by simp)
            · exact hlist h
          · exact Or.inr (by simp_all)
        · exact hlist h

/-- The choices end where their list or its bracket does. -/
theorem getLast_text (ch : Choices) : ∀ c ∈ ch.text.getLast?, isBlank c = false := by
  have hne : (if ch.bracketed then '[' :: ch.listText ++ [']'] else ch.listText) ≠ [] := by
    split
    · simp
    · exact ch.listText_ne_nil
  rw [text, List.append_cons, ← List.append_assoc, List.getLast?_append_of_ne_nil _ hne]
  split
  · intro c hc
    rw [List.getLast?_concat] at hc
    obtain rfl : ']' = c := by simpa using hc
    decide
  · exact ch.trimmed_listText.2

theorem commaParts_listText (ch : Choices) :
    commaParts ch.listText = ch.list.map fun x => String.ofList x.chars := by
  rw [commaParts, listText, list, pieces_choices, List.map_map]
  rfl

theorem isChoiceChar_listText (h : c ∈ ch.listText) : isChoiceChar c := by
  rw [isChoiceChar_iff]
  rcases mem_listText h with h | rfl
  · rcases h with h | h | rfl | rfl | rfl <;> simp_all
  · simp

end Choices

namespace Description

theorem not_mem_text (hc : c = '|' ∨ c = '{' ∨ c = '}') (d : Description) : c ∉ d.text := by
  intro h
  rcases List.mem_append.1 h with h | h
  · have := d.plain c h
    tauto
  · cases hch : d.choices with
    | none => simp [hch] at h
    | some ch =>
      have htext : c ∈ ch.text := by simpa [hch] using h
      have hmem := Choices.mem_text htext
      rcases hc with rfl | rfl | rfl <;> exact absurd hmem (by decide)

theorem text_ne_nil (d : Description) : d.text ≠ [] :=
  List.append_ne_nil_of_left_ne_nil d.nonempty _

theorem head_text (d : Description) : d.text.head? = d.chars.head? :=
  List.head?_append_of_ne_nil _ d.nonempty

theorem trimmed_text (d : Description) : Trimmed d.text := by
  refine ⟨by rw [head_text]; exact d.trimmed.1, forall_getLast_append d.trimmed.2 ?_⟩
  cases d.choices with
  | none => simp
  | some ch => simpa using ch.getLast_text

theorem closesWith_text {d : Description} {ch : Choices} (h : d.choices = some ch) :
    ClosesWith d.text (d.chars ++ ch.before.chars) ch.listText := by
  have hcolon : ':' ∉ d.chars ++ ch.before.chars := by
    simp only [List.mem_append, not_or]
    exact ⟨fun hm => (d.plain ':' hm).1 rfl, ch.before.not_mem (by decide)⟩
  have hne : d.chars ++ ch.before.chars ≠ [] := List.append_ne_nil_of_left_ne_nil d.nonempty _
  have hwritten {l r : List Char} := closesWith_written (l := l) (r := r) hcolon hne
    ch.listText_ne_nil (fun c hc => Choices.isChoiceChar_listText hc) ch.after.blank
  cases hb : ch.bracketed with
  | true => simpa [text, h, Choices.text, hb] using hwritten (Or.inr rfl) (Or.inr rfl)
  | false => simpa [text, h, Choices.text, hb] using hwritten (Or.inl rfl) (Or.inl rfl)

theorem cutChoices_text (d : Description) : cutChoices d.text =
    (d.chars, (d.choices.map fun ch => ch.list.map fun x => String.ofList x.chars).getD []) := by
  cases hch : d.choices with
  | none =>
    have htext : d.text = d.chars := by simp [text, hch]
    have hcolon : ':' ∉ d.chars := fun h => (d.plain ':' h).1 rfl
    rw [htext, cutChoices_of_not_mem hcolon, trim_eq_self d.trimmed]
    rfl
  | some ch =>
    rw [cutChoices_of_closesWith (closesWith_text hch),
      trim_append_blank ch.before.blank d.trimmed, ch.commaParts_listText]
    rfl

end Description

namespace Leaf

theorem trimmed_descriptionText (l : Leaf) : Trimmed l.descriptionText := by
  unfold descriptionText
  cases l.description with
  | none => exact ⟨by simp, by simp⟩
  | some d => exact d.trimmed_text

theorem not_mem_descriptionText (hc : c = '|' ∨ c = '{' ∨ c = '}') (l : Leaf) :
    c ∉ l.descriptionText := by
  unfold descriptionText
  cases l.description with
  | none => simp
  | some d => exact d.not_mem_text hc

/-- Something always follows the colon. -/
theorem descriptionText_append_ne_nil {l : Leaf} {bar : List Char}
    (h : ¬(l.description.isNone ∧ bar = [])) : l.descriptionText ++ bar ≠ [] := by
  intro hnil
  obtain ⟨htext, rfl⟩ := List.append_eq_nil_iff.1 hnil
  cases hd : l.description with
  | none => exact h ⟨by simp [hd], rfl⟩
  | some d => exact d.text_ne_nil (by simpa [descriptionText, hd] using htext)

end Leaf

end ConsoleSignature.Canonical
