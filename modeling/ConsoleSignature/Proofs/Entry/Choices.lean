import ConsoleSignature.Entry.Choices
import ConsoleSignature.Proofs.Text.Pieces

/-!
What is left of a description when its list of choices is cut off, and what is in the list. It is
cut off where the description is written as a text, a colon and a list, and only there.
-/
namespace ConsoleSignature.Entry

open Text

variable {c : Char} {a d s w text list : List Char} {x : String}

theorem cutChoices_of_not_mem (h : ':' ∉ d) : cutChoices d = (trim d, []) := by
  simp [cutChoices, cutChoices?, cut_eq_self h]

theorem cutChoices?_append (h : ':' ∉ a) (s : List Char) :
    cutChoices? (a ++ ':' :: s) =
      if a ≠ [] ∧ beforeBracket (afterBracket s) ≠ [] ∧
          (beforeBracket (afterBracket s)).all isChoiceChar then
        some (trim a, commaParts (beforeBracket (afterBracket s)))
      else none := by
  simp [cutChoices?, cut_append h]

/-- The description stays as it is, or it is cut before its first colon. -/
theorem cutChoices_cases (d : List Char) :
    cutChoices d = (trim d, []) ∨
      ∃ a t s, d = a ++ ':' :: t ∧ ':' ∉ a ∧ a ≠ [] ∧ cutChoices d = (trim a, commaParts s) := by
  rcases eq_or_append_of_sep ':' d with h | ⟨a, t, rfl, ha⟩
  · exact Or.inl (cutChoices_of_not_mem h)
  · rw [cutChoices, cutChoices?_append ha]
    split
    · rename_i h
      exact Or.inr ⟨a, t, _, rfl, ha, h.1, rfl⟩
    · exact Or.inl rfl

theorem trimmed_cutChoices (d : List Char) : Trimmed (cutChoices d).1 := by
  rcases cutChoices_cases d with h | ⟨a, t, s, -, -, -, h⟩
  · rw [h]
    exact trimmed_trim d
  · rw [h]
    exact trimmed_trim a

theorem mem_of_mem_cutChoices (hc : c ∈ (cutChoices d).1) : c ∈ d := by
  rcases cutChoices_cases d with h | ⟨a, t, s, hd, -, -, h⟩
  · rw [h] at hc
    exact mem_of_mem_trim hc
  · rw [h] at hc
    rw [hd]
    exact List.mem_append_left _ (mem_of_mem_trim hc)

theorem mem_commaParts (h : x ∈ commaParts s) :
    x ≠ "" ∧ Trimmed x.toList ∧ ',' ∉ x.toList := by
  obtain ⟨p, hp, rfl⟩ := List.mem_map.1 h
  obtain ⟨hne, ht, hc, -⟩ := mem_pieces hp
  exact ⟨by simpa using hne, by simpa using ht, by simpa using hc⟩

theorem mem_choices (hx : x ∈ (cutChoices d).2) :
    x ≠ "" ∧ Trimmed x.toList ∧ ',' ∉ x.toList := by
  rcases cutChoices_cases d with h | ⟨a, t, s, -, -, -, h⟩
  · simp [h] at hx
  · exact mem_commaParts (h ▸ hx)

/-- Choices never stand without a text before them. -/
theorem described_of_choices (hd : Trimmed d) (hx : (cutChoices d).2 ≠ []) :
    (cutChoices d).1 ≠ [] ∧ ':' ∉ (cutChoices d).1 := by
  rcases cutChoices_cases d with h | ⟨a, t, s, rfl, ha, hne, h⟩
  · simp [h] at hx
  · rw [h]
    refine ⟨?_, fun hm => ha (mem_of_mem_trim hm)⟩
    intro hnil
    obtain ⟨c, r, rfl⟩ := List.exists_cons_of_ne_nil hne
    have hblank := trim_eq_nil_iff.1 hnil c List.mem_cons_self
    simp [hd.1 c rfl] at hblank

theorem afterBracket_open (hw : ∀ c ∈ w, isBlank c) (s : List Char) :
    afterBracket (w ++ '[' :: s) = s := by
  have htrim : trimStart (w ++ '[' :: s) = '[' :: s := by
    rw [trimStart_of_blank hw, trimStart_eq_self]
    intro c hc
    obtain rfl : '[' = c := by simpa using hc
    decide
  simp [afterBracket, htrim]

theorem afterBracket_eq_self (h : '[' ∉ s) : afterBracket s = s := by
  unfold afterBracket
  split
  · rename_i r hr
    have : '[' ∈ trimStart s := by simp [hr]
    exact absurd ((List.dropWhile_sublist isBlank).subset this) h
  · rfl

theorem beforeBracket_close (s : List Char) : beforeBracket (s ++ [']']) = s := by
  simp [beforeBracket]

theorem beforeBracket_eq_self (h : ']' ∉ s) : beforeBracket s = s := by
  unfold beforeBracket
  split
  · rename_i r hr
    have : ']' ∈ s.reverse := by simp [hr]
    exact absurd (List.mem_reverse.1 this) h
  · rfl

/-- What goes before the list is an opening bracket with blanks before it, or nothing. -/
theorem exists_afterBracket (s : List Char) : ∃ w l, (∀ c ∈ w, isBlank c) ∧ (l = [] ∨ l = ['[']) ∧
    s = w ++ l ++ afterBracket s := by
  by_cases h : ∃ r, trimStart s = '[' :: r
  · obtain ⟨r, hr⟩ := h
    refine ⟨s.takeWhile isBlank, ['['], fun c hc => List.mem_takeWhile_imp hc, Or.inr rfl, ?_⟩
    have hs : s = s.takeWhile isBlank ++ trimStart s := List.takeWhile_append_dropWhile.symm
    rw [hr] at hs
    simpa [afterBracket, hr] using hs
  · refine ⟨[], [], by simp, Or.inl rfl, ?_⟩
    unfold afterBracket
    split
    · rename_i r hr
      exact absurd ⟨r, hr⟩ h
    · rfl

theorem exists_beforeBracket (s : List Char) : ∃ r, (r = [] ∨ r = [']']) ∧
    s = beforeBracket s ++ r := by
  unfold beforeBracket
  split
  · rename_i r hr
    refine ⟨[']'], Or.inr rfl, ?_⟩
    rw [← List.reverse_reverse s, hr, List.reverse_cons]
  · exact ⟨[], Or.inl rfl, by simp⟩

/-- The description is a text and, behind its only colon, a list of choices, bare or in brackets,
either of which may be missing. -/
structure ClosesWith (d text list : List Char) : Prop where
  colon : d.count ':' = 1
  text_ne : text ≠ []
  list_ne : list ≠ []
  chars : ∀ c ∈ list, isWord c ∨ isBlank c ∨ c = ',' ∨ c = '.' ∨ c = '/' ∨ c = '-'
  written : ∃ w l r, (∀ c ∈ w, isBlank c) ∧ (l = [] ∨ l = ['[']) ∧ (r = [] ∨ r = [']']) ∧
    d = text ++ ':' :: (w ++ l ++ list ++ r)

theorem isChoiceChar_iff :
    isChoiceChar c ↔ isWord c ∨ isBlank c ∨ c = ',' ∨ c = '.' ∨ c = '/' ∨ c = '-' := by
  simp [isChoiceChar, or_assoc]

theorem ne_of_isChoiceChar (h : isChoiceChar c) : c ≠ ':' ∧ c ≠ '[' ∧ c ≠ ']' := by
  refine ⟨?_, ?_, ?_⟩ <;> rintro rfl <;> exact absurd h (by decide)

/-- Blanks before a list make no choices. -/
theorem commaParts_blank_append (hw : ∀ c ∈ w, isBlank c) (s : List Char) :
    commaParts (w ++ s) = commaParts s := by
  rw [commaParts, pieces_blank_append hw, commaParts]

theorem ClosesWith.colon_not_mem (h : ClosesWith d text list) : ':' ∉ text := by
  obtain ⟨w, l, r, -, -, -, rfl⟩ := h.written
  have hcount := h.colon
  rw [List.count_append, List.count_cons_self] at hcount
  exact List.count_eq_zero.1 (by omega)

theorem beforeBracket_append {r : List Char} (h : ']' ∉ s) (hr : r = [] ∨ r = [']']) :
    beforeBracket (s ++ r) = s := by
  rcases hr with rfl | rfl
  · rw [List.append_nil, beforeBracket_eq_self h]
  · exact beforeBracket_close s

/-- Brackets go, and the list stays with some of the blanks before it. -/
theorem exists_list_eq (hw : ∀ c ∈ w, isBlank c) {l r : List Char} (hl : l = [] ∨ l = ['['])
    (hr : r = [] ∨ r = [']']) (hlist : ∀ c ∈ list, isChoiceChar c) :
    ∃ v, (∀ c ∈ v, isBlank c) ∧ beforeBracket (afterBracket (w ++ l ++ list ++ r)) = v ++ list := by
  have hopen : '[' ∉ list := fun hm => (ne_of_isChoiceChar (hlist _ hm)).2.1 rfl
  have hclose : ']' ∉ list := fun hm => (ne_of_isChoiceChar (hlist _ hm)).2.2 rfl
  rcases hl with rfl | rfl
  · have hbare : '[' ∉ w ++ list ++ r := by
      simp only [List.mem_append, not_or]
      refine ⟨⟨not_mem_of_blank hw (by decide), hopen⟩, ?_⟩
      rcases hr with rfl | rfl <;> simp
    have hblank : ']' ∉ w ++ list := by
      simp only [List.mem_append, not_or]
      exact ⟨not_mem_of_blank hw (by decide), hclose⟩
    refine ⟨w, hw, ?_⟩
    rw [List.append_nil, afterBracket_eq_self hbare, beforeBracket_append hblank hr]
  · refine ⟨[], by simp, ?_⟩
    have hsplit : w ++ ['['] ++ list ++ r = w ++ '[' :: (list ++ r) := by simp
    rw [hsplit, afterBracket_open hw, beforeBracket_append hclose hr, List.nil_append]

theorem cutChoices?_of_closesWith (h : ClosesWith d text list) :
    cutChoices? d = some (trim text, commaParts list) := by
  obtain ⟨w, l, r, hw, hl, hr, hd⟩ := h.written
  have hlist : ∀ c ∈ list, isChoiceChar c := fun c hc => isChoiceChar_iff.2 (h.chars c hc)
  obtain ⟨v, hv, heq⟩ := exists_list_eq hw hl hr hlist
  have hall : (v ++ list).all isChoiceChar := by
    rw [List.all_eq_true]
    intro c hc
    rcases List.mem_append.1 hc with hc | hc
    · exact isChoiceChar_iff.2 (Or.inr (Or.inl (hv c hc)))
    · exact hlist c hc
  have hne : v ++ list ≠ [] := List.append_ne_nil_of_right_ne_nil v h.list_ne
  rw [hd, cutChoices?_append h.colon_not_mem, heq, if_pos ⟨h.text_ne, hne, hall⟩,
    commaParts_blank_append hv]

theorem cutChoices_of_closesWith (h : ClosesWith d text list) :
    cutChoices d = (trim text, commaParts list) := by
  rw [cutChoices, cutChoices?_of_closesWith h, Option.getD_some]

theorem closesWith_written {l r : List Char} (htext : ':' ∉ text) (hne : text ≠ [])
    (hlist : list ≠ []) (hchars : ∀ c ∈ list, isChoiceChar c) (hw : ∀ c ∈ w, isBlank c)
    (hl : l = [] ∨ l = ['[']) (hr : r = [] ∨ r = [']']) :
    ClosesWith (text ++ ':' :: (w ++ l ++ list ++ r)) text list := by
  have hcolon : ':' ∉ w ++ l ++ list ++ r := by
    simp only [List.mem_append, not_or]
    refine ⟨⟨⟨not_mem_of_blank hw (by decide), ?_⟩, ?_⟩, ?_⟩
    · rcases hl with rfl | rfl <;> simp
    · exact fun hm => (ne_of_isChoiceChar (hchars _ hm)).1 rfl
    · rcases hr with rfl | rfl <;> simp
  refine ⟨?_, hne, hlist, fun c hc => isChoiceChar_iff.1 (hchars c hc), w, l, r, hw, hl, hr, rfl⟩
  rw [List.count_append, List.count_cons_self, List.count_eq_zero.2 htext,
    List.count_eq_zero.2 hcolon]

theorem exists_closesWith (h : cutChoices? d ≠ none) : ∃ text list, ClosesWith d text list := by
  rcases eq_or_append_of_sep ':' d with hd | ⟨a, s, rfl, ha⟩
  · simp [cutChoices?, cut_eq_self hd] at h
  · rw [cutChoices?_append ha] at h
    split at h
    · rename_i hlist
      obtain ⟨w, l, hw, hl, hs⟩ := exists_afterBracket s
      obtain ⟨r, hr, hafter⟩ := exists_beforeBracket (afterBracket s)
      have hwritten : s = w ++ l ++ beforeBracket (afterBracket s) ++ r := by
        rw [List.append_assoc, ← hafter, ← hs]
      obtain ⟨hne, hlist_ne, hall⟩ := hlist
      have hcloses := closesWith_written ha hne hlist_ne (List.all_eq_true.1 hall) hw hl hr
      rw [← hwritten] at hcloses
      exact ⟨a, _, hcloses⟩
    · exact absurd rfl h

theorem cutChoices_of_not_closesWith (h : ¬ ∃ text list, ClosesWith d text list) :
    cutChoices d = (trim d, []) := by
  have hnone : cutChoices? d = none := by
    by_contra hne
    exact h (exists_closesWith hne)
  rw [cutChoices, hnone, Option.getD_none]

end ConsoleSignature.Entry
