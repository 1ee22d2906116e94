import ConsoleSignature.Proofs.Entry.Choices
import ConsoleSignature.Proofs.Text.Pattern

/-!
The list of choices as a pattern: a text, a colon, and the list with or without brackets, any of
which blanks may surround. The pattern can match one description in several ways, but all of them
give the same text and the same choices.
-/
namespace ConsoleSignature.Entry

open Text

variable {d text list : List Char} {way : List (List Char)}

def choicePattern : List Run :=
  [.kept (· != ':') false, .skipped isBlank, .once ':', .skipped isBlank, .optional '[',
    .kept isChoiceChar true, .optional ']']

/-- The text and the choices of a description that the pattern matches; else the description. -/
def matchChoices (description : List Char) : List Char × List String :=
  match firstWay? choicePattern description with
  | some [text, list] => (trim text, commaParts list)
  | _ => (trim description, [])

theorem mem_ways_choicePattern_iff : way ∈ ways choicePattern d ↔
    ∃ text w v l list r, way = [text, list] ∧ (text ≠ [] ∧ ':' ∉ text) ∧ (∀ c ∈ w, isBlank c) ∧
      (∀ c ∈ v, isBlank c) ∧ (l = [] ∨ l = ['[']) ∧ (list ≠ [] ∧ ∀ c ∈ list, isChoiceChar c) ∧
      (r = [] ∨ r = [']']) ∧ d = text ++ w ++ ':' :: (v ++ l ++ list ++ r) := by
  have hcolon : ∀ text : List Char, (∀ c ∈ text, (c != ':') = true) ↔ ':' ∉ text := by
    intro text
    simp only [bne_iff_ne]
    exact ⟨fun h hm => h ':' hm rfl, fun h c hc he => h (he ▸ hc)⟩
  simp only [choicePattern, mem_ways_kept_iff, mem_ways_skipped_iff, mem_ways_once_iff,
    mem_ways_optional_iff, mem_ways_nil_iff, hcolon]
  constructor
  · rintro ⟨text, _, _, rfl, htext, ⟨w, _, rfl, hw, _, rfl, v, _, rfl, hv, l, _, rfl, hl,
      list, _, _, rfl, hlist, ⟨r, _, rfl, hr, rfl, rfl⟩, rfl⟩, rfl⟩
    exact ⟨text, w, v, l, list, r, rfl, htext, hw, hv, hl, hlist, hr, by simp⟩
  · rintro ⟨text, w, v, l, list, r, rfl, htext, hw, hv, hl, hlist, hr, rfl⟩
    exact ⟨text, w ++ ':' :: (v ++ l ++ list ++ r), [list], by simp, htext,
      ⟨w, _, rfl, hw, _, rfl, v, l ++ list ++ r, by simp, hv, l, list ++ r, by simp, hl,
        list, r, [], rfl, hlist, ⟨r, [], by simp, hr, rfl, rfl⟩, rfl⟩, rfl⟩

theorem closesWith_of_mem_ways (h : way ∈ ways choicePattern d) :
    ∃ text w list, way = [text, list] ∧ (∀ c ∈ w, isBlank c) ∧ ClosesWith d (text ++ w) list := by
  obtain ⟨text, w, v, l, list, r, rfl, htext, hw, hv, hl, hlist, hr, rfl⟩ :=
    mem_ways_choicePattern_iff.1 h
  have hbefore : ':' ∉ text ++ w := by
    simp only [List.mem_append, not_or]
    exact ⟨htext.2, not_mem_of_blank hw (by decide)⟩
  have hne : text ++ w ≠ [] := List.append_ne_nil_of_left_ne_nil htext.1 w
  exact ⟨text, w, list, rfl, hw, closesWith_written hbefore hne hlist.1 hlist.2 hv hl hr⟩

theorem mem_ways_of_closesWith (h : ClosesWith d text list) :
    [text, list] ∈ ways choicePattern d := by
  obtain ⟨v, l, r, hv, hl, hr, hd⟩ := h.written
  have hlist : ∀ c ∈ list, isChoiceChar c := fun c hc => isChoiceChar_iff.2 (h.chars c hc)
  exact mem_ways_choicePattern_iff.2 ⟨text, [], v, l, list, r, rfl, ⟨h.text_ne, h.colon_not_mem⟩,
    by simp, hv, hl, ⟨h.list_ne, hlist⟩, hr, by simpa using hd⟩

/-- It does not matter which way to match is found first. -/
theorem matchChoices_eq (d : List Char) : matchChoices d = cutChoices d := by
  by_cases h : ∃ text list, ClosesWith d text list
  · obtain ⟨text, list, h⟩ := h
    cases hway : firstWay? choicePattern d with
    | none => exact absurd (mem_ways_of_closesWith h) (firstWay?_eq_none_iff.1 hway _)
    | some way =>
      obtain ⟨text', w, list', rfl, hw, hcloses⟩ :=
        closesWith_of_mem_ways (mem_ways_of_firstWay? hway)
      -- Another way to match leaves more of these blanks with the text, or fewer; all are trimmed.
      have htrim : trim (text' ++ w) = trim text' := by
        simpa using trim_blanks (u := []) (by simp) hw text'
      simp only [matchChoices, hway, cutChoices_of_closesWith hcloses, htrim]
  · have hnone : firstWay? choicePattern d = none := by
      refine firstWay?_eq_none_iff.2 fun way hway => ?_
      obtain ⟨text, w, list, -, -, hcloses⟩ := closesWith_of_mem_ways hway
      exact h ⟨_, _, hcloses⟩
    simp only [matchChoices, hnone, cutChoices_of_not_closesWith h]

theorem trim_of_closesWith (hd : Trimmed d) (h : ClosesWith d text list) :
    trim text = trimEnd text := by
  obtain ⟨w, l, r, -, -, -, hwritten⟩ := h.written
  have hhead : text.head? = d.head? := by rw [hwritten, List.head?_append_of_ne_nil _ h.text_ne]
  rw [trim, trimStart_eq_self (hhead ▸ hd.1)]

theorem length_of_closesWith (h : ClosesWith d text list) : text.length < d.length := by
  obtain ⟨w, l, r, -, -, -, hwritten⟩ := h.written
  rw [hwritten, List.length_append, List.length_cons]
  omega

/-- A list without brackets is the same as one in brackets. -/
theorem cutChoices_brackets (htext : ':' ∉ text) (hne : list ≠ [])
    (hlist : ∀ c ∈ list, isChoiceChar c) :
    cutChoices (text ++ " : ".toList ++ list) =
      cutChoices (text ++ " : [".toList ++ list ++ "]".toList) := by
  have hbefore : ':' ∉ text ++ [' '] := by simp [htext]
  have hblank : ∀ c ∈ [' '], isBlank c := by simp [isBlank]
  have hbare := closesWith_written hbefore (by simp) hne hlist hblank (Or.inl rfl) (Or.inl rfl)
  have hclosed := closesWith_written hbefore (by simp) hne hlist hblank (Or.inr rfl) (Or.inr rfl)
  have hleft : text ++ " : ".toList ++ list =
      text ++ [' '] ++ ':' :: ([' '] ++ [] ++ list ++ []) := by simp
  have hright : text ++ " : [".toList ++ list ++ "]".toList =
      text ++ [' '] ++ ':' :: ([' '] ++ ['['] ++ list ++ [']']) := by simp
  rw [hleft, hright, cutChoices_of_closesWith hbare, cutChoices_of_closesWith hclosed]

/-- Cutting the choices off a description is matching it with the pattern, and it needs no search:
the description loses what follows its text exactly where that is its only colon and a list, and
however the blanks there are shared out the outcome is the same. -/
theorem cutChoices_of_trimmed (hd : Trimmed d) :
    matchChoices d = cutChoices d ∧
    (∀ text list, ClosesWith d text list → cutChoices d = (trimEnd text, commaParts list)) ∧
    ((¬ ∃ text list, ClosesWith d text list) → cutChoices d = (d, [])) ∧
    ((cutChoices d).1 ≠ d ↔ ∃ text list, ClosesWith d text list) ∧
    ∀ text list, ':' ∉ text → list ≠ [] → (∀ c ∈ list, isChoiceChar c) →
      cutChoices (text ++ " : ".toList ++ list) =
        cutChoices (text ++ " : [".toList ++ list ++ "]".toList) := by
  have hcut : ∀ text list, ClosesWith d text list →
      cutChoices d = (trimEnd text, commaParts list) := by
    intro text list h
    rw [cutChoices_of_closesWith h, trim_of_closesWith hd h]
  have hkeep : (¬ ∃ text list, ClosesWith d text list) → cutChoices d = (d, []) := by
    intro h
    rw [cutChoices_of_not_closesWith h, trim_eq_self hd]
  refine ⟨matchChoices_eq d, hcut, hkeep, ⟨?_, ?_⟩, ?_⟩
  · intro h
    by_contra hnone
    exact h (by rw [hkeep hnone])
  · rintro ⟨text, list, h⟩ he
    rw [hcut text list h] at he
    have hlength : (trimEnd text).length = d.length := congrArg List.length he
    have := length_trimEnd_le text
    have := length_of_closesWith h
    omega
  · intro text list htext hne hlist
    exact cutChoices_brackets htext hne hlist

theorem cutChoices_of_trimmed_format :
    let d := "Format of it\u00a0:\t .txt,, a b ,]".toList
    let text := "Format of it\u00a0".toList
    let list := " .txt,, a b ,".toList
    let levels := "low, high".toList
    Trimmed d ∧ ClosesWith d text list ∧
    cutChoices d = ("Format of it".toList, [".txt", "a b"]) ∧ matchChoices d = cutChoices d ∧
    (∃ text list, ClosesWith d text list) ∧ ¬ ClosesWith "a:b:c".toList "a".toList "b".toList ∧
    ':' ∉ "Level".toList ∧ levels ≠ [] ∧ (∀ c ∈ levels, isChoiceChar c) ∧
    cutChoices ("Level".toList ++ " : ".toList ++ levels) =
      cutChoices ("Level".toList ++ " : [".toList ++ levels ++ "]".toList) := by
  intro d text list levels
  have hd : Trimmed d := by decide
  have hlist : ∀ c ∈ list, isChoiceChar c := List.all_eq_true.1 (by decide)
  have hlevels : ∀ c ∈ levels, isChoiceChar c := List.all_eq_true.1 (by decide)
  have hcolon : ':' ∉ text := by decide
  have htab : ∀ c ∈ ['\t'], isBlank c := by simp [isBlank]
  have hcloses : ClosesWith d text list :=
    closesWith_written hcolon (by decide) (by decide) hlist htab (Or.inl rfl) (Or.inr rfl)
  obtain ⟨hpattern, hcut, -, hiff, hbrackets⟩ := cutChoices_of_trimmed hd
  have hparts : (trimEnd text, commaParts list) = ("Format of it".toList, [".txt", "a b"]) := by
    decide
  refine ⟨hd, hcloses, (hcut text list hcloses).trans hparts, hpattern, ⟨text, list, hcloses⟩,
    fun h => absurd h.colon (by decide), by decide, by decide, hlevels, ?_⟩
  exact hbrackets "Level".toList levels (by decide) (by decide) hlevels

end ConsoleSignature.Entry
