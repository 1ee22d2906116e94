import ConsoleSignature.Plan.Token
import ConsoleSignature.Proofs.Text.Replacement

/-!
Descriptions that are shown with a sub-command. Looking at every word in brackets and deciding what
it stands for replaces the two literals that stand for something, all at once, and nothing else.
-/
namespace ConsoleSignature.Plan

open Text

variable {parent e : Entry} {s w rest : List Char} {value : String} {r : Replacement}

/-- The literals that stand for something where the parent is shown. -/
def references (parent : Entry) : List Replacement :=
  ⟨"[name]".toList, parent.name.toList⟩ ::
    parent.description.toList.map fun d => ⟨"[description]".toList, d.toList⟩

theorem bracketed_references (parent : Entry) : Bracketed (references parent) := by
  intro r hr
  rcases List.mem_cons.1 hr with rfl | hr
  · exact ⟨"name".toList, rfl, by decide, by decide⟩
  · obtain ⟨d, -, rfl⟩ := List.mem_map.1 hr
    exact ⟨"description".toList, rfl, by decide, by decide⟩

/-- A reference is a word up to a closing bracket. -/
theorem reference?_eq_some_iff :
    reference? s = some (w, rest) ↔ s = w ++ ']' :: rest ∧ w ≠ [] ∧ ∀ c ∈ w, isWord c := by
  constructor
  · intro h
    have hs := eq_append_of_reference? h
    unfold reference? at h
    split at h
    · rename_i c v rest' hword hrest
      obtain ⟨rfl, -⟩ := Prod.mk.inj (Option.some.inj h)
      refine ⟨hs, by simp, fun d hd => ?_⟩
      rw [← hword] at hd
      exact List.mem_takeWhile_imp hd
    · simp at h
  · rintro ⟨rfl, hne, hword⟩
    obtain ⟨c, v, rfl⟩ := List.exists_cons_of_ne_nil hne
    have hclose : isWord ']' = false := by decide
    have htake : (c :: v ++ ']' :: rest).takeWhile isWord = c :: v := by
      rw [List.takeWhile_append_of_pos hword, List.takeWhile_cons_of_neg (by simp [hclose]),
        List.append_nil]
    have hdrop : (c :: v ++ ']' :: rest).dropWhile isWord = ']' :: rest := by
      rw [List.dropWhile_append_of_pos hword, List.dropWhile_cons_of_neg (by simp [hclose])]
    rw [reference?, htake, hdrop]
    rfl

/-- A word in brackets stands at a bracket where that word is the reference read there. -/
theorem standsAt_open_iff (hne : w ≠ []) (hword : ∀ c ∈ w, isWord c) (v : List Char) :
    (Replacement.mk ('[' :: w ++ [']']) v).standsAt ('[' :: s) 0 = true ↔
      ∃ rest, reference? s = some (w, rest) := by
  rw [standsAt_iff, List.drop_zero, List.cons_append, List.prefix_cons_inj]
  simp only [reference?_eq_some_iff]
  constructor
  · rintro ⟨rest, rfl⟩
    exact ⟨rest, by simp, hne, hword⟩
  · rintro ⟨rest, rfl, -, -⟩
    exact ⟨rest, by simp⟩

theorem standsAt_name_iff (v : List Char) :
    (Replacement.mk "[name]".toList v).standsAt ('[' :: s) 0 = true ↔
      ∃ rest, reference? s = some ("name".toList, rest) :=
  standsAt_open_iff (w := "name".toList) (by decide) (List.all_eq_true.1 rfl) v

theorem standsAt_description_iff (v : List Char) :
    (Replacement.mk "[description]".toList v).standsAt ('[' :: s) 0 = true ↔
      ∃ rest, reference? s = some ("description".toList, rest) :=
  standsAt_open_iff (w := "description".toList) (by decide) (List.all_eq_true.1 rfl) v

/-- What a reference stands for is put in the place of its literal. -/
theorem replacementAt?_of_referent (hs : reference? s = some (w, rest))
    (hw : referent? parent w = some value) :
    replacementAt? (references parent) ('[' :: s) 0 =
      some ⟨'[' :: w ++ [']'], value.toList⟩ := by
  unfold referent? at hw
  split at hw
  · rename_i hname
    subst hname
    obtain rfl := Option.some.inj hw
    have hstands := (standsAt_name_iff parent.name.toList).2 ⟨rest, hs⟩
    simp only [replacementAt?, references, List.find?_cons, hstands]
    rfl
  · rename_i hname
    split at hw
    · rename_i hdescription
      subst hdescription
      have hother : (Replacement.mk "[name]".toList parent.name.toList).standsAt
          ('[' :: s) 0 = false := by
        rw [← Bool.not_eq_true, standsAt_name_iff]
        rintro ⟨rest', hs'⟩
        rw [hs] at hs'
        exact hname (Prod.mk.inj (Option.some.inj hs')).1
      have hstands := (standsAt_description_iff value.toList).2 ⟨rest, hs⟩
      simp only [replacementAt?, references, List.find?_cons, hother, hw, Option.toList_some,
        List.map_cons, hstands]
      rfl
    · simp at hw

/-- No literal stands where what is read stands for nothing. -/
theorem replacementAt?_eq_none
    (h : ∀ w rest, reference? s = some (w, rest) → referent? parent w = none) :
    replacementAt? (references parent) ('[' :: s) 0 = none := by
  rw [replacementAt?, List.find?_eq_none]
  intro r hr hstands
  rcases List.mem_cons.1 hr with rfl | hr
  · obtain ⟨rest, hs⟩ := (standsAt_name_iff parent.name.toList).1 hstands
    simpa [referent?] using h _ _ hs
  · obtain ⟨d, hd, rfl⟩ := List.mem_map.1 hr
    obtain ⟨rest, hs⟩ := (standsAt_description_iff d.toList).1 hstands
    rw [Option.mem_toList] at hd
    simpa [referent?, hd] using h _ _ hs

/-- Deciding word by word is replacing the literals. -/
theorem fill_eq_replaceAtOnce (parent : Entry) (s : List Char) :
    fill parent s = replaceAtOnce (references parent) s := by
  have hbracketed := bracketed_references parent
  fun_induction fill parent s with
  | case1 => rfl
  | case2 s word rest hs value hvalue ih =>
    have hat := replacementAt?_of_referent hs hvalue
    have hsplit : '[' :: s = '[' :: word ++ [']'] ++ rest := by
      simp [eq_append_of_reference? hs]
    rw [hsplit] at hat ⊢
    rw [ih]
    exact (replaceAtOnce_literal (r := ⟨_, _⟩) hbracketed hat).symm
  | case3 s word rest hs hnone ih =>
    have hat : replacementAt? (references parent) ('[' :: s) 0 = none := by
      apply replacementAt?_eq_none
      intro w t hw
      rw [hs] at hw
      obtain ⟨rfl, -⟩ := Prod.mk.inj (Option.some.inj hw)
      exact hnone
    obtain ⟨rfl, -, hword⟩ := reference?_eq_some_iff.1 hs
    have hopen : '[' ∉ word ++ [']'] := by
      intro hmem
      rcases List.mem_append.1 hmem with hmem | hmem
      · exact absurd (hword '[' hmem) (by decide)
      · exact absurd hmem (by decide)
    have hrest := replaceAtOnce_of_not_mem hbracketed hopen rest
    have hsplit : word ++ ']' :: rest = word ++ [']'] ++ rest := List.append_cons word ']' rest
    rw [ih, replaceAtOnce_cons hat, hsplit, hrest]
    simp
  | case4 s hnone ih =>
    have hat : replacementAt? (references parent) ('[' :: s) 0 = none :=
      replacementAt?_eq_none (by simp [hnone])
    rw [replaceAtOnce_cons hat, ih]
  | case5 c s hc ih =>
    have hrest := replaceAtOnce_of_not_mem (u := [c]) hbracketed (by simpa using Ne.symm hc) s
    rw [ih]
    exact hrest.symm

theorem eq_of_literal_eq {q : Replacement} (hr : r ∈ references parent)
    (hq : q ∈ references parent) (h : r.literal = q.literal) : r = q := by
  have hne : "[name]".toList ≠ "[description]".toList := by decide
  rcases List.mem_cons.1 hr with rfl | hr <;> rcases List.mem_cons.1 hq with rfl | hq
  · rfl
  · obtain ⟨d, -, rfl⟩ := List.mem_map.1 hq
    exact absurd h hne
  · obtain ⟨d, -, rfl⟩ := List.mem_map.1 hr
    exact absurd h.symm hne
  · obtain ⟨d, hd, rfl⟩ := List.mem_map.1 hr
    obtain ⟨d', hd', rfl⟩ := List.mem_map.1 hq
    rw [Option.mem_toList] at hd hd'
    rw [Option.mem_unique hd hd']

/-- A description that is shown on its own stays as it is. Shown with a sub-command it has each
literal `[name]` replaced by the sub-command's name and, if that has a description, each
`[description]` by it, all at once. No two places of these literals overlap. -/
theorem description_ofEntry (e parent : Entry) :
    let written := e.description.getD ""
    let shown := String.ofList (replaceAtOnce (references parent) written.toList)
    (Argument.ofEntry e none).description = written ∧
    (Flag.ofEntry e none).description = written ∧
    (Argument.ofEntry e (some parent)).description = shown ∧
    (Flag.ofEntry e (some parent)).description = shown ∧
    ∀ i j, ∀ r ∈ references parent, ∀ q ∈ references parent,
      r.standsAt written.toList i = true → q.standsAt written.toList j = true →
        (i < j → i + r.literal.length ≤ j) ∧ (i = j → r = q) := by
  intro written shown
  have hshown : descriptionOf e (some parent) = shown := by
    rw [descriptionOf, fill_eq_replaceAtOnce]
  have hbracketed := bracketed_references parent
  refine ⟨rfl, rfl, hshown, hshown, ?_⟩
  intro i j r hr q hq hrs hqs
  constructor
  · exact hbracketed.le_of_lt hr hq hrs hqs
  · rintro rfl
    exact eq_of_literal_eq hr hq (hbracketed.literal_eq hr hq hrs hqs)

example (e : Entry) :
    String.ofList (fill { e with name := "[description]", description := some "d" }
      "[[name]] [x[name]".toList) = "[[description]] [x[description]" := by
  cbv

end ConsoleSignature.Plan
