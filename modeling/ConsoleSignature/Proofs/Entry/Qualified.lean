import ConsoleSignature.Entry.OfBlock
import ConsoleSignature.Proofs.Text

/-!
Markers behind colons. Text falls apart for the search where no marker follows a colon, so that it
can be made part by part; blanks around a text do not matter to it.
-/
namespace ConsoleSignature.Entry

open Text

variable {c : Char} {a b s t : List Char}

theorem isMarker_eq_false_iff : isMarker c = false ↔ c ≠ '#' ∧ c ≠ '^' := by
  simp [isMarker]

theorem isBlank_of_isMarker (h : isMarker c) : isBlank c = false := by
  have hmarker : c = '#' ∨ c = '^' := by simpa [isMarker] using h
  rcases hmarker with rfl | rfl <;> decide

theorem isMarker_of_isBlank (h : isBlank c) : isMarker c = false := by
  by_contra hm
  simp [isBlank_of_isMarker (by simpa using hm)] at h

/-- Some colon has a marker right behind it. -/
def Qualified (s : List Char) : Prop := ∃ m, isMarker m ∧ [':', m] <:+: s

/-- The search goes through one part and then the other, unless the second part starts with the
marker of a colon that ends the first. -/
theorem cutQualified?_append
    (h : s.getLast? ≠ some ':' ∨ ∀ c ∈ t.head?, isMarker c = false) :
    cutQualified? (s ++ t) =
      ((cutQualified? s).map (Prod.map id (· ++ t))).or
        ((cutQualified? t).map (Prod.map (s ++ ·) id)) := by
  fun_induction cutQualified? s with
  | case1 c m r hc => simp [cutQualified?, hc]
  | case2 c m r hc ih =>
    have htail := ih (by simpa using h)
    simp only [List.cons_append] at htail ⊢
    rw [cutQualified?, if_neg hc, htail, Option.map_or, Option.map_map, Option.map_map,
      Option.map_map]
    rfl
  | case3 s hs =>
    match s with
    | [] => exact (Option.map_id_apply).symm
    | [c] =>
      cases t with
      | nil => simp [cutQualified?]
      | cons m r =>
        have hc : ¬(c = ':' ∧ isMarker m) := by
          rintro ⟨rfl, hm⟩
          rcases h with h | h
          · simp at h
          · simp [h m rfl] at hm
        simp [cutQualified?, hc]
    | c :: m :: r => exact absurd rfl (hs c m r)

/-- Where the search cuts, a marker goes and its colon stays. -/
theorem exists_of_cutQualified? (h : cutQualified? s = some (a, b)) :
    ∃ p m, isMarker m ∧ a = p ++ [':'] ∧ s = p ++ ':' :: m :: b := by
  fun_induction cutQualified? s generalizing a b with
  | case1 c m r hc =>
    obtain ⟨rfl, rfl⟩ : [c] = a ∧ r = b := by simpa using h
    exact ⟨[], m, hc.2, by simp [hc.1], by simp [hc.1]⟩
  | case2 c m r hc ih =>
    obtain ⟨⟨a', b'⟩, hab, he⟩ := Option.map_eq_some_iff.1 h
    obtain ⟨rfl, rfl⟩ : c :: a' = a ∧ b' = b := by simpa using he
    obtain ⟨p, x, hx, rfl, hs⟩ := ih hab
    exact ⟨c :: p, x, hx, rfl, congrArg (c :: ·) hs⟩
  | case3 => simp at h

theorem isSome_cutQualified?_iff : (cutQualified? s).isSome ↔ Qualified s := by
  constructor
  · intro h
    obtain ⟨⟨a, b⟩, hab⟩ := Option.isSome_iff_exists.1 h
    obtain ⟨p, m, hm, -, rfl⟩ := exists_of_cutQualified? hab
    exact ⟨m, hm, p, b, by simp⟩
  · rintro ⟨m, hm, p, b, rfl⟩
    have hfound : cutQualified? (':' :: m :: b) = some ([':'], b) := by simp [cutQualified?, hm]
    have happend := cutQualified?_append (s := p) (t := ':' :: m :: b) (Or.inr (by simp [isMarker]))
    simp [happend, hfound]

instance : DecidablePred Qualified := fun _ => decidable_of_iff _ isSome_cutQualified?_iff

theorem cutQualified?_eq_none_iff : cutQualified? s = none ↔ ¬ Qualified s := by
  rw [← isSome_cutQualified?_iff, Option.not_isSome_iff_eq_none]

theorem not_qualified_of_unmarked (h : ∀ c ∈ s, isMarker c = false) : ¬ Qualified s := by
  rintro ⟨m, hm, hin⟩
  simp [h m (hin.subset (by simp))] at hm

theorem qualified_append (h : s.getLast? ≠ some ':' ∨ ∀ c ∈ t.head?, isMarker c = false) :
    Qualified (s ++ t) ↔ Qualified s ∨ Qualified t := by
  simp only [← isSome_cutQualified?_iff, cutQualified?_append h, Option.isSome_or,
    Option.isSome_map, Bool.or_eq_true]

/-- The text without its first marker behind a colon, if there is one. -/
def unmarked? (s : List Char) : Option (List Char) := (cutQualified? s).map fun (a, b) => a ++ b

theorem unmarked?_eq_none_iff : unmarked? s = none ↔ ¬ Qualified s := by
  rw [unmarked?, Option.map_eq_none_iff, cutQualified?_eq_none_iff]

theorem unmarked?_append (h : s.getLast? ≠ some ':' ∨ ∀ c ∈ t.head?, isMarker c = false) :
    unmarked? (s ++ t) = ((unmarked? s).map (· ++ t)).or ((unmarked? t).map (s ++ ·)) := by
  simp [unmarked?, cutQualified?_append h, Option.map_or, Function.comp_def]

/-- A text that never has a marker, put before another, is passed over. -/
theorem unmarked?_append_of_unmarked (hs : ∀ c ∈ s, isMarker c = false)
    (h : s.getLast? ≠ some ':' ∨ ∀ c ∈ t.head?, isMarker c = false) :
    unmarked? (s ++ t) = (unmarked? t).map (s ++ ·) := by
  have hnone := unmarked?_eq_none_iff.2 (not_qualified_of_unmarked hs)
  rw [unmarked?_append h, hnone]
  rfl

theorem mem_of_unmarked? (h : unmarked? s = some t) : ':' ∈ t ∧ t ⊆ s := by
  obtain ⟨⟨a, b⟩, hab, rfl⟩ := Option.map_eq_some_iff.1 h
  obtain ⟨p, m, -, rfl, rfl⟩ := exists_of_cutQualified? hab
  constructor
  · simp
  · intro c hc
    simp only [List.mem_append, List.mem_cons, List.not_mem_nil] at hc ⊢
    tauto

/-- What is not marked at its start loses its first marker behind a colon, and is hidden by it. -/
theorem marking_of_head (h : ∀ c ∈ s.head?, isMarker c = false) :
    Marking.ofText s =
      { text := (unmarked? s).getD s, hidden := decide (Qualified s), shared := false } := by
  have hqualified : (cutQualified? s).isSome = decide (Qualified s) := by
    rw [Bool.eq_iff_iff, isSome_cutQualified?_iff, decide_eq_true_iff]
  cases s with
  | nil => rfl
  | cons c r =>
    obtain ⟨hhash, hcaret⟩ := isMarker_eq_false_iff.1 (h c rfl)
    rw [← hqualified]
    cases hcut : cutQualified? (c :: r) with
    | none => simp [Marking.ofText, unmarked?, hcut, hhash, hcaret]
    | some x => simp [Marking.ofText, unmarked?, hcut, hhash, hcaret]

theorem qualified_trim : Qualified (trim s) ↔ Qualified s := by
  obtain ⟨u, v, he, hu, hv⟩ := exists_trim s
  have hunmarked {w : List Char} (hw : ∀ c ∈ w, isBlank c) : ∀ c ∈ w, isMarker c = false :=
    fun c hc => isMarker_of_isBlank (hw c hc)
  have hlast : u.getLast? ≠ some ':' := fun h =>
    not_mem_of_blank hu (by decide) (List.mem_of_getLast? h)
  have hhead : ∀ c ∈ v.head?, isMarker c = false :=
    fun c hc => hunmarked hv c (List.mem_of_head? hc)
  constructor
  · intro h
    rw [he, qualified_append (Or.inr hhead), qualified_append (Or.inl hlast)]
    exact Or.inl (Or.inr h)
  · intro h
    rw [he, qualified_append (Or.inr hhead), qualified_append (Or.inl hlast)] at h
    rcases h with (h | h) | h
    · exact absurd h (not_qualified_of_unmarked (hunmarked hu))
    · exact h
    · exact absurd h (not_qualified_of_unmarked (hunmarked hv))

end ConsoleSignature.Entry
