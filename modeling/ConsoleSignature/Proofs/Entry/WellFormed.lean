import ConsoleSignature.Command.OfSignature
import ConsoleSignature.Proofs.Entry.Choices
import ConsoleSignature.Proofs.Entry.Naming
import ConsoleSignature.Proofs.Entry.Within

/-!
The invariant of entries: how their fields fit together. Whatever a block holds, its entry and all
entries inside have it.
-/
namespace ConsoleSignature

open Text

namespace Entry

structure WellFormed (e : Entry) : Prop where
  bare : e.required → e.isFlag = false ∧ e.multiple = false ∧ e.defaultValue = none ∧
    e.placeholder = none
  isFlag_iff : e.isFlag ↔ e.flags.isSome
  flags : ∀ fs ∈ e.flags, fs ≠ [] ∧ (∀ f ∈ fs, IsFlag f.toList) ∧
    ∀ f ∈ fs.getLast?, e.name = String.ofList (f.toList.dropWhile isDash)
  placeholder : e.defaultValue.isSome → e.placeholder.isSome
  list : e.multiple → ∀ v ∈ e.defaultValue, ∃ xs, v = .list xs
  finite : ∀ x, e.defaultValue = some (.number x) → x.isFinite
  marked : ¬(e.hidden ∧ e.shared)
  description : ∀ d ∈ e.description, d ≠ "" ∧ Trimmed d.toList ∧ '|' ∉ d.toList
  choices : ∀ x ∈ e.choices, x ≠ "" ∧ Trimmed x.toList ∧ ',' ∉ x.toList
  described : e.choices ≠ [] → ∃ d, e.description = some d ∧ ':' ∉ d.toList
  name : ':' ∉ e.name.toList

variable {content d : List Char} {e : Entry} {v : DefaultValue}

theorem marking_exclusive (s : List Char) :
    ¬((Marking.ofText s).hidden ∧ (Marking.ofText s).shared) := by
  simp only [Marking.ofText, Bool.and_eq_true, Bool.not_eq_true']
  rintro ⟨⟨h, -⟩, hs⟩
  simp [h] at hs

theorem colon_not_mem_name (content : List Char) : ':' ∉ (Parts.ofContent content).name :=
  fun h => not_mem_cut_fst ':' _ (mem_of_mem_trim h)

theorem description_ofContent (h : (Parts.ofContent content).description = some d) :
    Trimmed d ∧ '|' ∉ d := by
  simp only [Parts.ofContent, Option.map_eq_some_iff] at h
  obtain ⟨_, ⟨r, -, rfl⟩, rfl⟩ := h
  exact ⟨trimmed_trim _, fun hm => not_mem_cut_fst '|' _ (mem_of_mem_trim hm)⟩

theorem description_entry {p : Parts} {ns : Option (List Entry)} {x : String}
    (h : (p.entry ns).description = some x) :
    ∃ d, p.description = some d ∧ (cutChoices d).1 ≠ [] ∧ x = String.ofList (cutChoices d).1 := by
  simp only [Parts.entry, Option.bind_eq_some_iff, Option.map_eq_some_iff] at h
  obtain ⟨_, ⟨d, hd, rfl⟩, hx⟩ := h
  split at hx
  · simp at hx
  · rename_i hne
    exact ⟨d, hd, by simpa using hne, (Option.some.inj hx).symm⟩

/-- The nested entries do not matter to it. -/
theorem wellFormed_entry {p : Parts} (hmarked : ¬(p.hidden ∧ p.shared)) (hname : ':' ∉ p.name)
    (hdescription : ∀ d ∈ p.description, Trimmed d ∧ '|' ∉ d) (ns : Option (List Entry)) :
    (p.entry ns).WellFormed where
  bare h := by
    obtain ⟨hf, hm, hv, hp⟩ := Naming.bare_of_required h
    exact ⟨by simp [Parts.entry, hf], hm, hv, hp⟩
  isFlag_iff := Iff.rfl
  flags fs h := Naming.flags_wellFormed h
  placeholder := Naming.placeholder_of_default
  list hm v hv := Naming.list_of_multiple hm hv
  finite x h := Naming.isFinite_of_default h
  marked := hmarked
  description x h := by
    obtain ⟨d, hd, hne, rfl⟩ := description_entry h
    refine ⟨by simpa using hne, by simpa using trimmed_cutChoices d, ?_⟩
    rw [String.toList_ofList]
    exact fun hm => (hdescription d hd).2 (mem_of_mem_cutChoices hm)
  choices x hx := by
    cases hd : p.description with
    | none => simp [Parts.entry, hd] at hx
    | some d => exact mem_choices (d := d) (by simpa [Parts.entry, hd] using hx)
  described hx := by
    cases hd : p.description with
    | none => simp [Parts.entry, hd] at hx
    | some d =>
      obtain ⟨hne, hc⟩ := described_of_choices (hdescription d hd).1
        (by simpa [Parts.entry, hd] using hx)
      exact ⟨String.ofList (cutChoices d).1, by simp [Parts.entry, hd, hne], by simpa using hc⟩
  name := Naming.not_mem_name hname (by decide)

theorem wellFormed_of_within (h : Within e (ofBlock content)) : e.WellFormed := by
  obtain ⟨b, rfl⟩ := eq_ofBlock_of_within h
  rw [ofBlock_eq]
  exact wellFormed_entry (marking_exclusive _) (colon_not_mem_name b)
    (fun d hd => description_ofContent hd) _

theorem same_self_of_finite (h : ∀ x, v = .number x → x.isFinite) : v.same v := by
  cases v with
  | number x =>
    have hx := h x rfl
    simp only [Binary64.isFinite, decide_eq_true_eq] at hx
    simp [DefaultValue.same, Binary64.same, Binary64.isNaN, Nat.le_of_lt hx]
  | bool | text | list => simp [DefaultValue.same]

theorem sameAll_self {es : List Entry} (h : ∀ e ∈ es, e.same e) : sameAll es es := by
  induction es with
  | nil => simp [sameAll]
  | cons e es ih =>
    simp only [sameAll, Bool.and_eq_true]
    exact ⟨h e (by simp), ih fun x hx => h x (List.mem_cons_of_mem e hx)⟩

theorem sameNested_self {k : Option (List Entry)} (h : ∀ es ∈ k, ∀ e ∈ es, e.same e) :
    sameNested k k := by
  cases k with
  | none => simp [sameNested]
  | some es => simpa [sameNested] using sameAll_self (h es rfl)

theorem same_self (hv : ∀ x, e.defaultValue = some (.number x) → x.isFinite)
    (hn : ∀ ns ∈ e.nested, ∀ n ∈ ns, n.same n) : e.same e := by
  have hdefault : sameDefault e.defaultValue e.defaultValue := by
    cases h : e.defaultValue with
    | none => rfl
    | some v => exact same_self_of_finite fun x hx => hv x (by rw [h, hx])
  have hnested : sameNested e.nested e.nested := sameNested_self hn
  cases e
  simp_all [same]

/-- No number in a compiled entry is a NaN, so that the entry equals itself. -/
theorem same_self_ofBlock (content : List Char) : (ofBlock content).same (ofBlock content) := by
  induction hn : content.length using Nat.strong_induction_on generalizing content with
  | _ n ih =>
    refine same_self (wellFormed_of_within .self).finite ?_
    intro ns hns e he
    obtain ⟨b, hb, rfl⟩ := exists_of_mem_nested hns he
    exact ih b.length (by omega) b rfl

end Entry

namespace Command

theorem same_self {c : Command} (ho : ∀ e ∈ c.options, e.same e)
    (hs : ∀ es ∈ c.subCommands, ∀ e ∈ es, e.same e) : c.same c := by
  have hoptions : Entry.sameAll c.options c.options := Entry.sameAll_self ho
  have hsubs : Entry.sameNested c.subCommands c.subCommands := Entry.sameNested_self hs
  simp [same, hoptions, hsubs]

theorem same_self_ofSignature (signature : String) (handler : Handler) :
    (ofSignature signature handler).same (ofSignature signature handler) := by
  unfold ofSignature
  split
  · exact same_self (by simp [bare]) (by simp [bare])
  · rename_i header body _
    have hentries : ∀ e ∈ Entry.ofBlocks ([' '].intercalate body), e.same e := by
      intro e he
      obtain ⟨b, -, rfl⟩ := List.mem_map.1 he
      exact Entry.same_self_ofBlock b
    refine same_self ?_ ?_
    · intro e he
      simp only [ofEntries] at he
      split at he
      · exact hentries e (List.mem_filter.1 he).1
      · exact hentries e he
    · intro es hes e he
      simp only [ofEntries] at hes
      split at hes
      · obtain rfl := Option.some.inj hes
        exact hentries e (List.mem_filter.1 he).1
      · simp at hes

end Command

/-- However malformed, a block gives a well-formed entry, with well-formed entries inside it at
every depth; and equality is reflexive on the commands that are made of them. -/
theorem compiled_wellFormed :
    (∀ content e, Entry.Within e (Entry.ofBlock content) → e.WellFormed) ∧
      ∀ signature handler,
        (Command.ofSignature signature handler).same (Command.ofSignature signature handler) :=
  ⟨fun _ _ h => Entry.wellFormed_of_within h, Command.same_self_ofSignature⟩

end ConsoleSignature
