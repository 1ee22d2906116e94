import ConsoleSignature.Proofs.Command.HeaderText
import ConsoleSignature.Proofs.Command.Lines
import ConsoleSignature.Proofs.Command.Namespace
import ConsoleSignature.Proofs.Entry.Canonical.Name
import ConsoleSignature.Proofs.Entry.Extent
import ConsoleSignature.Render.Markdown

/-!
No line breaks in what a signature declares: its lines are joined by spaces before blocks are looked
for, so that none of the texts of an entry runs over more than one line.
-/
namespace ConsoleSignature

open Text

variable {c : Char} {b content part s : List Char} {e n : Entry} {v : DefaultValue} {x : String}

theorem not_mem_intercalate {sep : String} {xs : List String} (hsep : c ∉ sep.toList)
    (h : ∀ x ∈ xs, c ∉ x.toList) : c ∉ (sep.intercalate xs).toList := by
  rw [String.toList_intercalate]
  intro hm
  rcases mem_intercalate hm with hm | ⟨t, ht, hm⟩
  · exact hsep hm
  · obtain ⟨x, hx, rfl⟩ := List.mem_map.1 ht
    exact h x hx hm

namespace DefaultValue

theorem mem_positionalText {d : Decimal} (h : c ∈ plainNumber.positionalText d) :
    c.isDigit = true ∨ c = '.' := by
  have hdigits : c ∈ Nat.toDigits 10 d.digits → c.isDigit = true :=
    fun hc => Nat.isDigit_of_mem_toDigits (by decide) (by decide) hc
  have hzeros (n : Nat) (hc : c ∈ NumberStyle.zeros n) : c.isDigit = true := by
    rw [List.eq_of_mem_replicate hc]
    decide
  simp only [NumberStyle.positionalText] at h
  split at h
  · simp only [plainNumber, String.toList_empty, List.append_nil, List.mem_append] at h
    exact .inl (h.elim hdigits (hzeros _))
  split at h
  · simp only [List.mem_append, List.mem_cons] at h
    rcases h with h | h | h
    · exact .inl (hdigits (List.mem_of_mem_take h))
    · exact .inr h
    · exact .inl (hdigits (List.mem_of_mem_drop h))
  · simp only [List.mem_cons, List.mem_append] at h
    rcases h with h | h | h | h
    · exact .inl (by rw [h]; decide)
    · exact .inr h
    · exact .inl (hzeros _ h)
    · exact .inl (hdigits h)

theorem newline_not_mem_number (x : Binary64) : '\n' ∉ (x.text plainNumber).toList := by
  unfold Binary64.text
  split
  · intro h
    simp only [String.toList_ofList, List.mem_append, NumberStyle.magnitudeText,
      NumberStyle.isPositional, plainNumber, if_true] at h
    rcases h with h | h
    · split at h <;> simp at h
    · exact absurd (mem_positionalText h) (by decide)
  · split
    · decide
    · split <;> decide

theorem newline_not_mem_display_text (h : '\n' ∉ x.toList) (required : Bool) :
    '\n' ∉ (ofText x required).display.toList := by
  unfold ofText
  split_ifs
  · decide
  · decide
  · decide
  · decide
  · split
    · exact newline_not_mem_number _
    · exact h

theorem newline_not_mem_display_list (h : '\n' ∉ s) :
    '\n' ∉ (asList (text (String.ofList s))).display.toList := by
  simp only [asList, display, String.toList_ofList]
  refine not_mem_intercalate (by decide) fun x hx hm => ?_
  obtain ⟨p, hp, rfl⟩ := List.mem_map.1 hx
  exact h ((mem_pieces hp).2.2.2 (by simpa using hm))

end DefaultValue

namespace Entry

theorem mem_of_mem_lastAlternative (h : c ∈ lastAlternative s) : c ∈ s := by
  induction s using sep_induction '|' with
  | append l r _ ih =>
    rw [Canonical.lastAlternative_append] at h
    exact List.mem_append_right _ (List.mem_cons_of_mem _ (ih h))
  | single s hs =>
    rw [lastAlternative, List.splitOn_eq_singleton hs] at h
    have hdash := List.mem_reverse.1 ((List.dropWhile_sublist _).subset (List.mem_reverse.1 h))
    exact mem_of_mem_trim ((List.dropWhile_sublist isDash).subset hdash)

namespace Naming

theorem mem_of_mem_default {raw : List Char} (hr : (cutDefault part).2 = some raw) (h : c ∈ raw) :
    c ∈ part := by
  rcases eq_or_append_of_sep '=' part with hno | ⟨before, after, rfl, hbefore⟩
  · simp [cutDefault_of_not_mem hno] at hr
  · rw [cutDefault, cut_append hbefore] at hr
    obtain rfl := (Option.some.inj hr).symm
    exact List.mem_append_right _ (List.mem_cons_of_mem _ (mem_of_mem_trim h))

theorem mem_of_mem_placeholder {p : String} (hp : (ofPart part).placeholder = some p)
    (h : c ∈ p.toList) : c ∈ part ∨ c ∈ ['[', ']', '<', '>'] := by
  have hbracketed {t : List Char} (hc : c ∈ (bracketed (lastAlternative t)).toList) :
      c ∈ t ∨ c ∈ ['[', ']', '<', '>'] := by
    simp only [bracketed, String.toList_ofList, List.cons_append, List.mem_cons, List.mem_append,
      List.not_mem_nil, or_false] at hc
    rcases hc with rfl | hc | rfl
    · simp
    · exact .inl (mem_of_mem_lastAlternative hc)
    · simp
  have hangled {t : List Char} (hc : c ∈ (angled (lastAlternative t)).toList) :
      c ∈ t ∨ c ∈ ['[', ']', '<', '>'] := by
    simp only [angled, String.toList_ofList, List.cons_append, List.mem_cons, List.mem_append,
      List.not_mem_nil, or_false] at hc
    rcases hc with rfl | hc | rfl
    · simp
    · exact .inl (mem_of_mem_lastAlternative hc)
    · simp
  have hstem (hc : c ∈ (Modifier.cutEnd (cutDefault part).1).1) : c ∈ part := by
    apply mem_of_mem_cutDefault
    rw [← Modifier.cutEnd_append (cutDefault part).1]
    exact List.mem_append_left _ hc
  rw [placeholder_ofPart] at hp
  unfold placeholderOf at hp
  split at hp
  · obtain rfl := Option.some.inj hp
    exact (hbracketed h).imp_left hstem
  · obtain ⟨raw, -, rfl⟩ := Option.map_eq_some_iff.1 hp
    split at h
    · exact (hangled h).imp_left mem_of_mem_cutDefault
    · exact (hbracketed h).imp_left mem_of_mem_cutDefault

theorem newline_not_mem_default (h : '\n' ∉ part) (hv : (ofPart part).defaultValue = some v) :
    '\n' ∉ v.display.toList := by
  rw [defaultValue_ofPart, Option.map_eq_some_iff] at hv
  obtain ⟨raw, hraw, rfl⟩ := hv
  have hn : '\n' ∉ raw := fun hm => h (mem_of_mem_default hraw hm)
  unfold defaultOf
  split_ifs
  · exact DefaultValue.newline_not_mem_display_list (by simp)
  · exact DefaultValue.newline_not_mem_display_list hn
  · exact DefaultValue.newline_not_mem_display_text (by simpa using hn) false
  · simpa [DefaultValue.display] using hn

theorem mem_of_mem_flags {fs : List String} (h : (ofPart part).flags = some fs) (hx : x ∈ fs)
    (hc : c ∈ x.toList) : c = '-' ∨ (c ∈ part ∧ c ≠ '|') := by
  rw [flags_ofPart] at h
  split at h
  · obtain rfl := (Option.some.inj h).symm
    obtain ⟨g, hg, rfl⟩ := List.mem_map.1 hx
    obtain ⟨p, hp, rfl⟩ := List.mem_map.1 hg
    obtain ⟨-, -, hbar, hsub⟩ := mem_pieces hp
    rw [String.toList_ofList] at hc
    refine (mem_of_mem_flagOf hc).imp_right fun hm => ⟨mem_of_mem_stem (hsub hm), ?_⟩
    rintro rfl
    exact hbar hm
  · simp at h

end Naming

/-- None of the texts that an entry is shown by holds a line break. -/
structure OneLine (e : Entry) : Prop where
  name : '\n' ∉ e.name.toList
  flags : ∀ fs, e.flags = some fs → ∀ f ∈ fs, '\n' ∉ f.toList
  placeholder : ∀ p, e.placeholder = some p → '\n' ∉ p.toList
  defaultValue : ∀ v, e.defaultValue = some v → '\n' ∉ v.display.toList
  description : ∀ d, e.description = some d → '\n' ∉ d.toList
  choices : ∀ x ∈ e.choices, '\n' ∉ x.toList

theorem mem_of_mem_name (h : c ∈ (Parts.ofContent content).name) : c ∈ content := by
  have hmarked : c ∈ (Marking.ofText (trim content)).text := mem_of_mem_cut_fst (mem_of_mem_trim h)
  exact mem_of_mem_trim ((marking_sublist _).subset hmarked)

theorem mem_of_mem_description {d : List Char} (hd : (Parts.ofContent content).description = some d)
    (h : c ∈ d) : c ∈ content := by
  simp only [Parts.ofContent, Option.map_eq_some_iff] at hd
  obtain ⟨_, ⟨r, hr, rfl⟩, rfl⟩ := hd
  have hrest : c ∈ ':' :: r :=
    List.mem_cons_of_mem _ (mem_of_mem_trim (mem_of_mem_cut_fst (mem_of_mem_trim h)))
  exact mem_of_mem_trim ((marking_sublist _).subset ((sublist_of_cut_snd hr).subset hrest))

/-- Choices are made of the description's characters, and only of those that choices may have. -/
theorem mem_of_mem_choices {d : List Char} (hx : x ∈ (cutChoices d).2) (hc : c ∈ x.toList) :
    c ∈ d ∧ isChoiceChar c := by
  by_cases h : ∃ text list, ClosesWith d text list
  · obtain ⟨text, list, h⟩ := h
    rw [cutChoices_of_closesWith h] at hx
    obtain ⟨p, hp, rfl⟩ := List.mem_map.1 hx
    rw [String.toList_ofList] at hc
    have hlist : c ∈ list := (mem_pieces hp).2.2.2 hc
    obtain ⟨w, l, r, -, -, -, rfl⟩ := h.written
    exact ⟨by simp [hlist], isChoiceChar_iff.2 (h.chars c hlist)⟩
  · simp [cutChoices_of_not_closesWith h] at hx

theorem flags_entry (p : Parts) (ns : Option (List Entry)) :
    (p.entry ns).flags = (Naming.ofPart p.name).flags := rfl

theorem oneLine_ofBlock (h : '\n' ∉ content) : (ofBlock content).OneLine := by
  have hname : '\n' ∉ (Parts.ofContent content).name := fun hm => h (mem_of_mem_name hm)
  have hdescription {d : List Char} (hd : (Parts.ofContent content).description = some d) :
      '\n' ∉ d := fun hm => h (mem_of_mem_description hd hm)
  rw [ofBlock_eq]
  refine ⟨Naming.not_mem_name hname (by decide), ?_, ?_, ?_, ?_, ?_⟩
  · intro fs hfs f hf hm
    rw [flags_entry] at hfs
    rcases Naming.mem_of_mem_flags hfs hf hm with hm | ⟨hm, -⟩
    · exact absurd hm (by decide)
    · exact hname hm
  · intro p hp hm
    rcases Naming.mem_of_mem_placeholder hp hm with hm | hm
    · exact hname hm
    · exact absurd hm (by decide)
  · exact fun v hv => Naming.newline_not_mem_default hname hv
  · intro x hx hm
    obtain ⟨d, hd, -, rfl⟩ := description_entry hx
    exact hdescription hd (mem_of_mem_cutChoices (by simpa using hm))
  · intro x hx hm
    cases hd : (Parts.ofContent content).description with
    | none => simp [Parts.entry, hd] at hx
    | some d =>
      have hchoice : x ∈ (cutChoices d).2 := by simpa [Parts.entry, hd] using hx
      exact hdescription hd (mem_of_mem_choices hchoice hm).1

theorem OneLine.label (h : e.OneLine) : '\n' ∉ e.label.toList := by
  unfold Entry.label
  split
  · rename_i fs hfs
    exact not_mem_intercalate (by decide) (h.flags fs hfs)
  · exact h.name

/-- What is nested in a block on one line is on that line. -/
theorem mem_of_mem_nestedBlocks {bs : List (List Char)} (h : nestedBlocks? content = some bs)
    (hb : b ∈ bs) (hc : c ∈ b) : c ∈ content ∨ c = '{' ∨ c = '}' := by
  obtain ⟨text, htext, rfl⟩ := Option.map_eq_some_iff.1 h
  obtain ⟨inner, rfl, hsub⟩ := exists_inner_of_nested htext
  have hin := (Block.isInfix_of_mem_extract hb).subset hc
  simp only [List.cons_append, List.mem_cons, List.mem_append, List.not_mem_nil, or_false] at hin
  rcases hin with hin | hin | hin
  · exact .inr (.inl hin)
  · exact .inl (hsub.subset (by simp [hin]))
  · exact .inr (.inr hin)

theorem oneLine_nested (h : '\n' ∉ content) (hn : n ∈ (ofBlock content).nested.getD []) :
    n.OneLine := by
  rw [nested_ofBlock] at hn
  cases htext : (Parts.ofContent content).nested with
  | none => simp [htext] at hn
  | some text =>
    obtain ⟨b, hb, rfl⟩ : ∃ b ∈ Block.extract text, ofBlock b = n := by
      simpa [htext, ofBlocks] using hn
    have hbs : nestedBlocks? content = some (Block.extract text) := by simp [nestedBlocks?, htext]
    refine oneLine_ofBlock fun hm => ?_
    rcases mem_of_mem_nestedBlocks hbs hb hm with hm | hm | hm
    · exact h hm
    · exact absurd hm (by decide)
    · exact absurd hm (by decide)

end Entry

namespace Command

variable {signature : String} {handler : Handler}

/-- Every entry of a command was read from a block without line breaks. -/
theorem exists_block_of_mem (h : e ∈ (ofSignature signature handler).options ∨
    e ∈ (ofSignature signature handler).subCommands.getD []) :
    ∃ b, '\n' ∉ b ∧ e = Entry.ofBlock b := by
  unfold ofSignature at h
  split at h
  · simp [bare] at h
  · rename_i header body hlines
    have hmem : e ∈ Entry.ofBlocks ([' '].intercalate body) := by
      simp only [ofEntries] at h
      split_ifs at h
      · rcases h with h | h
        · exact List.mem_of_mem_filter h
        · rw [Option.getD_some] at h
          exact List.mem_of_mem_filter h
      · simpa using h
    obtain ⟨b, hb, rfl⟩ := List.mem_map.1 hmem
    refine ⟨b, fun hm => ?_, rfl⟩
    rcases mem_intercalate ((Block.isInfix_of_mem_extract hb).subset hm) with hm | ⟨l, hl, hm⟩
    · exact absurd hm (by decide)
    · have hline : l ∈ lines signature.toList := hlines ▸ List.mem_cons_of_mem header hl
      exact (mem_lines hline).2.2 hm

section Compiled

variable {c : Command} (hc : ∃ signature handler, c = ofSignature signature handler)
include hc

theorem oneLine_of_mem (h : e ∈ c.options ∨ e ∈ c.subCommands.getD []) : e.OneLine := by
  obtain ⟨signature, handler, rfl⟩ := hc
  obtain ⟨b, hb, rfl⟩ := exists_block_of_mem h
  exact Entry.oneLine_ofBlock hb

theorem newline_not_mem_base : '\n' ∉ c.base.toList := by
  obtain ⟨signature, handler, rfl⟩ := hc
  unfold ofSignature
  split
  · simp [bare]
  · rename_i header body _
    rw [ofEntries, String.toList_ofList]
    exact fun hm => absurd ((Header.readable_ofLine header).base _ hm) (by decide)

end Compiled

end Command

end ConsoleSignature
