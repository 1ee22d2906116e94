import ConsoleSignature.Proofs.Entry.Canonical
import ConsoleSignature.Proofs.Entry.Naming

/-! Reading a written name: its words, its modifier and its default come back. -/
namespace ConsoleSignature.Canonical

open Text Entry

variable {c : Char}

theorem ne_of_isPlain {d : Char} (h : IsPlain c) (hd : ¬ IsPlain d) : c ≠ d := by
  rintro rfl
  exact hd h

theorem isBlank_of_isPlain (h : IsPlain c) : isBlank c = false := by
  rcases h with h | rfl | rfl
  · exact isBlank_of_isAlphanum h
  all_goals decide

theorem Word.not_mem (w : Word) (h : ¬ IsPlain c) : c ∉ w.chars := fun hm => h (w.plain c hm)

theorem Word.trimmed (w : Word) : Trimmed w.chars :=
  trimmed_of_forall fun c hc => isBlank_of_isPlain (w.plain c hc)

theorem Word.isDash_head (w : Word) : ∀ c ∈ w.chars.head?, isDash c = false := by
  intro c hc
  simpa [isDash] using fun he : c = '-' => w.undashed (he ▸ hc)

theorem mem_marks {m : Modifier} (h : c ∈ m.marks) : c = '?' ∨ c = '*' := by
  cases m with
  | plain => simp [Modifier.marks] at h
  | optional => exact Or.inl (by simpa [Modifier.marks] using h)
  | repeated => exact Or.inr (by simpa [Modifier.marks] using h)
  | optionalRepeated => simpa [Modifier.marks] using h

theorem trimmed_marks (m : Modifier) : Trimmed m.marks := by
  apply trimmed_of_forall
  intro c hc
  rcases mem_marks hc with rfl | rfl <;> decide

theorem ne_mark_of_isPlain (h : IsPlain c) : c ≠ '?' ∧ c ≠ '*' :=
  ⟨ne_of_isPlain h (by decide), ne_of_isPlain h (by decide)⟩

theorem flagOf_word (w : Word) : String.ofList (flagOf w.chars) = w.flag := by
  obtain ⟨c, r, hr⟩ := List.exists_cons_of_ne_nil w.nonempty
  have hc : c ≠ '-' := fun he => w.undashed (by rw [hr, he]; rfl)
  simp only [Word.flag, hr]
  cases r with
  | nil => simp [flagOf, hc]
  | cons d r => simp [flagOf, hc]

theorem flagOf_dashes (w : Word) :
    String.ofList (flagOf (['-', '-'] ++ w.chars)) = w.flag := by
  simp [Word.flag, flagOf]

theorem lastAlternative_append (s t : List Char) :
    lastAlternative (s ++ '|' :: t) = lastAlternative t := by
  have hne := List.splitOn_ne_nil '|' t
  simp only [lastAlternative, List.splitOn_append_cons_self, List.getLast?_append_of_ne_nil _ hne]

theorem lastAlternative_word {d : List Char} (hd : ∀ c ∈ d, c = '-') (w : Word) (m : Modifier) :
    lastAlternative (d ++ (w.chars ++ m.marks)) = w.chars := by
  have hbar : '|' ∉ d ++ (w.chars ++ m.marks) := by
    simp only [List.mem_append, not_or]
    exact ⟨fun h => absurd (hd _ h) (by decide), w.not_mem (by decide),
      fun h => absurd (mem_marks h) (by decide)⟩
  have htrim : trim (d ++ (w.chars ++ m.marks)) = d ++ (w.chars ++ m.marks) := by
    refine trim_eq_self (trimmed_append ?_ (trimmed_append w.trimmed (trimmed_marks m)))
    exact trimmed_of_forall fun c hc => by rw [hd c hc]; decide
  have hdash : (d ++ (w.chars ++ m.marks)).dropWhile isDash = w.chars ++ m.marks := by
    rw [List.dropWhile_append_of_pos fun c hc => by simp [isDash, hd c hc]]
    refine dropWhile_eq_self (forall_head_append w.isDash_head ?_)
    intro c hc
    rcases mem_marks (List.mem_of_head? hc) with rfl | rfl <;> decide
  rw [lastAlternative, List.splitOn_eq_singleton hbar]
  simp only [List.getLast?_singleton, Option.getD_some, htrim, hdash]
  rw [dropEndWhile_append (fun c hc => by simpa using mem_marks hc), dropEndWhile_eq_self]
  intro c hc
  simpa using ne_mark_of_isPlain (w.plain c (List.mem_of_getLast? hc))

namespace Name

/-- A name ends in its last word, before which there are dashes, a bar or nothing. -/
theorem exists_text_eq (n : Name) :
    ∃ p, n.text = p ++ n.last.chars ∧ (p = n.dashes ∨ ∃ q, p = q ++ ['|']) := by
  have hwords (w : Word) (ws : List Word) :
      ∃ p, ['|'].intercalate ((w :: ws).map Word.chars) = p ++ (ws.getLast?.getD w).chars ∧
        (p = [] ∨ ∃ q, p = q ++ ['|']) := by
    induction ws generalizing w with
    | nil => exact ⟨[], by simp, Or.inl rfl⟩
    | cons u us ih =>
      obtain ⟨p, hp, hq⟩ := ih u
      refine ⟨w.chars ++ '|' :: p, ?_, Or.inr ?_⟩
      · rw [List.map_cons, List.map_cons, List.intercalate_cons_cons, ← List.map_cons, hp,
          List.getLast?_cons, Option.getD_some]
        simp
      · rcases hq with rfl | ⟨q, rfl⟩
        · exact ⟨w.chars, rfl⟩
        · exact ⟨w.chars ++ '|' :: q, by simp⟩
  cases n with
  | argument w => exact ⟨[], by simp [text, words, dashes, last], Or.inl rfl⟩
  | flags w ws =>
    obtain ⟨p, hp, hq⟩ := hwords w ws
    refine ⟨['-', '-'] ++ p, ?_, ?_⟩
    · rw [text, words, hp, List.append_assoc]
      rfl
    · rcases hq with rfl | ⟨q, rfl⟩
      · exact Or.inl rfl
      · exact Or.inr ⟨['-', '-'] ++ q, by simp⟩

theorem mem_text {n : Name} (h : c ∈ n.text) : IsPlain c ∨ c = '|' := by
  rcases List.mem_append.1 h with h | h
  · cases n with
    | argument w => simp [dashes] at h
    | flags w ws => exact Or.inl (Or.inr (Or.inr (by simpa [dashes] using h)))
  · rcases mem_intercalate h with h | ⟨t, ht, hc⟩
    · exact Or.inr (by simpa using h)
    · obtain ⟨w, -, rfl⟩ := List.mem_map.1 ht
      exact Or.inl (w.plain c hc)

theorem not_mem_text (n : Name) (h : ¬ IsPlain c) (hbar : c ≠ '|') : c ∉ n.text :=
  fun hm => (mem_text hm).elim h hbar

theorem getLast_text {n : Name} (h : c ∈ n.text.getLast?) : IsPlain c := by
  obtain ⟨p, hp, -⟩ := n.exists_text_eq
  rw [hp, Option.mem_def, List.getLast?_append_of_ne_nil _ n.last.nonempty] at h
  exact n.last.plain c (List.mem_of_getLast? h)

theorem head_text {n : Name} (h : c ∈ n.text.head?) : IsPlain c := by
  cases n with
  | argument w => exact w.plain c (List.mem_of_head? (by simpa [text, words, dashes] using h))
  | flags w ws => exact Or.inr (Or.inr (by simpa [text, dashes, eq_comm] using h))

theorem text_ne_nil (n : Name) : n.text ≠ [] := by
  obtain ⟨p, hp, -⟩ := n.exists_text_eq
  rw [hp]
  exact List.append_ne_nil_of_right_ne_nil p n.last.nonempty

theorem trimmed_text (n : Name) : Trimmed n.text :=
  ⟨fun _ hc => isBlank_of_isPlain (head_text hc), fun _ hc => isBlank_of_isPlain (getLast_text hc)⟩

theorem lastAlternative_text (n : Name) (m : Modifier) :
    lastAlternative (n.text ++ m.marks) = n.last.chars := by
  have hdashes : ∀ c ∈ n.dashes, c = '-' := by cases n <;> simp [dashes]
  obtain ⟨p, hp, rfl | ⟨q, rfl⟩⟩ := n.exists_text_eq
  · rw [hp, List.append_assoc, lastAlternative_word hdashes]
  · have := lastAlternative_word (d := []) (by simp) n.last m
    rw [hp, List.append_assoc, List.append_assoc, List.singleton_append, lastAlternative_append]
    exact this

theorem pieces_words {d : List Char} (hd : ∀ c ∈ d, c = '-') (w : Word) (ws : List Word) :
    pieces '|' (d ++ ['|'].intercalate ((w :: ws).map Word.chars)) =
      (d ++ w.chars) :: ws.map Word.chars := by
  have hbar {d : List Char} (hd : ∀ c ∈ d, c = '-') (w : Word) : '|' ∉ d ++ w.chars := by
    simp only [List.mem_append, not_or]
    exact ⟨fun h => absurd (hd _ h) (by decide), w.not_mem (by decide)⟩
  have hpieces {d : List Char} (hd : ∀ c ∈ d, c = '-') (w : Word) :
      pieces '|' (d ++ w.chars) = [d ++ w.chars] := by
    have htrim : trim (d ++ w.chars) = d ++ w.chars := by
      refine trim_eq_self (trimmed_append ?_ w.trimmed)
      exact trimmed_of_forall fun c hc => by rw [hd c hc]; decide
    rw [pieces_of_not_mem (hbar hd w), htrim, if_neg]
    exact List.append_ne_nil_of_right_ne_nil d w.nonempty
  induction ws generalizing d w with
  | nil => simpa using hpieces hd w
  | cons u us ih =>
    have hu := ih (d := []) (by simp) u
    rw [List.map_cons, List.map_cons, List.intercalate_cons_cons, ← List.map_cons,
      List.append_assoc, ← List.append_assoc, List.singleton_append, pieces_append, hpieces hd w]
    simpa using hu

theorem isFlagName_text (n : Name) : Naming.isFlagName n.text = n.isFlags := by
  cases n with
  | argument w =>
    obtain ⟨c, r, hr⟩ := List.exists_cons_of_ne_nil w.nonempty
    have hc : c ≠ '-' := fun he => w.undashed (by rw [hr, he]; rfl)
    simp [Naming.isFlagName, text, dashes, words, isFlags, hr, List.isPrefixOf, hc.symm]
  | flags w ws => simp [Naming.isFlagName, text, dashes, isFlags]

theorem flagsOf_text (w : Word) (ws : List Word) :
    (Naming.flagsOf (flags w ws).text).map String.ofList = (w :: ws).map Word.flag := by
  have hp := pieces_words (d := ['-', '-']) (by simp) w ws
  rw [Naming.flagsOf, text, dashes, words, hp]
  simp only [List.map_cons, List.map_map, flagOf_dashes]
  congr 1
  exact List.map_congr_left fun u _ => flagOf_word u

theorem getLast_words (n : Name) : n.words.getLast? = some n.last := by
  cases n with
  | argument w => rfl
  | flags w ws => rw [words, List.getLast?_cons, last]

end Name

theorem Word.dropWhile_flag (w : Word) : w.flag.toList.dropWhile isDash = w.chars := by
  have h := dropWhile_eq_self w.isDash_head
  rw [Word.flag, String.toList_ofList]
  split <;> simpa [isDash] using h

namespace Leaf

variable {l : Leaf}

theorem not_mem_part (hc : c = ':' ∨ c = '{' ∨ c = '}') (l : Leaf) : c ∉ l.part := by
  have hplain : ¬ IsPlain c ∧ c ≠ '|' := by rcases hc with rfl | rfl | rfl <;> decide
  have hmark : ¬(c = '?' ∨ c = '*') := by rcases hc with rfl | rfl | rfl <;> decide
  simp only [part, List.mem_append, not_or]
  refine ⟨⟨l.name.not_mem_text hplain.1 hplain.2, fun h => hmark (mem_marks h)⟩, ?_⟩
  cases l.value with
  | none => simp
  | some v =>
    intro h
    rcases List.mem_cons.1 h with rfl | h
    · simp at hc
    · have := v.plain c h
      tauto

theorem cutDefault_part (l : Leaf) : Naming.cutDefault l.part =
    (l.name.text ++ l.modifier.marks, l.value.map Value.chars) := by
  have hmem : '=' ∉ l.name.text ++ l.modifier.marks := by
    simp only [List.mem_append, not_or]
    exact ⟨l.name.not_mem_text (by decide) (by decide), fun h => absurd (mem_marks h) (by decide)⟩
  cases hv : l.value with
  | none => simpa [part, hv] using Naming.cutDefault_of_not_mem hmem
  | some v =>
    have htrim := trim_eq_self (trimmed_append l.name.trimmed_text (trimmed_marks l.modifier))
    have hpart : l.part = (l.name.text ++ l.modifier.marks) ++ '=' :: v.chars := by
      simp [part, hv]
    rw [hpart, Naming.cutDefault, cut_append hmem]
    simp only [htrim, trim_eq_self v.trimmed, Option.map_some]

theorem cutEnd_part (l : Leaf) :
    Modifier.cutEnd (Naming.cutDefault l.part).1 = (l.name.text, l.modifier) := by
  rw [cutDefault_part]
  exact Modifier.cutEnd_marks (fun c hc => ne_mark_of_isPlain (Name.getLast_text hc)) l.modifier

theorem stem_part (l : Leaf) : Naming.stem l.part = l.name.text := by
  rw [Naming.stem, cutEnd_part, trim_eq_self l.name.trimmed_text]

theorem modifier_part (l : Leaf) : Naming.modifier l.part = l.modifier := by
  rw [Naming.modifier, cutEnd_part]

theorem isPlainName_part (l : Leaf) :
    isPlainName l.part = (l.modifier == .plain && l.value.isNone) := by
  cases hv : l.value with
  | some v =>
    have hmem : '=' ∈ l.part := by simp [part, hv]
    have : isPlainName l.part = false := by
      by_contra h
      exact not_mem_of_isPlainName (by simpa using h) (by decide) hmem
    simpa using this
  | none =>
    have hpart : l.part = l.name.text ++ l.modifier.marks := by simp [part, hv]
    have hmark (c : Char) (hc : c ∈ l.modifier.marks) : isPlainName l.part = false := by
      have hmem : c ∈ l.part := hpart ▸ List.mem_append_right _ hc
      have hplain : isPlainNameChar c = false := by rcases mem_marks hc with rfl | rfl <;> decide
      by_contra h
      exact not_mem_of_isPlainName (by simpa using h) hplain hmem
    cases hm : l.modifier with
    | plain =>
      have hall : ∀ c ∈ l.part, isPlainNameChar c := by
        intro c hc
        rw [hpart, hm, Modifier.marks, List.append_nil] at hc
        rcases Name.mem_text hc with (h | rfl | rfl) | rfl
        · simp [isPlainNameChar, h]
        all_goals decide
      have hne : l.part ≠ [] := by simpa [hpart, hm, Modifier.marks] using l.name.text_ne_nil
      simpa [isPlainName, hne] using hall
    | optional =>
      rw [hmark '?' (by simp [hm, Modifier.marks])]
      rfl
    | repeated | optionalRepeated =>
      rw [hmark '*' (by simp [hm, Modifier.marks])]
      rfl

theorem flags_part (l : Leaf) (ns : Option (List Entry)) :
    (Naming.ofPart l.part).flags = (l.entry ns).flags := by
  rw [Naming.flags_ofPart, stem_part, Name.isFlagName_text, entry]
  cases l.name with
  | argument w => rfl
  | flags w ws => simpa [Name.isFlags, Name.words] using Name.flagsOf_text w ws

theorem name_part (l : Leaf) (ns : Option (List Entry)) :
    (Naming.ofPart l.part).name = (l.entry ns).name := by
  cases hf : l.name.isFlags with
  | false =>
    cases hn : l.name with
    | argument w =>
      rw [Naming.name_ofPart, stem_part, Name.isFlagName_text, hf, entry, hn]
      simp [Name.text, Name.dashes, Name.words, Name.last]
    | flags w ws => simp [hn, Name.isFlags] at hf
  | true =>
    have hflags := l.flags_part ns
    simp only [entry, hf, if_true] at hflags
    have hlast := (Naming.flags_wellFormed hflags).2.2 l.name.last.flag
      (by simp [l.name.getLast_words])
    rw [hlast, Word.dropWhile_flag]
    rfl

theorem required_part (l : Leaf) (ns : Option (List Entry)) :
    (Naming.ofPart l.part).required = (l.entry ns).required := by
  rw [Naming.required_ofPart, isPlainName_part, stem_part, Name.isFlagName_text, entry,
    Bool.and_comm, Bool.and_assoc]

theorem placeholder_part (l : Leaf) : (Naming.ofPart l.part).placeholder = l.placeholder := by
  have hstem := l.name.lastAlternative_text .plain
  rw [Modifier.marks, List.append_nil] at hstem
  rw [Naming.placeholder_ofPart, cutEnd_part, cutDefault_part, modifier_part, placeholder]
  cases l.modifier with
  | optional => simp [Naming.placeholderOf, Naming.bracketed, hstem]
  | plain | repeated | optionalRepeated =>
    cases l.value with
    | none => rfl
    | some v =>
      simp only [Naming.placeholderOf, Option.map_some, l.name.lastAlternative_text,
        Naming.angled, Naming.bracketed, List.isEmpty_iff]
      split <;> rfl

theorem defaultValue_eq (l : Leaf) : l.defaultValue = l.value.map fun v =>
    Naming.defaultOf l.name.isFlags l.modifier.isRepeated v.chars := by
  rw [defaultValue]
  refine congrFun (congrArg Option.map (funext fun v => ?_)) l.value
  simp only [Naming.defaultOf]
  split
  · rw [DefaultValue.asList, String.toList_ofList]
    split <;> rfl
  · rfl

theorem defaultValue_part (l : Leaf) : (Naming.ofPart l.part).defaultValue = l.defaultValue := by
  rw [Naming.defaultValue_ofPart, cutDefault_part, stem_part, modifier_part,
    Name.isFlagName_text, Option.map_map, defaultValue_eq]
  rfl

end Leaf

end ConsoleSignature.Canonical
