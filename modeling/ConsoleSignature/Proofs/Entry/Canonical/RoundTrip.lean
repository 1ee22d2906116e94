import ConsoleSignature.Proofs.Block.Braced
import ConsoleSignature.Proofs.Entry.Canonical.Marker

/-! What was written is read back, nested entries included. -/
namespace ConsoleSignature.Canonical

open Text Entry

variable {l : Leaf} {bar n : List Char} {ns : List (Blanks × Leaf)}

namespace Leaf

theorem trimmed_part (l : Leaf) : Trimmed l.part := by
  refine trimmed_append (trimmed_append l.name.trimmed_text (trimmed_marks l.modifier)) ?_
  cases l.value with
  | none => exact ⟨by simp, by simp⟩
  | some v =>
    have hequals : Trimmed ['='] := trimmed_of_forall (by simp [isBlank])
    simpa using trimmed_append hequals v.trimmed

theorem getLast_tail (l : Leaf) (hb : ∀ c ∈ bar.getLast?, isBlank c = false) :
    ∀ c ∈ (l.tail bar).getLast?, isBlank c = false := by
  unfold tail
  split
  · simp
  · rename_i hne
    have hrest := descriptionText_append_ne_nil hne
    rw [List.append_assoc, List.append_cons, ← List.append_assoc,
      List.getLast?_append_of_ne_nil _ hrest]
    exact forall_getLast_append l.trimmed_descriptionText.2 hb

theorem head_textWith (l : Leaf) (bar : List Char) :
    ∀ c ∈ (l.textWith bar).head?, c = '#' ∨ c = '^' ∨ IsPlain c := by
  rw [textWith]
  cases l.marker with
  | none => exact fun c hc => Or.inr (Or.inr (l.head_part (l.tail bar) c hc))
  | some m =>
    intro c hc
    obtain rfl : m.char = c := by simpa using hc
    cases m with
    | hidden => exact Or.inl rfl
    | shared => exact Or.inr (Or.inl rfl)

theorem trimmed_textWith (l : Leaf) (hb : ∀ c ∈ bar.getLast?, isBlank c = false) :
    Trimmed (l.textWith bar) := by
  constructor
  · intro c hc
    rcases l.head_textWith bar c hc with rfl | rfl | h
    · decide
    · decide
    · exact isBlank_of_isPlain h
  · refine forall_getLast_append ?_
      (forall_getLast_append l.trimmed_part.2 (l.getLast_tail hb))
    cases l.marker with
    | none => simp
    | some m => cases m <;> simp [Marker.char, isBlank]

theorem trimmed_text (l : Leaf) : Trimmed l.text := l.trimmed_textWith (by simp)

theorem marking_textWith (l : Leaf) (hb : ∀ c ∈ bar.getLast?, isBlank c = false)
    (hm : ∀ c ∈ bar.head?, isMarker c = false) (h : Unqualified bar) :
    Marking.ofText (trim (l.textWith bar)) =
      { text := l.part ++ l.tail bar
        hidden := l.marker matches some .hidden
        shared := l.marker matches some .shared } := by
  have hhead := l.head_part (l.tail bar)
  rw [trim_eq_self (l.trimmed_textWith hb), textWith]
  refine marking_text l.marker (fun c hc => isBlank_of_isPlain (hhead c hc))
    (fun c hc => isMarker_of_isPlain (hhead c hc)) ?_
  exact (unqualified_of_not_mem (l.not_mem_part (Or.inl rfl))).append (l.unqualified_tail hm h)

theorem cut_part (h : ¬(l.description.isNone ∧ bar = [])) :
    cut ':' (l.part ++ l.tail bar) =
      (l.part ++ l.before.chars, some (l.after.chars ++ l.descriptionText ++ bar)) := by
  have hcolon : ':' ∉ l.part ++ l.before.chars := by
    simp only [List.mem_append, not_or]
    exact ⟨l.not_mem_part (Or.inl rfl), l.before.not_mem (by decide)⟩
  rw [tail, if_neg h, ← List.append_assoc, cut_append hcolon]

theorem trim_part (l : Leaf) : trim (l.part ++ l.before.chars) = l.part :=
  trim_append_blank l.before.blank l.trimmed_part

/-- The parts of a block whose text this leaf starts. -/
def parts (l : Leaf) (description nested : Option (List Char)) : Parts where
  hidden := l.marker matches some .hidden
  shared := l.marker matches some .shared
  name := l.part
  description
  nested

theorem ofContent_text (l : Leaf) :
    Parts.ofContent l.text = l.parts (l.description.map Description.text) none := by
  have hmarking := @marking_textWith [] l (by simp) (by simp) unqualified_nil
  simp only [Parts.ofContent, text, hmarking, parts]
  cases hd : l.description with
  | none =>
    have htail : l.tail [] = [] := by simp [tail, hd]
    simp [htail, cut_eq_self (l.not_mem_part (Or.inl rfl)), trim_eq_self l.trimmed_part]
  | some d =>
    have hdesc : l.descriptionText = d.text := by simp [descriptionText, hd]
    have htrim := trim_blank_append l.after.blank d.trimmed_text
    rw [cut_part (by simp [hd])]
    simp [hdesc, trim_part, htrim, cut_eq_self (d.not_mem_text (Or.inl rfl)),
      trim_eq_self d.trimmed_text]

theorem ofContent_nested (l : Leaf) (w : Blanks) (hn : ∀ c ∈ n.getLast?, isBlank c = false)
    (h : Unqualified n) : Parts.ofContent (l.textWith (w.chars ++ '|' :: n)) =
      l.parts (some l.descriptionText) (some (rewrapped n)) := by
  have hlast : ∀ c ∈ (w.chars ++ '|' :: n).getLast?, isBlank c = false := by
    rw [List.append_cons, ← List.concat_eq_append]
    refine forall_getLast_append ?_ hn
    simp [isBlank]
  have hhead : ∀ c ∈ (w.chars ++ '|' :: n).head?, isMarker c = false :=
    forall_head_append w.head (by simp [isMarker])
  have hq : Unqualified (w.chars ++ '|' :: n) :=
    w.unqualified.append (unqualified_cons (by decide) h)
  have hbar : '|' ∉ l.after.chars ++ l.descriptionText ++ w.chars := by
    simp only [List.mem_append, not_or]
    exact ⟨⟨l.after.not_mem (by decide), l.not_mem_descriptionText (Or.inl rfl)⟩,
      w.not_mem (by decide)⟩
  -- Without a description only blanks stand before the bar; trimming takes them all.
  have htrim := trim_pad l.after.blank w.blank l.trimmed_descriptionText
  simp only [Parts.ofContent, l.marking_textWith hlast hhead hq, parts]
  rw [cut_part (by simp), ← List.append_assoc]
  simp only [trim_part, Option.map_some, Option.bind_some, cut_trim (by decide) hbar hn,
    trim_trimStart, htrim]

/-- Without a description, an empty one may have been read. -/
theorem entry_parts {d : Option (List Char)}
    (hd : d = l.description.map Description.text ∨ d = some l.descriptionText)
    (n : Option (List Char)) (ns : Option (List Entry)) : (l.parts d n).entry ns = l.entry ns := by
  have hflag : (Naming.ofPart l.part).flags.isSome = l.name.isFlags := by
    rw [l.flags_part ns, entry]
    cases l.name.isFlags <;> rfl
  have hmultiple : (Naming.ofPart l.part).multiple = l.modifier.isRepeated := by
    rw [Naming.multiple_ofPart, modifier_part]
  have hdescribed : ((d.map cutChoices).bind fun x =>
        if x.1.isEmpty then none else some (String.ofList x.1)) = (l.entry ns).description ∧
      ((d.map cutChoices).map Prod.snd).getD [] = (l.entry ns).choices := by
    cases hl : l.description with
    | none =>
      obtain rfl | rfl : d = none ∨ d = some [] := by simpa [hl, descriptionText] using hd
      · simp [entry, hl]
      · simp [entry, hl, cutChoices_of_not_mem, trim, trimStart, trimEnd]
    | some x =>
      obtain rfl : d = some x.text := by simpa [hl, descriptionText] using hd
      simp [entry, hl, x.cutChoices_text, x.nonempty]
  rw [Parts.entry, entry, Entry.mk.injEq]
  exact ⟨l.name_part ns, l.flags_part ns, hflag, l.required_part ns, hmultiple, l.placeholder_part,
    hdescribed.1, l.defaultValue_part, hdescribed.2, rfl, rfl, rfl⟩

/-- A leaf has no braces, whatever those behind it. -/
theorem balances_textWith {k : Nat} (hk : k ≤ 1) (l : Leaf) (bar s : List Char) :
    Block.Balances k (l.textWith bar ++ s) ↔ Block.Balances k (bar ++ s) := by
  have skip {a : List Char} (h : ∀ c, c = '{' ∨ c = '}' → c ∉ a) (b : List Char) :
      Block.Balances k (a ++ b) ↔ Block.Balances k b :=
    Block.balances_append (h '{' (Or.inl rfl)) (h '}' (Or.inr rfl)) hk b
  have hblanks (w : Blanks) (c : Char) (hc : c = '{' ∨ c = '}') : c ∉ w.chars := by
    rcases hc with rfl | rfl <;> exact w.not_mem (by decide)
  have hmarker (c : Char) (hc : c = '{' ∨ c = '}') : c ∉ (l.marker.map Marker.char).toList := by
    cases l.marker with
    | none => simp
    | some m => rcases hc with rfl | rfl <;> cases m <;> decide
  rw [textWith, List.append_assoc, skip hmarker, List.append_assoc,
    skip fun c hc => l.not_mem_part (Or.inr hc), tail]
  split
  · rename_i h
    rw [h.2]
  · have hcolon : [':'].count '{' + k = [':'].count '}' + k := by simp
    rw [List.append_assoc, skip (hblanks l.before), List.cons_append,
      Block.balances_cons hk hcolon, List.append_assoc, List.append_assoc, skip (hblanks l.after),
      skip fun c hc => l.not_mem_descriptionText (Or.inr hc)]

theorem wellShaped_textWith (l : Leaf) (h : Block.Balances 0 bar) :
    Block.WellShaped (l.textWith bar) := by
  have hbal := (balances_textWith (Nat.zero_le 1) l bar []).2 (by simpa using h)
  refine ⟨?_, ?_, by simpa using hbal⟩
  · simp [textWith, part, l.name.text_ne_nil]
  · intro c hc
    rcases l.head_textWith bar c hc with rfl | rfl | h
    · decide
    · decide
    · exact ⟨ne_of_isPlain h (by decide), ne_of_isPlain h (by decide)⟩

theorem wellShaped_text (l : Leaf) : Block.WellShaped l.text :=
  l.wellShaped_textWith (Block.balances_nil.2 rfl)

theorem ofBlock_text (l : Leaf) : Entry.ofBlock l.text = l.entry none := by
  rw [ofBlock_eq, ofContent_text, entry_parts (Or.inl rfl)]
  rfl

end Leaf

theorem nestedText_cons (w : Blanks) (l : Leaf) (ns : List (Blanks × Leaf)) :
    nestedText ((w, l) :: ns) = w.chars ++ '{' :: (l.text ++ '}' :: nestedText ns) := by
  simp [nestedText]

theorem balances_nestedText (ns : List (Blanks × Leaf)) : Block.Balances 0 (nestedText ns) := by
  induction ns with
  | nil => exact Block.balances_nil.2 rfl
  | cons x ns ih =>
    obtain ⟨w, l⟩ := x
    have hopen : '{' ∉ w.chars := w.not_mem (by decide)
    have hclose : '}' ∉ w.chars := w.not_mem (by decide)
    rw [nestedText_cons, Block.balances_append hopen hclose (by simp),
      Block.balances_cons (by simp) (show _ = _ + 1 by simp), Leaf.text,
      Leaf.balances_textWith (by simp), List.nil_append,
      Block.balances_cons (by simp) (show _ = _ + 0 by simp)]
    exact ih

theorem nestedText_eq_braced (ns : List (Blanks × Leaf)) :
    nestedText ns = Block.braced (ns.map fun (w, l) => (w.chars, l.text)) := by
  rw [nestedText, Block.braced, List.flatMap_map]

theorem unqualified_nestedText (ns : List (Blanks × Leaf)) : Unqualified (nestedText ns) := by
  induction ns with
  | nil => exact unqualified_nil
  | cons x ns ih =>
    obtain ⟨w, l⟩ := x
    have hleaf : Unqualified l.text := l.unqualified_textWith (by simp) unqualified_nil
    rw [nestedText_cons]
    exact w.unqualified.append
      (unqualified_cons (by decide) (hleaf.append (unqualified_cons (by decide) ih)))

theorem extract_rewrapped (hne : ns ≠ []) :
    Block.extract (rewrapped (nestedText ns)) = ns.map fun (_, l) => l.text := by
  obtain ⟨⟨w, l⟩, ns, rfl⟩ := List.exists_cons_of_ne_nil hne
  have hstart : trimStart l.text = l.text := trimStart_eq_self l.trimmed_text.1
  have hfirst : Block.WellShaped (trimStart l.text) := by
    rw [hstart]
    exact l.wellShaped_text
  have hothers :
      ∀ x ∈ ns.map fun (w, l) => (w.chars, l.text), '{' ∉ x.1 ∧ Block.WellShaped x.2 := by
    intro x hx
    obtain ⟨⟨v, k⟩, -, rfl⟩ := List.mem_map.1 hx
    exact ⟨v.not_mem (by decide), k.wellShaped_text⟩
  have hnested := Block.extract_rewrapped_braced w.blank hfirst hothers
  rw [hstart, List.map_map] at hnested
  rw [nestedText_eq_braced]
  exact hnested

namespace Tree

theorem balances_bar (e : Tree) : Block.Balances 0 e.bar := by
  unfold bar
  split
  · exact Block.balances_nil.2 rfl
  · have hopen : '{' ∉ e.beforeBar.chars := e.beforeBar.not_mem (by decide)
    have hclose : '}' ∉ e.beforeBar.chars := e.beforeBar.not_mem (by decide)
    rw [Block.balances_append hopen hclose (by simp),
      Block.balances_cons (by simp) (show _ = _ + 0 by simp)]
    exact balances_nestedText e.nested

theorem ofContent_text_nested (e : Tree) (hne : e.nested ≠ []) : Parts.ofContent e.text =
    e.parts (some e.descriptionText) (some (rewrapped (nestedText e.nested))) := by
  have hlast : ∀ c ∈ (nestedText e.nested).getLast?, isBlank c = false := by
    intro c hc
    rw [nestedText_eq_braced] at hc
    rw [Block.getLast_braced _ c hc]
    decide
  rw [text, bar, if_neg hne]
  exact e.ofContent_nested e.beforeBar hlast (unqualified_nestedText e.nested)

end Tree

/-- An entry in braces is one block, and what is read from that block is what was meant. -/
theorem read_written (e : Tree) :
    Block.extract ('{' :: e.text ++ ['}']) = [e.text] ∧ Entry.ofBlock e.text = e.entry := by
  constructor
  · have hclosed : Block.extract [] = [] := by rw [Block.extract]
    have hblock : Block.WellShaped e.text := e.wellShaped_textWith e.balances_bar
    rw [Block.extract_block hblock, hclosed]
  · by_cases hne : e.nested = []
    · have htext : e.text = e.toLeaf.text := by rw [Tree.text, Tree.bar, if_pos hne, Leaf.text]
      rw [htext, Leaf.ofBlock_text, Tree.entry, if_pos hne]
    · have hnested : ofBlocks (rewrapped (nestedText e.nested)) =
          e.nested.map fun (_, l) => l.entry none := by
        rw [ofBlocks, extract_rewrapped hne, List.map_map]
        exact List.map_congr_left fun x _ => x.2.ofBlock_text
      rw [ofBlock_eq, e.ofContent_text_nested hne, Leaf.entry_parts (Or.inr rfl), Leaf.parts,
        Option.map_some, hnested, Tree.entry, if_neg hne]

example :
    let empty : Blanks := ⟨[], by simp⟩
    let space : Blanks := ⟨[' '], by simp [isBlank]⟩
    let nested : Leaf :=
      { marker := some .hidden
        name := .argument ⟨['i', 'd'], by simp, by simp [IsPlain], by simp⟩
        modifier := .optional
        value := none
        before := empty
        after := empty
        description := none }
    let choice : Choice :=
      ⟨['a'], by simp, ⟨by simp [isBlank], by simp [isBlank]⟩, by simp [IsOption, isWord]⟩
    let e : Tree :=
      { marker := some .shared
        name := .flags ⟨['v'], by simp, by simp [IsPlain], by simp⟩ []
        modifier := .repeated
        value := some ⟨['1'], ⟨by simp [isBlank], by simp [isBlank]⟩, by simp⟩
        before := empty
        after := space
        description := some
          { chars := ['S', 'a', 'y']
            nonempty := by simp
            trimmed := ⟨by simp [isBlank], by simp [isBlank]⟩
            plain := by simp
            unmarked := by simp [isMarker]
            choices := some ⟨empty, space, true, choice, []⟩ }
        beforeBar := space
        nested := [(space, nested)] }
    e.text = "^--v*=1: Say: [a] | \x7b#id?\x7d".toList := by decide

end ConsoleSignature.Canonical
