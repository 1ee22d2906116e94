import ConsoleSignature.Proofs.Block.Braced
import ConsoleSignature.Proofs.Command.Namespace
import ConsoleSignature.Proofs.Entry.Qualified

/-!
Blocks with nested blocks. Marks are looked for before a block is taken apart, so that a marker
behind a colon in a nested block is found there: it hides the whole, and the nested block loses it.
A marker at the start of a nested block is its own.
-/
namespace ConsoleSignature.Entry

open Text Block

variable {c : Char} {d n s w : List Char} {bs : List (List Char × List Char)}
  {x : List Char × List Char}

/-- Text without the characters that part a block, and without markers. -/
structure Undelimited (s : List Char) : Prop where
  nonempty : s ≠ []
  trimmed : Trimmed s
  plain : ∀ c ∈ s, c ∉ [':', '|', '{', '}', '#', '^']

/-- Blanks, and the content of a nested block that nests none itself. -/
structure Nestable (x : List Char × List Char) : Prop where
  blank : ∀ c ∈ x.1, isBlank c
  nonblank : ∃ c ∈ x.2, isBlank c = false
  unbraced : '{' ∉ x.2 ∧ '}' ∉ x.2

instance : DecidablePred Undelimited := fun s =>
  decidable_of_iff (s ≠ [] ∧ Trimmed s ∧ s.all (· ∉ [':', '|', '{', '}', '#', '^']))
    ⟨fun ⟨hne, ht, hp⟩ => ⟨hne, ht, by simpa using hp⟩,
      fun ⟨hne, ht, hp⟩ => ⟨hne, ht, by simpa using hp⟩⟩

instance : DecidablePred Nestable := fun x =>
  decidable_of_iff (x.1.all isBlank ∧ x.2.any (!isBlank ·) ∧ '{' ∉ x.2 ∧ '}' ∉ x.2)
    ⟨fun ⟨hb, hn, hu⟩ => ⟨by simpa using hb, by simpa using hn, hu⟩,
      fun ⟨hb, hn, hu⟩ => ⟨by simpa using hb, by simpa using hn, hu⟩⟩

/-- A name, a description and nested blocks, with blanks before each. -/
def nesting (name description : List Char) (bs : List (List Char × List Char)) : List Char :=
  name ++ [' ', ':', ' '] ++ description ++ [' ', '|'] ++ braced bs

theorem Undelimited.isMarker (h : Undelimited s) (hc : c ∈ s) : isMarker c = false := by
  have hplain := h.plain c hc
  simp only [List.mem_cons, not_or] at hplain
  exact isMarker_eq_false_iff.2 ⟨hplain.2.2.2.2.1, hplain.2.2.2.2.2.1⟩

theorem Undelimited.not_mem (h : Undelimited s) (hc : c ∈ [':', '|', '{', '}', '#', '^']) : c ∉ s :=
  fun hm => h.plain c hm hc

theorem trimStart_ne_nil (h : ∃ c ∈ s, isBlank c = false) : trimStart s ≠ [] := by
  obtain ⟨c, hc, hb⟩ := h
  intro hnil
  simp [List.dropWhile_eq_nil_iff.1 hnil c hc] at hb

theorem ofBlock_trimStart (b : List Char) : ofBlock (trimStart b) = ofBlock b := by
  rw [ofBlock_eq, ofBlock_eq, Parts.ofContent, trim_trimStart, ← Parts.ofContent]

theorem ofBlocks_rewrapped (hne : bs ≠ []) (h : ∀ x ∈ bs, Nestable x) :
    ofBlocks (rewrapped (braced bs)) = bs.map fun x => ofBlock x.2 := by
  obtain ⟨⟨w, b⟩, bs, rfl⟩ := List.exists_cons_of_ne_nil hne
  obtain ⟨hw, hb, hopen, hclose⟩ := h (w, b) (by simp)
  have hfirst : WellShaped (trimStart b) := by
    have hsub : trimStart b ⊆ b := (List.dropWhile_sublist isBlank).subset
    exact wellShaped_of_not_mem (trimStart_ne_nil hb) (fun hm => hopen (hsub hm))
      fun hm => hclose (hsub hm)
  have hothers : ∀ x ∈ bs, '{' ∉ x.1 ∧ WellShaped x.2 := by
    intro x hx
    obtain ⟨hblank, ⟨c, hc, -⟩, hbrace⟩ := h x (List.mem_cons_of_mem _ hx)
    exact ⟨not_mem_of_blank hblank (by decide),
      wellShaped_of_not_mem (List.ne_nil_of_mem hc) hbrace.1 hbrace.2⟩
  rw [ofBlocks, extract_rewrapped_braced hw hfirst hothers]
  simp [ofBlock_trimStart]

/-- The nested block without its first marker behind a colon, if it has one. -/
def released (x : List Char × List Char) : Option (List Char × List Char) :=
  (unmarked? x.2).map fun b => (x.1, b)

theorem nestable_of_released {y : List Char × List Char} (hx : Nestable x)
    (h : released x = some y) : Nestable y := by
  obtain ⟨b, hb, rfl⟩ := Option.map_eq_some_iff.1 h
  obtain ⟨hcolon, hsub⟩ := mem_of_unmarked? hb
  exact ⟨hx.blank, ⟨':', hcolon, by decide⟩, fun hm => hx.unbraced.1 (hsub hm),
    fun hm => hx.unbraced.2 (hsub hm)⟩

theorem nestable_of_mem_replaceF (h : ∀ x ∈ bs, Nestable x) :
    ∀ x ∈ bs.replaceF released, Nestable x := by
  induction bs with
  | nil => exact h
  | cons y bs ih =>
    have hy : Nestable y := h y (by simp)
    have hbs : ∀ x ∈ bs, Nestable x := fun x hx => h x (List.mem_cons_of_mem y hx)
    intro x hx
    cases hr : released y with
    | none =>
      rw [List.replaceF_cons_of_none _ hr] at hx
      rcases List.mem_cons.1 hx with rfl | hx
      · exact hy
      · exact ih hbs x hx
    | some z =>
      rw [List.replaceF_cons_of_some _ hr] at hx
      rcases List.mem_cons.1 hx with rfl | hx
      · exact nestable_of_released hy hr
      · exact hbs x hx

/-- The search goes into the first block and, when nothing is found in it, on to the others. -/
theorem unmarked?_braced_cons (hw : ∀ c ∈ w, isBlank c) (b : List Char)
    (bs : List (List Char × List Char)) :
    unmarked? (braced ((w, b) :: bs)) =
      (((unmarked? b).map fun b' => b' ++ '}' :: braced bs).or
        ((unmarked? (braced bs)).map fun t => b ++ '}' :: t)).map fun t => w ++ '{' :: t := by
  have hopen : ∀ c ∈ w ++ ['{'], isMarker c = false := by
    intro c hc
    rcases List.mem_append.1 hc with hc | hc
    · exact isMarker_of_isBlank (hw c hc)
    · obtain rfl := List.mem_singleton.1 hc
      decide
  have hclose : ∀ c ∈ ['}'], isMarker c = false := by simp [isMarker]
  have hrest : unmarked? ('}' :: braced bs) = (unmarked? (braced bs)).map fun t => '}' :: t :=
    unmarked?_append_of_unmarked hclose (Or.inl (by simp))
  rw [braced_cons, List.append_cons, unmarked?_append_of_unmarked hopen (Or.inl (by simp)),
    unmarked?_append (Or.inr (by simp [isMarker])), hrest]
  simp [Option.map_or, Function.comp_def]

theorem unmarked?_braced (h : ∀ x ∈ bs, Nestable x) :
    unmarked? (braced bs) =
      if ∃ x ∈ bs, Qualified x.2 then some (braced (bs.replaceF released)) else none := by
  induction bs with
  | nil => rfl
  | cons x bs ih =>
    obtain ⟨w, b⟩ := x
    have htail := ih fun x hx => h x (List.mem_cons_of_mem _ hx)
    rw [unmarked?_braced_cons (h (w, b) (by simp)).blank, htail]
    cases hb : unmarked? b with
    | some b' =>
      have hqualified : Qualified b := by
        by_contra hq
        simp [unmarked?_eq_none_iff.2 hq] at hb
      have hexists : ∃ x ∈ (w, b) :: bs, Qualified x.2 := ⟨(w, b), by simp, hqualified⟩
      have hreleased : released (w, b) = some (w, b') := by simp [released, hb]
      rw [if_pos hexists, List.replaceF_cons_of_some _ hreleased, braced_cons]
      rfl
    | none =>
      have hqualified : ¬ Qualified b := unmarked?_eq_none_iff.1 hb
      have hreleased : released (w, b) = none := by simp [released, hb]
      rw [List.replaceF_cons_of_none _ hreleased, braced_cons]
      simp only [List.exists_mem_cons_iff, hqualified, false_or]
      split <;> rfl

theorem replaceF_released (h : ¬ ∃ x ∈ bs, Qualified x.2) : bs.replaceF released = bs := by
  refine List.replaceF_of_forall_none fun x hx => ?_
  have hnone : unmarked? x.2 = none := unmarked?_eq_none_iff.2 fun hq => h ⟨x, hx, hq⟩
  simp [released, hnone]

theorem replaceF_released_ne_nil (hne : bs ≠ []) : bs.replaceF released ≠ [] := by
  obtain ⟨x, bs, rfl⟩ := List.exists_cons_of_ne_nil hne
  cases hx : released x with
  | none => simp [hx]
  | some y => simp [hx]

/-- Up to its nested blocks a text has no markers at all. -/
theorem unmarked?_nesting (hn : Undelimited n) (hd : Undelimited d)
    (h : ∀ x ∈ bs, Nestable x) :
    unmarked? (nesting n d bs) =
      if ∃ x ∈ bs, Qualified x.2 then some (nesting n d (bs.replaceF released)) else none := by
  have hunmarked : ∀ c ∈ n ++ [' ', ':', ' '] ++ d ++ [' ', '|'], isMarker c = false := by
    intro c hc
    simp only [List.mem_append] at hc
    rcases hc with ((hc | hc) | hc) | hc
    · exact hn.isMarker hc
    · exact (by simp [isMarker] : ∀ c ∈ [' ', ':', ' '], isMarker c = false) c hc
    · exact hd.isMarker hc
    · exact (by simp [isMarker] : ∀ c ∈ [' ', '|'], isMarker c = false) c hc
  have hlast : (n ++ [' ', ':', ' '] ++ d ++ [' ', '|']).getLast? ≠ some ':' := by
    rw [List.getLast?_append_of_ne_nil _ (by simp)]
    decide
  rw [nesting, unmarked?_append_of_unmarked hunmarked (Or.inl hlast), unmarked?_braced h]
  split <;> rfl

theorem trimmed_nesting (hn : Undelimited n) (d : List Char) (hne : bs ≠ []) :
    Trimmed (nesting n d bs) := by
  constructor
  · intro c hc
    refine hn.trimmed.1 c ?_
    rwa [nesting, List.append_assoc, List.append_assoc, List.append_assoc,
      List.head?_append_of_ne_nil _ hn.nonempty] at hc
  · intro c hc
    have hbraced : braced bs ≠ [] := by
      obtain ⟨⟨w, b⟩, bs, rfl⟩ := List.exists_cons_of_ne_nil hne
      simp [braced_cons]
    rw [nesting, List.getLast?_append_of_ne_nil _ hbraced] at hc
    rw [getLast_braced bs c hc]
    decide

theorem marking_nesting (hn : Undelimited n) (hd : Undelimited d) (hne : bs ≠ [])
    (h : ∀ x ∈ bs, Nestable x) :
    Marking.ofText (trim (nesting n d bs)) =
      { text := nesting n d (bs.replaceF released)
        hidden := decide (∃ x ∈ bs, Qualified x.2)
        shared := false } := by
  have hhead : ∀ c ∈ (nesting n d bs).head?, isMarker c = false := by
    intro c hc
    rw [nesting, List.append_assoc, List.append_assoc, List.append_assoc,
      List.head?_append_of_ne_nil _ hn.nonempty] at hc
    exact hn.isMarker (List.mem_of_head? hc)
  have hunmarked := unmarked?_nesting hn hd h
  have hqualified : Qualified (nesting n d bs) ↔ ∃ x ∈ bs, Qualified x.2 := by
    rw [← not_iff_not, ← unmarked?_eq_none_iff, hunmarked]
    simp
  rw [trim_eq_self (trimmed_nesting hn d hne), marking_of_head hhead, hunmarked,
    decide_eq_decide.2 hqualified]
  split
  · rfl
  · rename_i hnone
    rw [replaceF_released hnone]
    rfl

theorem ofContent_nesting (hn : Undelimited n) (hd : Undelimited d) (hne : bs ≠ [])
    (h : ∀ x ∈ bs, Nestable x) :
    Parts.ofContent (nesting n d bs) =
      { hidden := decide (∃ x ∈ bs, Qualified x.2)
        shared := false
        name := n
        description := some d
        nested := some (rewrapped (braced (bs.replaceF released))) } := by
  have hblank : ∀ c ∈ [' '], isBlank c := by simp [isBlank]
  have hcolon : ':' ∉ n ++ [' '] := by
    simpa using hn.not_mem (by simp)
  have hbar : '|' ∉ [' '] ++ d ++ [' '] := by
    simpa using hd.not_mem (by simp)
  have hcut : cut ':' (nesting n d (bs.replaceF released)) =
      (n ++ [' '], some ([' '] ++ d ++ [' '] ++ '|' :: braced (bs.replaceF released))) := by
    have happend := cut_append hcolon ([' '] ++ d ++ [' '] ++ '|' :: braced (bs.replaceF released))
    simpa [nesting] using happend
  have hlast : ∀ c ∈ (braced (bs.replaceF released)).getLast?, isBlank c = false := by
    intro c hc
    rw [getLast_braced _ c hc]
    decide
  simp only [Parts.ofContent, marking_nesting hn hd hne h, hcut,
    trim_append_blank hblank hn.trimmed, Option.map_some, Option.bind_some,
    cut_trim (by decide) hbar hlast, trim_trimStart, trim_pad hblank hblank hd.trimmed]

/-- A block without any delimiter is all name. -/
theorem ofContent_undelimited (hn : Undelimited n) :
    Parts.ofContent n =
      { hidden := false, shared := false, name := n, description := none, nested := none } := by
  have hmarking := marking_of_head fun c hc => hn.isMarker (List.mem_of_head? hc)
  have hqualified := not_qualified_of_unmarked fun c hc => hn.isMarker hc
  have hunmarked := unmarked?_eq_none_iff.2 hqualified
  simp [Parts.ofContent, trim_eq_self hn.trimmed, hmarking, hqualified, hunmarked,
    cut_eq_self (hn.not_mem (c := ':') (by simp))]

theorem ofBlock_nesting (hn : Undelimited n) (hd : Undelimited d) (hne : bs ≠ [])
    (h : ∀ x ∈ bs, Nestable x) :
    ofBlock (nesting n d bs) =
      { ofBlock n with
        description := some (String.ofList d)
        choices := []
        hidden := decide (∃ x ∈ bs, Qualified x.2)
        shared := false
        nested := some ((bs.replaceF released).map fun x => ofBlock x.2) } := by
  have hnested := ofBlocks_rewrapped (replaceF_released_ne_nil hne) (nestable_of_mem_replaceF h)
  have hchoices : cutChoices d = (d, []) := by
    rw [cutChoices_of_not_mem (hd.not_mem (by simp)), trim_eq_self hd.trimmed]
  rw [ofBlock_eq, ofContent_nesting hn hd hne h, ofBlock_eq n, ofContent_undelimited hn,
    Option.map_some, hnested]
  simp [Parts.entry, hchoices, hd.nonempty]

/-- A marker behind a colon in a nested block hides the whole, so that a namespace drops it, and is
taken from the first nested block that has one. Without such a marker nested blocks keep what they
have, and nothing of it reaches the whole. -/
theorem nesting_markers (hn : Undelimited n) (hd : Undelimited d) (hne : bs ≠ [])
    (h : ∀ x ∈ bs, Nestable x) :
    ofBlock (nesting n d bs) =
      { ofBlock n with
        description := some (String.ofList d)
        choices := []
        hidden := decide (∃ x ∈ bs, Qualified x.2)
        shared := false
        nested := some ((bs.replaceF released).map fun x => ofBlock x.2) } ∧
    ((∀ x ∈ bs, ¬ Qualified x.2) →
      ofBlock (nesting n d bs) =
        { ofBlock n with
          description := some (String.ofList d)
          choices := []
          hidden := false
          shared := false
          nested := some (bs.map fun x => ofBlock x.2) }) ∧
    ∀ signature handler header body, Command.lines signature.toList = header :: body →
      (Header.ofLine header).isNamespace → nesting n d bs ∈ extract ([' '].intercalate body) →
      (ofBlock n).isArgument →
        (ofBlock (nesting n d bs) ∈ (Command.ofSignature signature handler).subCommands.getD [] ↔
          ∀ x ∈ bs, ¬ Qualified x.2) := by
  have hentry := ofBlock_nesting hn hd hne h
  refine ⟨hentry, ?_, ?_⟩
  · intro hnone
    have hexists : ¬ ∃ x ∈ bs, Qualified x.2 := by simpa using hnone
    rw [hentry, replaceF_released hexists, decide_eq_false hexists]
  · intro signature handler header body hlines hnamespace hblock hargument
    have hmem : ofBlock (nesting n d bs) ∈ ofBlocks ([' '].intercalate body) :=
      List.mem_map_of_mem hblock
    have hargument' : (ofBlock (nesting n d bs)).isArgument = true := by
      rw [hentry]
      exact hargument
    have hhidden : (ofBlock (nesting n d bs)).hidden = decide (∃ x ∈ bs, Qualified x.2) := by
      rw [hentry]
    rw [Command.mem_subCommands_iff hlines hnamespace, hhidden]
    simp [hmem, hargument']

theorem nesting_markers_model :
    let bs := [([' '], "#--force : Over".toList), ([' '], " --dry:^Preview".toList)]
    let block := nesting "model".toList "Create".toList bs
    Undelimited "model".toList ∧ Undelimited "Create".toList ∧ bs ≠ [] ∧ (∀ x ∈ bs, Nestable x) ∧
    ofBlock block =
      { ofBlock "model".toList with
        description := some "Create"
        choices := []
        hidden := true
        shared := false
        nested := some [ofBlock "#--force : Over".toList, ofBlock " --dry:Preview".toList] } ∧
    ofBlock block ∉ (Command.ofSignature (String.ofList ("make:\n\x7b".toList ++ block ++ ['}']))
      ⟨0, "", none⟩).subCommands.getD [] := by
  intro bs block
  have hname : Undelimited "model".toList := by decide
  have hdescription : Undelimited "Create".toList := by decide
  have hne : bs ≠ [] := by decide
  have hbs : ∀ x ∈ bs, Nestable x := by decide
  obtain ⟨hentry, -, hkept⟩ := nesting_markers hname hdescription hne hbs
  refine ⟨hname, hdescription, hne, hbs, ?_, ?_⟩
  · have hreleased : bs.replaceF released =
        [([' '], "#--force : Over".toList), ([' '], " --dry:Preview".toList)] := by decide
    have hqualified : decide (∃ x ∈ bs, Qualified x.2) = true := by decide
    rw [hqualified, hreleased] at hentry
    exact hentry
  · have hlines : Command.lines ("make:\n\x7b".toList ++ block ++ ['}']) =
        ["make:".toList, '{' :: block ++ ['}']] := by decide
    have hblock : block ∈ extract ([' '].intercalate ['{' :: block ++ ['}']]) := by
      have hshape : WellShaped block := by decide
      rw [List.intercalate_singleton, extract_block hshape []]
      exact List.mem_cons_self
    have hargument : (ofBlock "model".toList).isArgument = true := by
      rw [ofBlock_eq]
      decide
    rw [← String.toList_ofList (l := "make:\n\x7b".toList ++ block ++ ['}'])] at hlines
    have hiff := hkept _ ⟨0, "", none⟩ _ _ hlines (by decide) hblock hargument
    have hsome : ¬ ∀ x ∈ bs, ¬ Qualified x.2 := by decide
    exact fun hmem => hsome (hiff.1 hmem)

/-- The mark of a nested block can reach the whole. -/
theorem nesting_not_scoped :
    ¬ ∀ n d bs, Undelimited n → Undelimited d → bs ≠ [] → (∀ x ∈ bs, Nestable x) →
      let e := ofBlock (nesting n d bs)
      e.hidden = false ∧ e.shared = false ∧ e.name = (ofBlock n).name ∧
        e.description = some (String.ofList d) ∧ e.nested = some (bs.map fun x => ofBlock x.2) := by
  intro h
  obtain ⟨hhidden, -⟩ := h "sub".toList "Run".toList [([' '], "--dry:#Preview".toList)] (by decide)
    (by decide) (by decide) (by decide)
  rw [ofBlock_eq] at hhidden
  exact absurd hhidden (by decide)

end ConsoleSignature.Entry
