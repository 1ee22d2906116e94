import ConsoleSignature.Command.OfSignature
import ConsoleSignature.Proofs.Block.Layout

/-!
A signature whose blocks stand on the lines below its header, with any text without braces around
them: its command has exactly their entries, in their order.
-/
namespace ConsoleSignature.Command

open Text

variable {c : Char} {header first b t : List Char} {blocks : List (List Char × List Char)}

theorem isNameChar_of_isBlank (h : isBlank c) : Header.isNameChar c = false := by
  cases hn : Header.isNameChar c with
  | false => rfl
  | true =>
    simp only [Header.isNameChar, Bool.or_eq_true, beq_iff_eq] at hn
    rcases hn with ((hn | rfl) | rfl) | rfl
    · simp [isBlank_of_isAlphanum hn] at h
    all_goals exact absurd h (by decide)

theorem nameChars_of_not_mem (h : '{' ∉ header) :
    Header.nameChars (trim header) = header.filter Header.isNameChar := by
  have hne : ∀ c ∈ trim header, (c != '{') = true := by
    intro c hc
    simpa using fun he : c = '{' => h (mem_of_mem_trim (he ▸ hc))
  rw [Header.nameChars, List.takeWhile_eq_self_iff.2 hne]
  exact filter_trim (fun c => isNameChar_of_isBlank) header

theorem lines_of_header (hblank : ∃ c ∈ header, isBlank c = false) (hn : '\n' ∉ header)
    (t : List Char) : lines (header ++ '\n' :: t) = trim header :: lines t := by
  have hne : trim header ≠ [] := by
    obtain ⟨c, hc, hb⟩ := hblank
    intro he
    simp [trim_eq_nil_iff.1 he c hc] at hb
  rw [lines, pieces_append, pieces_of_not_mem hn, if_neg hne]
  rfl

/-- A header line, some text, and each block in braces with some text behind it. -/
def laidOut (header first : List Char) (blocks : List (List Char × List Char)) : List Char :=
  header ++ '\n' :: (first ++ blocks.flatMap fun (b, after) => '{' :: b ++ '}' :: after)

theorem layout_flatMap
    (h : ∀ x ∈ blocks, Block.WellShaped x.1 ∧ '\n' ∉ x.1 ∧ '{' ∉ x.2 ∧ '}' ∉ x.2) :
    Block.Layout (blocks.map Prod.fst)
      (blocks.flatMap fun (b, after) => '{' :: b ++ '}' :: after) := by
  induction blocks with
  | nil => exact .nil
  | cons x blocks ih =>
    obtain ⟨hb, hn, ho, hc⟩ := h x (by simp)
    have htail := ih fun y hy => h y (List.mem_cons_of_mem x hy)
    simpa using Block.Layout.block hb hn
      (Block.layout_append (Block.layout_of_not_mem ho hc) htail)

theorem ofSignature_of_header (hblank : ∃ c ∈ header, isBlank c = false) (hn : '\n' ∉ header)
    (t : List Char) (handler : Handler) :
    ofSignature (String.ofList (header ++ '\n' :: t)) handler =
      ofEntries (Header.ofLine (trim header)) (Entry.ofBlocks ([' '].intercalate (lines t)))
        handler := by
  rw [ofSignature, String.toList_ofList, lines_of_header hblank hn]

theorem ofSignature_of_layout {bs : List (List Char)} (hblank : ∃ c ∈ header, isBlank c = false)
    (hn : '\n' ∉ header) (ht : Block.Layout bs t) (handler : Handler) :
    ofSignature (String.ofList (header ++ '\n' :: t)) handler =
      ofEntries (Header.ofLine (trim header)) (bs.map Entry.ofBlock) handler := by
  rw [ofSignature_of_header hblank hn, Entry.ofBlocks, lines,
    Block.extract_of_layout (Block.layout_join ht)]

theorem ofEntries_of_simple {h : Header} (hs : h.isNamespace = false) (entries : List Entry)
    (handler : Handler) :
    (ofEntries h entries handler).options = entries ∧
      (ofEntries h entries handler).subCommands = none := by
  simp [ofEntries, hs]

theorem ofEntries_of_namespace {h : Header} (hs : h.isNamespace = true) (entries : List Entry)
    (handler : Handler) :
    (ofEntries h entries handler).options = entries.filter (fun e => e.flags.isSome) ∧
      (ofEntries h entries handler).subCommands =
        some (entries.filter fun e => e.flags.isNone && !e.hidden) := by
  simp [ofEntries, hs, Entry.isArgument]

/-- No entry is lost, merged or moved. In a namespace flags and sub-commands part, each in their
order, and only hidden arguments are left out. -/
theorem ofSignature_laidOut (handler : Handler) (hblank : ∃ c ∈ header, isBlank c = false)
    (hbrace : '{' ∉ header) (hn : '\n' ∉ header) (hfirst : '{' ∉ first ∧ '}' ∉ first)
    (hblocks : ∀ x ∈ blocks, Block.WellShaped x.1 ∧ '\n' ∉ x.1 ∧ '{' ∉ x.2 ∧ '}' ∉ x.2) :
    let command := ofSignature (String.ofList (laidOut header first blocks)) handler
    let entries := blocks.map fun x => Entry.ofBlock x.1
    ((header.filter Header.isNameChar).getLast? ≠ some ':' →
      command.options = entries ∧ command.subCommands = none) ∧
    ((header.filter Header.isNameChar).getLast? = some ':' →
      command.options = entries.filter (fun e => e.flags.isSome) ∧
      command.subCommands = some (entries.filter fun e => e.flags.isNone && !e.hidden) ∧
      ∀ e ∈ entries, e ∉ command.options ∧ e ∉ command.subCommands.getD [] →
        e.flags = none ∧ e.hidden = true) := by
  have hlayout := Block.layout_append (Block.layout_of_not_mem hfirst.1 hfirst.2)
    (layout_flatMap hblocks)
  intro command entries
  have hcommand : command = ofEntries (Header.ofLine (trim header)) entries handler := by
    have := ofSignature_of_layout hblank hn hlayout handler
    rwa [List.nil_append, List.map_map] at this
  have hlast : (Header.ofLine (trim header)).isNamespace =
      ((header.filter Header.isNameChar).getLast? == some ':') := by
    simp only [Header.ofLine, nameChars_of_not_mem hbrace]
  rw [hcommand]
  refine ⟨?_, ?_⟩
  · intro h
    rw [beq_eq_false_iff_ne.2 h] at hlast
    exact ofEntries_of_simple hlast entries handler
  · intro h
    rw [beq_iff_eq.2 h] at hlast
    obtain ⟨hoptions, hsubs⟩ := ofEntries_of_namespace hlast entries handler
    refine ⟨hoptions, hsubs, ?_⟩
    rintro e he ⟨ho, hs⟩
    rw [hoptions] at ho
    rw [hsubs] at hs
    simp_all

theorem ofSignature_laidOut_group :
    let header := "group:\r".toList
    let first := "\r\n  ".toList
    let blocks := [("--force : Force".toList, " and\r\n\r\n\t".toList),
      ("add : Add one | \x7b--to\x7d".toList, []), ("#purge : Drop".toList, "\n".toList)]
    let command := ofSignature (String.ofList (laidOut header first blocks)) ⟨0, "", none⟩
    let entries := blocks.map fun x => Entry.ofBlock x.1
    (∃ c ∈ header, isBlank c = false) ∧ '{' ∉ header ∧ '\n' ∉ header ∧
    ('{' ∉ first ∧ '}' ∉ first) ∧
    (∀ x ∈ blocks, Block.WellShaped x.1 ∧ '\n' ∉ x.1 ∧ '{' ∉ x.2 ∧ '}' ∉ x.2) ∧
    command.options = entries.filter (fun e => e.flags.isSome) ∧
    command.subCommands = some (entries.filter fun e => e.flags.isNone && !e.hidden) ∧
    ∀ e ∈ entries, e ∉ command.options ∧ e ∉ command.subCommands.getD [] →
      e.flags = none ∧ e.hidden = true := by
  intro header first blocks command entries
  have hblank : ∃ c ∈ header, isBlank c = false := ⟨'g', by decide, by decide⟩
  have hbrace : '{' ∉ header := by decide
  have hn : '\n' ∉ header := by decide
  have hfirst : '{' ∉ first ∧ '}' ∉ first := by decide
  have hblocks : ∀ x ∈ blocks, Block.WellShaped x.1 ∧ '\n' ∉ x.1 ∧ '{' ∉ x.2 ∧ '}' ∉ x.2 := by
    decide
  exact ⟨hblank, hbrace, hn, hfirst, hblocks,
    (ofSignature_laidOut ⟨0, "", none⟩ hblank hbrace hn hfirst hblocks).2 (by decide)⟩

end ConsoleSignature.Command
