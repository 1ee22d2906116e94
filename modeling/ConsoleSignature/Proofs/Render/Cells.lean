import ConsoleSignature.Proofs.Entry.OneLine
import ConsoleSignature.Proofs.Entry.WellFormed
import ConsoleSignature.Render

/-!
The cells of markdown tables. Nothing is escaped in a cell, so that each bar in it starts a cell of
its own: a row has as many cells as the header, and one more for each bar that was declared in the
name of an argument or in a default. No other text that is shown holds one.
-/
namespace ConsoleSignature

open Text

variable {a b : Char} {s t : List Char} {e : Entry} {es : List Entry} {content : List Char}
  {cells : List String} {ls rows : List (List Char)} {x : String}

namespace Render

/-- The bars of a text, less those right after a backslash; the first argument is the character that
stands before the text. -/
def openBars : Char → List Char → Nat
  | _, [] => 0
  | before, c :: s => (if c = '|' ∧ before ≠ '\\' then 1 else 0) + openBars c s

/-- What stands between two neighbouring bars of a row is a cell. -/
def cellCount (row : List Char) : Nat := openBars '\n' row - 1

theorem openBars_append (a : Char) (s t : List Char) :
    openBars a (s ++ t) = openBars a s + openBars (s.getLastD a) t := by
  induction s generalizing a with
  | nil => simp [openBars]
  | cons c s ih => rw [List.cons_append, openBars, openBars, ih, List.getLastD_cons, Nat.add_assoc]

theorem openBars_of_not_mem (h : '|' ∉ s) (a : Char) : openBars a s = 0 := by
  induction s generalizing a with
  | nil => rfl
  | cons c s ih =>
    rw [List.mem_cons, not_or] at h
    simp [openBars, Ne.symm h.1, ih h.2]

/-- Only a backslash before the text matters. -/
theorem openBars_congr (ha : a ≠ '\\') (hb : b ≠ '\\') (s : List Char) :
    openBars a s = openBars b s := by
  cases s <;> simp [openBars, ha, hb]

theorem openBars_append_of_not_mem (h : '|' ∉ t) (a : Char) (s : List Char) :
    openBars a (s ++ t) = openBars a s := by
  rw [openBars_append, openBars_of_not_mem h, Nat.add_zero]

theorem openBars_code (x : String) : openBars ' ' (code x).toList = openBars ' ' x.toList := by
  have hcode : (code x).toList = '\x60' :: (x.toList ++ ['\x60']) := by simp [code]
  have hopen : openBars ' ' ('\x60' :: (x.toList ++ ['\x60']))
      = openBars '\x60' (x.toList ++ ['\x60']) := by simp [openBars]
  rw [hcode, hopen, openBars_append_of_not_mem (by decide),
    openBars_congr (b := ' ') (by decide) (by decide)]

/-- A row without its line end. -/
def rowLine (cells : List String) : List Char :=
  ['|', ' '] ++ [' ', '|', ' '].intercalate (cells.map String.toList) ++ [' ', '|']

theorem toList_row (cells : List String) : (row cells).toList = rowLine cells ++ ['\n'] := by
  simp [row, rowLine]

/-- Every cell stands between blanks, so that the bar before it is never taken for part of it. -/
theorem openBars_intercalate (x : String) (xs : List String) :
    openBars ' ' ([' ', '|', ' '].intercalate ((x :: xs).map String.toList) ++ [' ', '|'])
      = ((x :: xs).map fun x => openBars ' ' x.toList + 1).sum := by
  have hsep (before : Char) (s : List Char) :
      openBars before ([' ', '|', ' '] ++ s) = openBars ' ' s + 1 := by
    simp [openBars, Nat.add_comm]
  induction xs generalizing x with
  | nil =>
    rw [List.map_singleton, List.intercalate_singleton, openBars_append]
    simp [openBars]
  | cons y ys ih =>
    simp only [List.map_cons, List.sum_cons] at ih ⊢
    rw [List.intercalate_cons_cons, List.append_assoc, List.append_assoc, openBars_append, hsep, ih]
    omega

theorem cellCount_rowLine (h : cells ≠ []) :
    cellCount (rowLine cells) = cells.length + (cells.map fun x => openBars ' ' x.toList).sum := by
  obtain ⟨x, xs, rfl⟩ := List.exists_cons_of_ne_nil h
  have hrow : openBars '\n' (rowLine (x :: xs))
      = 1 + ((x :: xs).map fun x => openBars ' ' x.toList + 1).sum := by
    rw [rowLine, List.append_assoc, openBars_append, ← openBars_intercalate]
    rfl
  rw [cellCount, hrow, List.sum_map_add, List.map_const', List.sum_replicate]
  simp
  omega

theorem newline_not_mem_rowLine (h : ∀ x ∈ cells, '\n' ∉ x.toList) : '\n' ∉ rowLine cells := by
  have hcells : '\n' ∉ (" | ".intercalate cells).toList := not_mem_intercalate (by decide) h
  rw [String.toList_intercalate] at hcells
  simp only [rowLine, List.mem_append, not_or]
  exact ⟨⟨by decide, hcells⟩, by decide⟩

/-- The default as it is shown, which is nothing where there is none. -/
def defaultText (e : Entry) : String := (e.defaultValue.map DefaultValue.display).getD ""

def entryCells (e : Entry) : List String :=
  [code e.label, if e.required then "yes" else "no",
    (e.defaultValue.map fun v => code v.display).getD "", described e]

def subCommandCells (e : Entry) : List String :=
  [code e.name ++ (if e.shared then " (shared)" else ""), e.description.getD ""]

theorem openBars_defaultCell (e : Entry) :
    openBars ' ' ((e.defaultValue.map fun v => code v.display).getD "").toList
      = openBars ' ' (defaultText e).toList := by
  unfold defaultText
  cases e.defaultValue with
  | none => rfl
  | some v => simpa using openBars_code v.display

/-- No bar is shown but in the name of an argument and in a default. -/
structure BarsInNameOrDefault (e : Entry) : Prop where
  flags : ∀ fs, e.flags = some fs → ∀ f ∈ fs, '|' ∉ f.toList
  description : '|' ∉ (e.description.getD "").toList
  choices : ∀ x ∈ e.choices, '|' ∉ x.toList

theorem barsInNameOrDefault_ofBlock (content : List Char) :
    BarsInNameOrDefault (Entry.ofBlock content) := by
  have hwell : (Entry.ofBlock content).WellFormed := Entry.wellFormed_of_within .self
  refine ⟨?_, ?_, ?_⟩
  · intro fs hfs f hf hm
    rw [Entry.ofBlock_eq, Entry.flags_entry] at hfs
    rcases Entry.Naming.mem_of_mem_flags hfs hf hm with hm | ⟨-, hm⟩
    · exact absurd hm (by decide)
    · exact hm rfl
  · cases hd : (Entry.ofBlock content).description with
    | none => decide
    | some d => exact (hwell.description d hd).2.2
  · intro x hx hm
    rw [Entry.ofBlock_eq] at hx
    cases hd : (Entry.Parts.ofContent content).description with
    | none => simp [Entry.Parts.entry, hd] at hx
    | some d =>
      have hchoice : x ∈ (Entry.cutChoices d).2 := by simpa [Entry.Parts.entry, hd] using hx
      exact (Entry.description_ofContent hd).2 (Entry.mem_of_mem_choices hchoice hm).1

theorem not_mem_described {c : Char} (hd : c ∉ (e.description.getD "").toList)
    (hcs : ∀ x ∈ e.choices, c ∉ x.toList) (hc : c ∉ [' ', '(', ',', ')']) :
    c ∉ (described e).toList := by
  simp only [List.mem_cons, List.not_mem_nil, or_false, not_or] at hc
  obtain ⟨hblank, hopen, hcomma, hclose⟩ := hc
  have hlist : c ∉ (", ".intercalate e.choices).toList :=
    not_mem_intercalate (by simp [hcomma, hblank]) hcs
  unfold described
  rw [String.toList_ofList]
  refine fun hm => absurd (mem_of_mem_trim hm) ?_
  split
  · exact hd
  · simp only [String.toList_append, List.mem_append, not_or]
    exact ⟨⟨⟨hd, by simp [hblank, hopen]⟩, hlist⟩, by simp [hclose]⟩

/-- An option has no bars in its label: its flags were divided at them. -/
theorem openBars_label (h : BarsInNameOrDefault e) :
    openBars ' ' e.label.toList = if e.isArgument then openBars ' ' e.name.toList else 0 := by
  unfold Entry.label Entry.isArgument
  cases hf : e.flags with
  | none => rfl
  | some fs => exact openBars_of_not_mem (not_mem_intercalate (by decide) (h.flags fs hf)) _

theorem cellCount_entryCells (h : BarsInNameOrDefault e) :
    cellCount (rowLine (entryCells e)) = 4
      + (if e.isArgument then openBars ' ' e.name.toList else 0)
      + openBars ' ' (defaultText e).toList := by
  have hrequired : openBars ' ' (if e.required then "yes" else "no").toList = 0 := by
    split <;> decide
  have hdescribed : openBars ' ' (described e).toList = 0 :=
    openBars_of_not_mem (not_mem_described h.description h.choices (by decide)) _
  rw [cellCount_rowLine (by simp [entryCells])]
  simp only [entryCells, List.map_cons, List.map_nil, List.sum_cons, List.sum_nil, List.length_cons,
    List.length_nil, openBars_code, openBars_label h, hrequired, openBars_defaultCell, hdescribed]
  omega

theorem cellCount_subCommandCells (h : BarsInNameOrDefault e) :
    cellCount (rowLine (subCommandCells e)) = 2 + openBars ' ' e.name.toList := by
  have hshared : '|' ∉ (if e.shared then " (shared)" else "").toList := by
    split <;> decide
  have hdescription := openBars_of_not_mem h.description ' '
  rw [cellCount_rowLine (by simp [subCommandCells])]
  simp only [subCommandCells, List.map_cons, List.map_nil, List.sum_cons, List.sum_nil,
    List.length_cons, List.length_nil, String.toList_append, openBars_append_of_not_mem hshared,
    openBars_code, hdescription]
  omega

theorem newline_not_mem_code (h : '\n' ∉ x.toList) : '\n' ∉ (code x).toList := by
  simp [code, h]

theorem newline_not_mem_description (h : e.OneLine) : '\n' ∉ (e.description.getD "").toList := by
  cases hd : e.description with
  | none => decide
  | some d => exact h.description d hd

theorem newline_not_mem_entryCells (h : e.OneLine) : ∀ x ∈ entryCells e, '\n' ∉ x.toList := by
  have hdefault : '\n' ∉ ((e.defaultValue.map fun v => code v.display).getD "").toList := by
    cases hv : e.defaultValue with
    | none => decide
    | some v => exact newline_not_mem_code (h.defaultValue v hv)
  simp only [entryCells, List.forall_mem_cons]
  exact ⟨newline_not_mem_code h.label, by split <;> decide, hdefault,
    not_mem_described (newline_not_mem_description h) h.choices (by decide), by simp⟩

theorem newline_not_mem_subCommandCells (h : e.OneLine) :
    ∀ x ∈ subCommandCells e, '\n' ∉ x.toList := by
  have hshared : '\n' ∉ (if e.shared then " (shared)" else "").toList := by
    split <;> decide
  simp only [subCommandCells, List.forall_mem_cons, String.toList_append, List.mem_append, not_or]
  exact ⟨⟨newline_not_mem_code h.name, hshared⟩, newline_not_mem_description h, by simp⟩

/-- The lines of a titled table; there are none where it has no rows. -/
def tableLines (title header rule : String) (rows : List (List Char)) : List (List Char) :=
  if rows.isEmpty then []
  else [title.toList, [], header.toList, rule.toList] ++ rows ++ [[]]

def entryHeader : String := "| Name | Required | Default | Description |"

def entryRule : String := "|------|----------|---------|-------------|"

def subCommandHeader : String := "| Subcommand | Description |"

def subCommandRule : String := "|------------|-------------|"

/-- Lines that each end in a line feed fall apart into themselves. -/
theorem splitOn_lines (h : ∀ l ∈ ls, '\n' ∉ l) (t : List Char) :
    (ls.flatMap (· ++ ['\n']) ++ t).splitOn '\n' = ls ++ t.splitOn '\n' := by
  induction ls with
  | nil => rfl
  | cons l ls ih =>
    rw [List.forall_mem_cons] at h
    rw [List.flatMap_cons, List.append_assoc, List.append_assoc, List.singleton_append,
      List.splitOn_append_cons_self, ih h.2, List.splitOn_eq_singleton h.1]
    rfl

theorem toList_part {title header rule : String} {table : List Entry → String}
    {cells : Entry → List String}
    (h : table es = header ++ "\n" ++ rule ++ "\n" ++ String.join (es.map fun e => row (cells e))
      ++ "\n") :
    (part title table es).toList = (tableLines title header rule
      (es.map fun e => rowLine (cells e))).flatMap (· ++ ['\n']) := by
  have hrows : (String.join (es.map fun e => row (cells e))).toList
      = (es.map fun e => rowLine (cells e)).flatMap (· ++ ['\n']) := by
    simp [String.toList_join, List.flatMap_map, toList_row]
  cases es with
  | nil => rfl
  | cons e es =>
    rw [part, tableLines, h]
    simp only [List.isEmpty_cons, List.map_cons, Bool.false_eq_true, if_false, paragraph,
      String.toList_append, List.flatMap_append] at hrows ⊢
    rw [hrows]
    simp

theorem newline_not_mem_tableLines {title header rule : String}
    (hfixed : ∀ x ∈ [title, header, rule], '\n' ∉ x.toList) (hrows : ∀ r ∈ rows, '\n' ∉ r) :
    ∀ l ∈ tableLines title header rule rows, '\n' ∉ l := by
  unfold tableLines
  split
  · simp
  · simp only [List.forall_mem_cons] at hfixed
    obtain ⟨htitle, hheader, hrule, -⟩ := hfixed
    simp only [List.forall_mem_append, List.forall_mem_cons]
    exact ⟨⟨⟨htitle, by simp, hheader, hrule, by simp⟩, hrows⟩, by simp, by simp⟩

end Render

open Render

namespace Command

variable {c : Command}

theorem toList_markdown (c : Command) : ∃ front, (c.render .markdown).toList = front ++ '\n' ::
    (tableLines "## Arguments" entryHeader entryRule
        (c.arguments.map fun e => rowLine (entryCells e))
      ++ tableLines "## Options" entryHeader entryRule
        ((c.options.filter (!·.isArgument)).map fun e => rowLine (entryCells e))
      ++ tableLines "## Subcommands" subCommandHeader subCommandRule
        ((c.subCommands.getD []).map fun e => rowLine (subCommandCells e))).flatMap
      (· ++ ['\n']) := by
  have hentries (es : List Entry) : entryTable es = entryHeader ++ "\n" ++ entryRule ++ "\n"
      ++ String.join (es.map fun e => row (entryCells e)) ++ "\n" := rfl
  have hsubs (es : List Entry) : subCommandTable es = subCommandHeader ++ "\n" ++ subCommandRule
      ++ "\n" ++ String.join (es.map fun e => row (subCommandCells e)) ++ "\n" := rfl
  have hfront : ∃ front, (paragraph ("# " ++ c.title) ++ (c.description.map paragraph).getD ""
      ++ (if c.hidden then paragraph "**Hidden:** yes" else "")).toList = front ++ ['\n'] := by
    cases c.hidden
    · cases c.description with
      | none => exact ⟨("# " ++ c.title ++ "\n").toList, by simp [paragraph]⟩
      | some d => exact ⟨(paragraph ("# " ++ c.title) ++ d ++ "\n").toList, by simp [paragraph]⟩
    · exact ⟨(paragraph ("# " ++ c.title) ++ (c.description.map paragraph).getD ""
        ++ "**Hidden:** yes\n").toList, by simp [paragraph]⟩
  obtain ⟨front, hfront⟩ := hfront
  refine ⟨front, ?_⟩
  have hmarkdown : c.render .markdown = (paragraph ("# " ++ c.title)
      ++ (c.description.map paragraph).getD ""
      ++ (if c.hidden then paragraph "**Hidden:** yes" else ""))
      ++ part "## Arguments" entryTable c.arguments
      ++ part "## Options" entryTable (c.options.filter (!·.isArgument))
      ++ part "## Subcommands" subCommandTable (c.subCommands.getD []) := rfl
  rw [hmarkdown, String.toList_append, String.toList_append, String.toList_append, hfront,
    toList_part (hentries _), toList_part (hentries _), toList_part (hsubs _)]
  simp

section Compiled

variable (hc : ∃ signature handler, c = ofSignature signature handler)
include hc

theorem barsInNameOrDefault_of_mem (h : e ∈ c.options ∨ e ∈ c.subCommands.getD []) :
    BarsInNameOrDefault e := by
  obtain ⟨signature, handler, rfl⟩ := hc
  obtain ⟨b, -, rfl⟩ := exists_block_of_mem h
  exact barsInNameOrDefault_ofBlock b

theorem newline_not_mem_entryLines (P : Entry → Bool) :
    ∀ r ∈ (c.options.filter P).map fun e => rowLine (entryCells e), '\n' ∉ r := by
  rw [List.forall_mem_map]
  intro e he
  have hline : e.OneLine := oneLine_of_mem hc (.inl (List.mem_of_mem_filter he))
  exact newline_not_mem_rowLine (newline_not_mem_entryCells hline)

theorem newline_not_mem_subCommandLines :
    ∀ r ∈ (c.subCommands.getD []).map fun e => rowLine (subCommandCells e), '\n' ∉ r := by
  rw [List.forall_mem_map]
  intro e he
  have hline : e.OneLine := oneLine_of_mem hc (.inr he)
  exact newline_not_mem_rowLine (newline_not_mem_subCommandCells hline)

/-- The rows are lines of their own, and nothing follows the tables. -/
theorem splitOn_markdown : ∃ front, (c.render .markdown).toList.splitOn '\n' = front
    ++ tableLines "## Arguments" entryHeader entryRule
      (c.arguments.map fun e => rowLine (entryCells e))
    ++ tableLines "## Options" entryHeader entryRule
      ((c.options.filter (!·.isArgument)).map fun e => rowLine (entryCells e))
    ++ tableLines "## Subcommands" subCommandHeader subCommandRule
      ((c.subCommands.getD []).map fun e => rowLine (subCommandCells e)) ++ [[]] := by
  obtain ⟨front, hfront⟩ := c.toList_markdown
  refine ⟨front.splitOn '\n', ?_⟩
  rw [hfront, List.splitOn_append_cons_self, ← List.append_nil (List.flatMap _ _), splitOn_lines]
  · simp only [List.append_assoc]
    rfl
  · simp only [List.forall_mem_append]
    exact ⟨⟨newline_not_mem_tableLines (by decide) (newline_not_mem_entryLines hc Entry.isArgument),
      newline_not_mem_tableLines (by decide) (newline_not_mem_entryLines hc _)⟩,
      newline_not_mem_tableLines (by decide) (newline_not_mem_subCommandLines hc)⟩

theorem cells_arguments : ∀ e ∈ c.arguments, cellCount (rowLine (entryCells e)) =
    4 + openBars ' ' e.name.toList + openBars ' ' (defaultText e).toList := by
  intro e he
  obtain ⟨hmem, hargument⟩ := List.mem_filter.1 he
  rw [cellCount_entryCells (barsInNameOrDefault_of_mem hc (.inl hmem)), if_pos hargument]

theorem cells_options : ∀ e ∈ c.options.filter (!·.isArgument),
    cellCount (rowLine (entryCells e)) = 4 + openBars ' ' (defaultText e).toList := by
  intro e he
  obtain ⟨hmem, hoption⟩ := List.mem_filter.1 he
  rw [cellCount_entryCells (barsInNameOrDefault_of_mem hc (.inl hmem)),
    if_neg (by simpa using hoption)]

theorem cells_subCommands : ∀ e ∈ c.subCommands.getD [],
    cellCount (rowLine (subCommandCells e)) = 2 + openBars ' ' e.name.toList :=
  fun _ he => cellCount_subCommandCells (barsInNameOrDefault_of_mem hc (.inr he))

end Compiled

end Command

/-- The tables in the markdown of a command have one row for each entry that they list, in order. A
row has as many cells as its header, and one more for each bar in a name that is not an option's and
for each bar in a default, unless a backslash stands before it. -/
theorem cells_of_markdown (signature : String) (handler : Handler) :
    let c := Command.ofSignature signature handler
    ∃ front arguments options subs,
      (c.render .markdown).toList.splitOn '\n' = front
        ++ tableLines "## Arguments" entryHeader entryRule arguments
        ++ tableLines "## Options" entryHeader entryRule options
        ++ tableLines "## Subcommands" subCommandHeader subCommandRule subs ++ [[]] ∧
      cellCount entryHeader.toList = 4 ∧ cellCount subCommandHeader.toList = 2 ∧
      List.Forall₂ (fun e line => line ++ ['\n'] = (entryRow e).toList ∧
        cellCount line = 4 + openBars ' ' e.name.toList + openBars ' ' (defaultText e).toList)
        c.arguments arguments ∧
      List.Forall₂ (fun e line => line ++ ['\n'] = (entryRow e).toList ∧
        cellCount line = 4 + openBars ' ' (defaultText e).toList)
        (c.options.filter (!·.isArgument)) options ∧
      List.Forall₂ (fun e line => line ++ ['\n'] = (subCommandRow e).toList ∧
        cellCount line = 2 + openBars ' ' e.name.toList)
        (c.subCommands.getD []) subs := by
  intro c
  have hc : ∃ signature handler, c = Command.ofSignature signature handler := ⟨_, _, rfl⟩
  obtain ⟨front, hfront⟩ := Command.splitOn_markdown hc
  refine ⟨front, _, _, _, hfront, by decide, by decide, ?arguments, ?options, ?subs⟩
  case arguments =>
    rw [List.forall₂_map_right_iff, List.forall₂_same]
    exact fun e he => ⟨(toList_row _).symm, Command.cells_arguments hc e he⟩
  case options =>
    rw [List.forall₂_map_right_iff, List.forall₂_same]
    exact fun e he => ⟨(toList_row _).symm, Command.cells_options hc e he⟩
  case subs =>
    rw [List.forall₂_map_right_iff, List.forall₂_same]
    exact fun e he => ⟨(toList_row _).symm, Command.cells_subCommands hc e he⟩

set_option maxRecDepth 2000 in
theorem five_cells_of_bar_in_name :
    let c := Command.ofSignature "run\n\x7ba|b : Which\x7d" ⟨0, "", none⟩
    c.arguments.map (·.name) = ["a|b"] ∧
    c.render .markdown = "# run\n\n## Arguments\n\n" ++ entryHeader ++ "\n" ++ entryRule ++ "\n"
      ++ "| \x60a|b\x60 | yes |  | Which |" ++ "\n\n" ∧
    cellCount entryHeader.toList = 4 ∧
    cellCount "| \x60a|b\x60 | yes |  | Which |".toList = 5 := by
  refine ⟨?name, ?text, by decide, by decide⟩
  case name => cbv
  case text => cbv

end ConsoleSignature
