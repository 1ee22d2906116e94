import ConsoleSignature.Proofs.Block.Closed
import ConsoleSignature.Proofs.Command.Layout

/-!
Lines that are added to a signature. Where every brace above them is closed, the command gains the
entries that they would declare below the header alone, behind those it has.
-/
namespace ConsoleSignature.Command

open Text

variable {header a : List Char} {xs : List (List Char)}

theorem lines_append (s t : List Char) : lines (s ++ '\n' :: t) = lines s ++ lines t :=
  pieces_append '\n' s t

/-- Blocks on lines that are joined by spaces, where those on the first lines are closed. -/
theorem extract_join_append (h : Block.Closed ([' '].intercalate xs)) (ys : List (List Char)) :
    Block.extract ([' '].intercalate (xs ++ ys)) =
      Block.extract ([' '].intercalate xs) ++ Block.extract ([' '].intercalate ys) := by
  have hnone : Block.extract ([' '].intercalate []) = [] := by
    rw [List.intercalate_nil, Block.extract]
  by_cases hxs : xs = []
  · rw [hxs, hnone, List.nil_append, List.nil_append]
  · by_cases hys : ys = []
    · rw [hys, hnone, List.append_nil, List.append_nil]
    · rw [intercalate_append hxs hys, List.append_assoc, List.singleton_append,
        Block.extract_append_of_closed h, Block.extract_cons (by decide)]

theorem ofBlocks_join_append (h : Block.Closed ([' '].intercalate xs)) (ys : List (List Char)) :
    Entry.ofBlocks ([' '].intercalate (xs ++ ys)) =
      Entry.ofBlocks ([' '].intercalate xs) ++ Entry.ofBlocks ([' '].intercalate ys) := by
  rw [Entry.ofBlocks, extract_join_append h, List.map_append]
  rfl

/-- Putting entries where they belong keeps those of two lists apart. -/
theorem ofEntries_append (header : Header) (xs ys : List Entry) (handler : Handler) :
    ofEntries header (xs ++ ys) handler =
      { ofEntries header xs handler with
        options :=
          (ofEntries header xs handler).options ++ (ofEntries header ys handler).options
        subCommands :=
          if header.isNamespace then
            some ((ofEntries header xs handler).subCommands.getD [] ++
              (ofEntries header ys handler).subCommands.getD [])
          else none } := by
  cases h : header.isNamespace <;> simp [ofEntries, h]

/-- Below lines whose opening braces are all closed, any text adds the entries that it declares by
itself, and changes nothing else. -/
theorem ofSignature_append (handler : Handler) (hblank : ∃ c ∈ header, isBlank c = false)
    (hn : '\n' ∉ header) (ha : Block.Closed a) (b : List Char) :
    let upper := ofSignature (String.ofList (header ++ '\n' :: a)) handler
    let lower := ofSignature (String.ofList (header ++ '\n' :: b)) handler
    let whole := ofSignature (String.ofList (header ++ '\n' :: (a ++ '\n' :: b))) handler
    (whole.base = upper.base ∧ whole.hidden = upper.hidden ∧
      whole.isNamespace = upper.isNamespace ∧ whole.description = upper.description) ∧
    whole.options = upper.options ++ lower.options ∧
    (whole.isNamespace = false → whole.subCommands = none) ∧
    (whole.isNamespace = true → ∃ xs ys, upper.subCommands = some xs ∧
      lower.subCommands = some ys ∧ whole.subCommands = some (xs ++ ys)) := by
  intro upper lower whole
  have hclosed : Block.Closed ([' '].intercalate (lines a)) := Block.closed_join.2 ha
  have hupper : upper = _ := ofSignature_of_header hblank hn a handler
  have hlower : lower = _ := ofSignature_of_header hblank hn b handler
  have hwhole : whole = _ := ofSignature_of_header hblank hn (a ++ '\n' :: b) handler
  rw [lines_append, ofBlocks_join_append hclosed, ofEntries_append, ← hupper, ← hlower] at hwhole
  have hnamespace : whole.isNamespace = (Header.ofLine (trim header)).isNamespace := by
    rw [hwhole, hupper]
    rfl
  refine ⟨by simp [hwhole], by rw [hwhole], ?_, ?_⟩
  · intro h
    rw [hnamespace] at h
    simp [hwhole, h]
  · intro h
    rw [hnamespace] at h
    obtain ⟨-, hxs⟩ := hupper ▸ ofEntries_of_namespace h _ handler
    obtain ⟨-, hys⟩ := hlower ▸ ofEntries_of_namespace h _ handler
    exact ⟨_, _, hxs, hys, by simp [hwhole, h, hxs, hys]⟩

theorem ofSignature_append_make :
    let header := "make:".toList
    let a :=
      "\x7d \x7b\x7btoo \x7bdeep\x7d\x7d\x7d\n\x7bmodel : Create | \x7b--force\x7d\x7d".toList
    let b := "\x7b^--env=local : Place\x7d\x7d\n\x7bplan : Show\x7d \x7bbroken".toList
    let upper := ofSignature (String.ofList (header ++ '\n' :: a)) ⟨0, "", none⟩
    let lower := ofSignature (String.ofList (header ++ '\n' :: b)) ⟨0, "", none⟩
    let whole := ofSignature (String.ofList (header ++ '\n' :: (a ++ '\n' :: b))) ⟨0, "", none⟩
    (∃ c ∈ header, isBlank c = false) ∧ '\n' ∉ header ∧ Block.Closed a ∧ ¬ Block.Closed b ∧
    (whole.base = upper.base ∧ whole.hidden = upper.hidden ∧
      whole.isNamespace = upper.isNamespace) ∧
    whole.options = upper.options ++ lower.options ∧
    ∃ xs ys, upper.subCommands = some xs ∧ lower.subCommands = some ys ∧
      whole.subCommands = some (xs ++ ys) := by
  intro header a b upper lower whole
  have hblank : ∃ c ∈ header, isBlank c = false := ⟨'m', by decide, by decide⟩
  have hn : '\n' ∉ header := by decide
  have ha : Block.Closed a := by decide
  have hb : ¬ Block.Closed b := by decide
  have hnamespace : whole.isNamespace = true := by
    rw [show whole = _ from ofSignature_of_header hblank hn (a ++ '\n' :: b) ⟨0, "", none⟩]
    decide
  obtain ⟨⟨hbase, hhidden, hgathers, -⟩, hoptions, -, hsubs⟩ :=
    ofSignature_append ⟨0, "", none⟩ hblank hn ha b
  exact ⟨hblank, hn, ha, hb, ⟨hbase, hhidden, hgathers⟩, hoptions, hsubs hnamespace⟩

end ConsoleSignature.Command
