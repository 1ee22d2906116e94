import ConsoleSignature.Proofs.Command.Layout
import ConsoleSignature.Proofs.Entry.Qualified

/-!
The header line from its first brace on. The name ends there, and no block is read from that line;
but a marker behind a colon hides the command wherever in the line it stands.
-/
namespace ConsoleSignature.Command

open Text

variable {header tail s : List Char}

theorem head?_trim_append (hblank : ∃ c ∈ s, isBlank c = false) (t : List Char) :
    (trim (s ++ t)).head? = (trim s).head? := by
  obtain ⟨c, hc, hb⟩ := hblank
  obtain ⟨p, q, rfl⟩ := List.append_of_mem hc
  rw [List.append_assoc, List.cons_append, trim_append_cons hb, trim_append_cons hb,
    List.head?_append, List.head?_append, List.head?_cons, List.head?_cons]

theorem nameChars_brace (hbrace : '{' ∉ header) (tail : List Char) :
    Header.nameChars (trim (header ++ '{' :: tail)) = Header.nameChars (trim header) := by
  have hstart : ∀ c ∈ trimStart header, (c != '{') = true := by
    intro c hc
    simpa using fun h : c = '{' => hbrace (h ▸ (List.dropWhile_sublist isBlank).subset hc)
  have hblanks : ∀ c, isBlank c → Header.isNameChar c = false := fun c => isNameChar_of_isBlank
  rw [nameChars_of_not_mem hbrace, Header.nameChars, trim_append_cons (by decide),
    List.takeWhile_append_of_pos hstart, List.takeWhile_cons_of_neg (by decide), List.append_nil,
    ← filter_trim hblanks, trim_trimStart, filter_trim hblanks]

theorem ofLine_tail (hblank : ∃ c ∈ header, isBlank c = false) (hbrace : '{' ∉ header)
    (tail : List Char) :
    Header.ofLine (trim (header ++ '{' :: tail)) =
      { Header.ofLine (trim header) with
        hidden := (Header.ofLine (trim header)).hidden || decide (Entry.Qualified tail) } := by
  have hopen : ¬ Entry.Qualified ['{'] := by decide
  have hqualified : (Entry.cutQualified? (trim (header ++ '{' :: tail))).isSome =
      ((Entry.cutQualified? (trim header)).isSome || decide (Entry.Qualified tail)) := by
    rw [Bool.eq_iff_iff, Bool.or_eq_true, decide_eq_true_iff, Entry.isSome_cutQualified?_iff,
      Entry.isSome_cutQualified?_iff, Entry.qualified_trim, Entry.qualified_trim,
      Entry.qualified_append (Or.inr (by simp [Entry.isMarker])), ← List.singleton_append,
      Entry.qualified_append (Or.inl (by simp))]
    simp [hopen]
  simp only [Header.ofLine, nameChars_brace hbrace, head?_trim_append hblank, hqualified,
    Bool.or_assoc]

/-- From the first brace of the header line on, text tells no more than whether the command is
hidden: it is where a marker stands behind a colon there. -/
theorem ofSignature_tail (handler : Handler) (body : List Char)
    (hblank : ∃ c ∈ header, isBlank c = false) (hbrace : '{' ∉ header) (hn : '\n' ∉ header)
    (htail : '\n' ∉ tail) :
    let full := ofSignature (String.ofList (header ++ '{' :: tail ++ '\n' :: body)) handler
    let cut := ofSignature (String.ofList (header ++ '\n' :: body)) handler
    full = { cut with hidden := cut.hidden || decide (Entry.Qualified tail) } ∧
      (full = cut ↔ (Entry.Qualified tail → cut.hidden = true)) := by
  intro full cut
  have hlong : '\n' ∉ header ++ '{' :: tail := by simp [hn, htail]
  have hblank' : ∃ c ∈ header ++ '{' :: tail, isBlank c = false :=
    ⟨'{', by simp, by decide⟩
  have hfull : full = { cut with hidden := cut.hidden || decide (Entry.Qualified tail) } := by
    simp only [full, cut, ofSignature, String.toList_ofList, lines_of_header hblank hn,
      lines_of_header hblank' hlong, ofLine_tail hblank hbrace]
    rfl
  refine ⟨hfull, ?_⟩
  constructor
  · intro he hq
    have hhidden := congrArg Command.hidden (hfull.symm.trans he)
    simpa [hq] using hhidden.symm
  · intro h
    have hhidden : (cut.hidden || decide (Entry.Qualified tail)) = cut.hidden := by
      by_cases hq : Entry.Qualified tail
      · simp [h hq]
      · simp [hq]
    rw [hfull, hhidden]

theorem ofSignature_tail_greet :
    let header := " greet ".toList
    let tail := "name? : # or ^\x7d and \x7b\x7d:".toList
    let body := "  \x7b--loud : Shout\x7d".toList
    (∃ c ∈ header, isBlank c = false) ∧ '{' ∉ header ∧ '\n' ∉ header ∧ '\n' ∉ tail ∧
    ofSignature (String.ofList (header ++ '{' :: tail ++ '\n' :: body)) ⟨0, "", none⟩ =
      ofSignature (String.ofList (header ++ '\n' :: body)) ⟨0, "", none⟩ := by
  intro header tail body
  have hblank : ∃ c ∈ header, isBlank c = false := ⟨'g', by decide, by decide⟩
  have hbrace : '{' ∉ header := by decide
  have hn : '\n' ∉ header := by decide
  have htail : '\n' ∉ tail := by decide
  have hplain : ¬ Entry.Qualified tail := by decide
  obtain ⟨-, hiff⟩ := ofSignature_tail ⟨0, "", none⟩ body hblank hbrace hn htail
  exact ⟨hblank, hbrace, hn, htail, hiff.2 fun hq => absurd hq hplain⟩

/-- A block on the header line can hide the command. -/
theorem ofSignature_tail_ne :
    ¬ ∀ header tail body : List Char, (∃ c ∈ header, isBlank c = false) → '{' ∉ header →
      '\n' ∉ header → '\n' ∉ tail → ∀ handler,
        ofSignature (String.ofList (header ++ '{' :: tail ++ '\n' :: body)) handler =
          ofSignature (String.ofList (header ++ '\n' :: body)) handler := by
  intro h
  have hsame := h "greet ".toList "name:#Who\x7d".toList "\x7b--loud : Shout\x7d".toList
    ⟨'g', by decide, by decide⟩ (by decide) (by decide) (by decide) ⟨0, "", none⟩
  have hfull : lines ("greet ".toList ++ '{' :: "name:#Who\x7d".toList ++
      '\n' :: "\x7b--loud : Shout\x7d".toList) =
      ["greet \x7bname:#Who\x7d".toList, "\x7b--loud : Shout\x7d".toList] := by decide
  have hcut : lines ("greet ".toList ++ '\n' :: "\x7b--loud : Shout\x7d".toList) =
      ["greet".toList, "\x7b--loud : Shout\x7d".toList] := by decide
  have hhidden := congrArg Command.hidden hsame
  simp only [ofSignature, String.toList_ofList, hfull, hcut, ofEntries] at hhidden
  exact absurd hhidden (by decide)

end ConsoleSignature.Command
