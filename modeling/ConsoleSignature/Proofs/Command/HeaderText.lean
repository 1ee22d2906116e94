import ConsoleSignature.Proofs.Command.Layout
import ConsoleSignature.Proofs.Entry.Qualified
import ConsoleSignature.Proofs.Text.Pieces

/-!
Headers written down again. Whatever the first line of a signature holds, what was read of it can be
put on a line of its own, and that line reads the same.
-/
namespace ConsoleSignature

open Text

variable {c : Char} {line : List Char} {h : Header}

namespace Header

/-- One marker, the name, and one colon for a namespace. -/
def text (h : Header) : List Char :=
  (if h.hidden then ['#'] else []) ++ (h.base ++ if h.isNamespace then [':'] else [])

/-- Some line says this. -/
structure Readable (h : Header) : Prop where
  base : ∀ c ∈ h.base, isNameChar c
  colon : h.isNamespace = false → h.base.getLast? ≠ some ':'

theorem isNameChar_iff : isNameChar c ↔ c.isAlphanum ∨ c = '_' ∨ c = ':' ∨ c = '-' := by
  simp [isNameChar, or_assoc]

theorem isBlank_of_isNameChar (hc : isNameChar c) : isBlank c = false := by
  by_contra h
  simp [Command.isNameChar_of_isBlank (by simpa using h)] at hc

theorem isMarker_of_isNameChar (hc : isNameChar c) : Entry.isMarker c = false := by
  rw [Entry.isMarker_eq_false_iff]
  constructor <;> rintro rfl <;> simp [isNameChar] at hc

theorem readable_ofLine (line : List Char) : (ofLine line).Readable := by
  have hname : ∀ c ∈ nameChars line, isNameChar c := fun c hc => (List.mem_filter.1 hc).2
  constructor
  · intro c hc
    simp only [ofLine] at hc
    split at hc
    · exact hname c (List.dropLast_subset _ hc)
    · exact hname c hc
  · intro hn
    have hlast : (nameChars line).getLast? ≠ some ':' := by simpa [ofLine] using hn
    simp [ofLine, hlast]

theorem Readable.name (hr : h.Readable) :
    ∀ c ∈ h.base ++ (if h.isNamespace then [':'] else []), isNameChar c := by
  intro c hc
  rcases List.mem_append.1 hc with hc | hc
  · exact hr.base c hc
  · split at hc
    · obtain rfl : c = ':' := by simpa using hc
      decide
    · simp at hc

theorem mem_text (hr : h.Readable) (hc : c ∈ h.text) : c = '#' ∨ isNameChar c := by
  rcases List.mem_append.1 hc with hc | hc
  · split at hc
    · exact Or.inl (by simpa using hc)
    · simp at hc
  · exact Or.inr (hr.name c hc)

theorem nameChars_text (hr : h.Readable) :
    nameChars h.text = h.base ++ if h.isNamespace then [':'] else [] := by
  have hopen : ∀ c ∈ h.text, (c != '{') = true := by
    intro c hc
    rcases mem_text hr hc with rfl | hc
    · decide
    · by_contra hne
      obtain rfl : c = '{' := by simpa using hne
      simp [isNameChar] at hc
  have hmark : (if h.hidden then ['#'] else []).filter isNameChar = [] := by
    split <;> decide
  rw [nameChars, List.takeWhile_eq_self_iff.2 hopen, text, List.filter_append, hmark,
    List.nil_append, List.filter_eq_self.2 hr.name]

/-- A header is read back from its own text. -/
theorem ofLine_text (hr : h.Readable) : ofLine h.text = h := by
  have hnamespace : ((nameChars h.text).getLast? == some ':') = h.isNamespace := by
    rw [nameChars_text hr]
    cases hn : h.isNamespace with
    | true => simp
    | false => simpa using hr.colon hn
  have hbase : (if h.isNamespace then (nameChars h.text).dropLast else nameChars h.text) =
      h.base := by
    rw [nameChars_text hr]
    split <;> simp
  have hhidden : (h.text.head?.any Entry.isMarker || (Entry.cutQualified? h.text).isSome) =
      h.hidden := by
    cases hh : h.hidden with
    | true => simp [text, hh, Entry.isMarker]
    | false =>
      -- Names have no marker characters, so that a colon inside one is never a qualifier.
      have hunmarked : ∀ c ∈ h.text, Entry.isMarker c = false := by
        intro c hc
        rw [text, hh] at hc
        exact isMarker_of_isNameChar (hr.name c (by simpa using hc))
      have hqualified := Entry.cutQualified?_eq_none_iff.2
        (Entry.not_qualified_of_unmarked hunmarked)
      rw [hqualified, Option.isSome_none, Bool.or_false, Option.any_eq_false]
      intro c hc
      simp [hunmarked c (List.mem_of_head? hc)]
  simp only [ofLine, hnamespace, hbase, hhidden]

theorem lines_text (hr : h.Readable) :
    Command.lines h.text = if h.text = [] then [] else [h.text] := by
  have hblank : ∀ c ∈ h.text, isBlank c = false := by
    intro c hc
    rcases mem_text hr hc with rfl | hc
    · decide
    · exact isBlank_of_isNameChar hc
  have hbreak : '\n' ∉ h.text := fun hm => absurd (hblank '\n' hm) (by decide)
  rw [Command.lines, pieces_of_not_mem hbreak, trim_eq_self (trimmed_of_forall hblank)]

end Header

namespace Command

def header (c : Command) : Header := ⟨c.base.toList, c.hidden, c.isNamespace⟩

theorem header_ofEntries (h : Header) (es : List Entry) (handler : Handler) :
    (ofEntries h es handler).header = h := by
  simp [header, ofEntries]

/-- Some header was read from a signature, if it is blank that of no name. -/
theorem exists_header (signature : String) (handler : Handler) :
    ∃ h es, h.Readable ∧ ofSignature signature handler = ofEntries h es handler := by
  cases hlines : lines signature.toList with
  | nil => exact ⟨⟨[], false, false⟩, [], ⟨by simp, by simp⟩, by rw [ofSignature, hlines]; rfl⟩
  | cons line body =>
    exact ⟨_, _, Header.readable_ofLine line, by rw [ofSignature, hlines]⟩

theorem ofSignature_text (hr : h.Readable) (handler : Handler) :
    ofSignature (String.ofList h.text) handler = ofEntries h [] handler := by
  have hnone : Entry.ofBlocks ([' '].intercalate []) = [] := by
    rw [List.intercalate_nil, Entry.ofBlocks, Block.extract, List.map_nil]
  rw [ofSignature, String.toList_ofList, Header.lines_text hr]
  by_cases hnil : h.text = []
  · obtain rfl : h = ⟨[], false, false⟩ := (Header.ofLine_text hr).symm.trans (by rw [hnil]; rfl)
    rfl
  · rw [if_neg hnil]
    change ofEntries (Header.ofLine h.text) (Entry.ofBlocks ([' '].intercalate [])) handler = _
    rw [Header.ofLine_text hr, hnone]

/-- The header of a compiled command compiles to itself, without entries. Its name has no other
characters than those of names, and ends in a colon only in a namespace. -/
theorem ofSignature_headerText (signature : String) (handler : Handler) :
    let c := ofSignature signature handler
    ofSignature (String.ofList c.header.text) handler =
      { c with options := [], subCommands := if c.isNamespace then some [] else none } ∧
    (∀ x ∈ c.base.toList, x.isAlphanum ∨ x = '_' ∨ x = ':' ∨ x = '-') ∧
    (c.isNamespace = false → c.base.toList.getLast? ≠ some ':') := by
  intro c
  obtain ⟨h, es, hr, hc⟩ : ∃ h es, h.Readable ∧ c = ofEntries h es handler :=
    exists_header signature handler
  have hheader : c.header = h := by rw [hc, header_ofEntries]
  have hbase : c.base.toList = h.base := by rw [← hheader, header]
  have hnamespace : c.isNamespace = h.isNamespace := by rw [← hheader, header]
  refine ⟨?_, ?_, ?_⟩
  · rw [hheader, ofSignature_text hr, hc]
    cases hn : h.isNamespace <;> simp [ofEntries, hn]
  · intro x hx
    rw [hbase] at hx
    exact Header.isNameChar_iff.1 (hr.base x hx)
  · intro hn
    rw [hnamespace] at hn
    rw [hbase]
    exact hr.colon hn

theorem ofSignature_headerText_run :
    let s := " \n\t^ db:: é.run! \x7bx:#y\x7d :\r\n\x7b--dry : Try : a, b\x7d \x7bto\x7d".toList
    let c := ofSignature (String.ofList s) ⟨0, "", none⟩
    c.header = ⟨"db::run".toList, true, false⟩ ∧ c.isNamespace = false ∧
    ofSignature (String.ofList "#db::run".toList) ⟨0, "", none⟩ =
      { c with options := [], subCommands := none } ∧
    c.base.toList.getLast? ≠ some ':' := by
  intro s c
  have hlines : lines s =
      ["^ db:: é.run! \x7bx:#y\x7d :".toList, "\x7b--dry : Try : a, b\x7d \x7bto\x7d".toList] := by
    decide
  have hline : Header.ofLine "^ db:: é.run! \x7bx:#y\x7d :".toList =
      ⟨"db::run".toList, true, false⟩ := by decide
  have hheader : c.header = ⟨"db::run".toList, true, false⟩ := by
    simp only [c, ofSignature, String.toList_ofList, hlines, header_ofEntries, hline]
  have hnamespace : c.isNamespace = false := congrArg Header.isNamespace hheader
  have hsubs : (if c.isNamespace then some [] else none) = (none : Option (List Entry)) := by
    rw [hnamespace]
    rfl
  obtain ⟨hfixed, -, hcolon⟩ : _ ∧ _ ∧ (c.isNamespace = false → _) :=
    ofSignature_headerText (String.ofList s) ⟨0, "", none⟩
  refine ⟨hheader, hnamespace, ?_, hcolon hnamespace⟩
  rw [← hsubs, ← hfixed, show ofSignature (String.ofList s) ⟨0, "", none⟩ = c from rfl, hheader]
  rfl

end Command

end ConsoleSignature
