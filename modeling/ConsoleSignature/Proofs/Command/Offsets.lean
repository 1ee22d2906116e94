import ConsoleSignature.Proofs.Block.Offsets
import ConsoleSignature.Proofs.Command.Layout
import ConsoleSignature.Proofs.Entry.Extent
import ConsoleSignature.Proofs.Entry.Qualified

/-!
Signatures read by offsets. Markers, braces and blocks are searched for among the bytes of a text,
and the text is cut where they are found. No cut goes through a character, and what is read is what
a search among the characters reads.
-/
namespace ConsoleSignature

open Text

namespace Entry

section Search

variable {α : Type} [DecidableEq α] (E : Encoding α)

/-- The offset of the first colon that a marker follows. -/
def qualifiedAt? : List α → Option Nat
  | a :: b :: r =>
    if a = E.mark ':' ∧ (b = E.mark '#' ∨ b = E.mark '^') then some 0
    else (qualifiedAt? (b :: r)).map (· + 1)
  | _ => none

def Marking.ofText? (s : List Char) : Option Marking := do
  let shared := s.head? == some '^'
  let colon := qualifiedAt? E (E.encode s)
  let text ← match s, colon with
    | '#' :: r, _ | '^' :: r, _ => some (trimStart r)
    | _, some i => E.without? s (i + 1) (i + 2)
    | _, none => some s
  return { text, hidden := !shared && (s.head? == some '#' || colon.isSome), shared }

/-- Takes a block apart whose marker is off. -/
def Parts.ofMarking (marking : Marking) : Parts :=
  let (name, remainder) := cut ':' marking.text
  let split := remainder.map fun r => cut '|' (trim r)
  { hidden := marking.hidden
    shared := marking.shared
    name := trim name
    description := split.map fun (d, _) => trim d
    nested := split.bind fun (_, n) => n.map rewrapped }

/-- Reads a block with no more than `fuel` blocks inside each other. -/
def ofBlockAt? : Nat → List Char → Option Entry
  | 0, _ => none
  | fuel + 1, content => do
    let marking ← Marking.ofText? E (trim content)
    let parts := Parts.ofMarking marking
    match parts.nested with
    | none => return parts.entry none
    | some text =>
      let bs ← Block.extract? E text
      let es ← bs.mapM (ofBlockAt? fuel)
      return parts.entry (some es)

end Search

variable {α : Type} [DecidableEq α] {E : Encoding α} {xs ys : List α} {s : List Char} {i : Nat}

theorem qualifiedAt?_cons (a : α) (r : List α) :
    qualifiedAt? E (a :: r) =
      if a = E.mark ':' ∧ (r.head? = some (E.mark '#') ∨ r.head? = some (E.mark '^')) then some 0
      else (qualifiedAt? E r).map (· + 1) := by
  cases r with
  | nil => simp [qualifiedAt?]
  | cons b r => simp [qualifiedAt?]

theorem qualifiedAt?_append (h : ∀ a ∈ xs, a ≠ E.mark ':') (ys : List α) :
    qualifiedAt? E (xs ++ ys) = (qualifiedAt? E ys).map (· + xs.length) := by
  induction xs with
  | nil => simp
  | cons a xs ih =>
    rw [List.forall_mem_cons] at h
    rw [List.cons_append, qualifiedAt?_cons, if_neg (fun hc => h.1 hc.1), ih h.2, Option.map_map]
    rfl

theorem cutQualified?_cons (c : Char) (s : List Char) :
    cutQualified? (c :: s) =
      if c = ':' ∧ (s.head? = some '#' ∨ s.head? = some '^') then some ([c], s.tail)
      else (cutQualified? s).map (Prod.map (c :: ·) id) := by
  cases s with
  | nil => simp [cutQualified?]
  | cons m s => simp [cutQualified?, isMarker]

/-- The offset is that of the end of what stands before the marker, but for the colon. -/
theorem qualifiedAt?_encode (s : List Char) :
    (qualifiedAt? E (E.encode s)).map (· + 1) =
      (cutQualified? s).map fun p => (E.encode p.1).length := by
  induction s with
  | nil => rfl
  | cons c s ih =>
    by_cases hc : c = ':'
    · subst hc
      rw [E.encode_cons_ascii (by decide), qualifiedAt?_cons, cutQualified?_cons]
      simp only [Encoding.head?_encode_iff (show '#'.toNat < 128 by decide),
        Encoding.head?_encode_iff (show '^'.toNat < 128 by decide), true_and]
      split
      · simp [Encoding.encode, E.symbols_of_ascii ':' (by decide)]
      · simp only [ih, Option.map_map]
        congr 1
        funext p
        simp [E.encode_cons_ascii (c := ':') (by decide)]
    · -- No symbol of another character is a colon, so that the search passes over all of them.
      have hsymbols : ∀ a ∈ E.symbols c, a ≠ E.mark ':' :=
        fun a ha => Encoding.ne_mark_of_mem_symbols (by decide) hc ha
      have hcomm (found : Option Nat) (k : Nat) :
          (found.map (· + k)).map (· + 1) = (found.map (· + 1)).map (· + k) := by
        simp [Function.comp_def, Nat.add_right_comm]
      rw [Encoding.encode_cons, qualifiedAt?_append hsymbols, cutQualified?_cons,
        if_neg (fun h => hc h.1), hcomm, ih]
      simp [Function.comp_def, Encoding.encode_cons, Nat.add_comm]

theorem ascii_of_isMarker {m : Char} (h : isMarker m) : m.toNat < 128 := by
  have hmarker : m = '#' ∨ m = '^' := by simpa [isMarker] using h
  rcases hmarker with rfl | rfl <;> decide

/-- The marker that is found is the next character behind the colon. -/
theorem exists_of_qualifiedAt? (h : qualifiedAt? E (E.encode s) = some i) :
    ∃ a m b, s = a ++ [m] ++ b ∧ cutQualified? s = some (a, b) ∧
      i + 1 = (E.encode a).length ∧ i + 2 = (E.encode (a ++ [m])).length := by
  have hfound := qualifiedAt?_encode (E := E) s
  rw [h, Option.map_some, eq_comm, Option.map_eq_some_iff] at hfound
  obtain ⟨⟨a, b⟩, hab, hlength⟩ := hfound
  obtain ⟨m, hm, rfl⟩ := eq_of_cutQualified? hab
  refine ⟨a, m, b, by simp, hab, hlength.symm, ?_⟩
  rw [Encoding.length_encode_concat a (ascii_of_isMarker hm), hlength]

theorem isSome_qualifiedAt? (s : List Char) :
    (qualifiedAt? E (E.encode s)).isSome = (cutQualified? s).isSome := by
  have h := congrArg Option.isSome (qualifiedAt?_encode (E := E) s)
  rwa [Option.isSome_map, Option.isSome_map] at h

theorem Marking.ofText?_eq (s : List Char) : Marking.ofText? E s = some (Marking.ofText s) := by
  have hsome := isSome_qualifiedAt? (E := E) s
  cases hcolon : qualifiedAt? E (E.encode s) with
  | none =>
    have hcut : cutQualified? s = none := by simpa [hcolon] using hsome.symm
    simp only [Marking.ofText?, Marking.ofText, hcolon, hcut]
    split
    · rfl
    · rfl
    · contradiction
    · simp_all
  | some i =>
    obtain ⟨a, m, b, hs, hcut, hleft, hright⟩ := exists_of_qualifiedAt? hcolon
    have htext : E.without? s (i + 1) (i + 2) = some (a ++ b) := by
      rw [hs, hleft, hright]
      exact Encoding.without?_append a [m] b
    simp only [Marking.ofText?, Marking.ofText, hcolon, hcut]
    split
    · rfl
    · rfl
    · simp_all
    · contradiction

theorem ofBlockAt?_eq (fuel : Nat) (content : List Char) :
    ofBlockAt? E fuel content = ofBlockWithin? fuel content := by
  induction fuel generalizing content with
  | zero => rfl
  | succ fuel ih =>
    have hparts : Parts.ofMarking (Marking.ofText (trim content)) = Parts.ofContent content := rfl
    rw [ofBlockAt?, ofBlockWithin?, Marking.ofText?_eq, nestedBlocks?]
    simp only [Option.bind_eq_bind, Option.bind_some, hparts]
    cases (Parts.ofContent content).nested with
    | none => rfl
    | some text =>
      simp only [Block.extract?_eq, Option.bind_some, Option.map_some, funext ih]
      cases (Block.extract text).mapM (ofBlockWithin? fuel) <;> rfl

end Entry

section Search

variable {α : Type} [DecidableEq α] (E : Encoding α)

namespace Header

/-- The offset of the first opening brace. -/
def braceAt? (xs : List α) : Option Nat := xs.findIdx? (· = E.mark '{')

/-- The line up to its first opening brace. -/
def beforeBrace? (line : List Char) : Option (List Char) :=
  match braceAt? E (E.encode line) with
  | some i => E.slice? line 0 i
  | none => some line

def ofLine? (line : List Char) : Option Header := do
  let head ← beforeBrace? E line
  let chars := (trim head).filter isNameChar
  let isNamespace := chars.getLast? == some ':'
  return {
    base := if isNamespace then chars.dropLast else chars
    hidden := line.head?.any Entry.isMarker || (Entry.qualifiedAt? E (E.encode line)).isSome
    isNamespace }

end Header

def Command.ofSignature? (signature : String) (handler : Handler) : Option Command :=
  match lines signature.toList with
  | [] => some (bare "" handler)
  | line :: body => do
    let header ← Header.ofLine? E line
    let bs ← Block.extract? E ([' '].intercalate body)
    let es ← bs.mapM fun b => Entry.ofBlockAt? E (b.length + 1) b
    return ofEntries header es handler

end Search

variable {α : Type} [DecidableEq α] {E : Encoding α} {line : List Char} {i : Nat}

namespace Header

theorem braceAt?_of_not_mem (h : '{' ∉ line) : braceAt? E (E.encode line) = none := by
  rw [braceAt?, List.findIdx?_eq_none_iff]
  intro a ha
  rw [decide_eq_false_iff_not]
  rintro rfl
  exact h ((Encoding.mark_mem_encode_iff (by decide)).1 ha)

theorem braceAt?_append (h : '{' ∉ line) (r : List Char) :
    braceAt? E (E.encode (line ++ '{' :: r)) = some (E.encode line).length := by
  have hnone : (E.encode line).findIdx? (· = E.mark '{') = none := braceAt?_of_not_mem h
  rw [braceAt?, Encoding.encode_append, E.encode_cons_ascii (by decide), List.findIdx?_append,
    hnone, List.findIdx?_cons]
  simp

/-- The brace that is found ends the part of the line that has none. -/
theorem around_of_braceAt? (h : braceAt? E (E.encode line) = some i) :
    E.Around line (0, i) (cut '{' line).1 := by
  rcases eq_or_append_of_sep '{' line with hno | ⟨l, r, rfl, hl⟩
  · simp [braceAt?_of_not_mem hno] at h
  · rw [braceAt?_append hl, Option.some.injEq] at h
    rw [cut_append hl]
    exact h ▸ Encoding.around_left l ('{' :: r)

theorem beforeBrace?_eq (line : List Char) : beforeBrace? E line = some (cut '{' line).1 := by
  cases hi : braceAt? E (E.encode line) with
  | some i =>
    rw [beforeBrace?, hi]
    exact (around_of_braceAt? hi).slice?
  | none =>
    rcases eq_or_append_of_sep '{' line with hno | ⟨l, r, rfl, hl⟩
    · rw [beforeBrace?, hi, cut_eq_self hno]
    · simp [braceAt?_append hl] at hi

theorem ofLine?_eq (line : List Char) : ofLine? E line = some (ofLine line) := by
  have hname : (trim (cut '{' line).1).filter isNameChar = nameChars line :=
    filter_trim (fun c => Command.isNameChar_of_isBlank) _
  rw [ofLine?, beforeBrace?_eq]
  simp only [Option.bind_eq_bind, Option.bind_some, hname, Entry.isSome_qualifiedAt?]
  rfl

end Header

theorem Command.ofSignature?_eq (signature : String) (handler : Handler) :
    ofSignature? E signature handler = some (ofSignature signature handler) := by
  unfold ofSignature? ofSignature
  cases lines signature.toList with
  | nil => rfl
  | cons line body =>
    have hread : ((Block.extract ([' '].intercalate body)).mapM fun b =>
        Entry.ofBlockAt? E (b.length + 1) b) = some (Entry.ofBlocks ([' '].intercalate body)) := by
      apply mapM_eq_some_map
      intro b _
      rw [Entry.ofBlockAt?_eq]
      exact Entry.ofBlockWithin?_of_count_lt _ (Nat.lt_succ_of_le List.count_le_length)
    simp [Header.ofLine?_eq, Block.extract?_eq, hread]

/-- No cut of a text at what was found among its symbols goes through a character. -/
structure CutsBetweenCharacters (E : Encoding α) : Prop where
  blocks : ∀ t, ∀ r ∈ Block.ranges E (E.encode t) 0, E.IsSlice t r.1 r.2
  marker : ∀ s i, Entry.qualifiedAt? E (E.encode s) = some i →
    E.IsSlice s 0 (i + 1) ∧ E.IsSlice s (i + 2) (E.encode s).length
  brace : ∀ line i, Header.braceAt? E (E.encode line) = some i → E.IsSlice line 0 i

/-- All that is read by symbols is there, and it is what is read by characters. -/
structure ReadsCharacters (E : Encoding α) : Prop where
  blocks : ∀ t, Block.extract? E t = some (Block.extract t)
  marking : ∀ s, Entry.Marking.ofText? E s = some (Entry.Marking.ofText s)
  header : ∀ line, Header.ofLine? E line = some (Header.ofLine line)
  command : ∀ signature handler, Command.ofSignature? E signature handler =
    some (Command.ofSignature signature handler)

theorem cutsBetweenCharacters (E : Encoding α) : CutsBetweenCharacters E where
  blocks := Block.isSlice_of_mem_ranges
  marker s i h := by
    obtain ⟨a, m, b, rfl, -, hleft, hright⟩ := Entry.exists_of_qualifiedAt? h
    rw [hleft, hright]
    refine ⟨?_, (Encoding.around_right (a ++ [m]) b).isSlice⟩
    rw [List.append_assoc]
    exact (Encoding.around_left a ([m] ++ b)).isSlice
  brace _ _ h := (Header.around_of_braceAt? h).isSlice

theorem readsCharacters (E : Encoding α) : ReadsCharacters E where
  blocks := Block.extract?_eq
  marking := Entry.Marking.ofText?_eq
  header := Header.ofLine?_eq
  command := Command.ofSignature?_eq

/-- Read by its bytes, a signature is cut between characters only, so that no cut fails; and it
reads as it does by its code points, which is how `Command.ofSignature` reads it. -/
theorem bytes_read_as_characters :
    CutsBetweenCharacters .utf8 ∧ ReadsCharacters .utf8 ∧ ReadsCharacters .points :=
  ⟨cutsBetweenCharacters _, readsCharacters _, readsCharacters _⟩

theorem bytes_read_as_characters_naive :
    let text := "é\x7bnaïve\x7d✓".toList
    let block := "où:#déjà".toList
    let bytes (s : List Char) := Encoding.utf8.encode s
    Block.ranges .utf8 (bytes text) 0 = [(3, 9)] ∧ Encoding.utf8.IsSlice text 3 9 ∧
    Block.extract? .utf8 text = some ["naïve".toList] ∧
    Entry.qualifiedAt? .utf8 (bytes block) = some 3 ∧ Encoding.utf8.IsSlice block 0 4 ∧
    Encoding.utf8.IsSlice block 5 (bytes block).length ∧
    Entry.Marking.ofText? .utf8 block = some ⟨"où:déjà".toList, true, false⟩ ∧
    Header.braceAt? .utf8 (bytes text) = some 2 ∧ Encoding.utf8.IsSlice text 0 2 := by
  intro text block bytes
  have hranges : Block.ranges .utf8 (bytes text) 0 = [(3, 9)] := by decide +kernel
  have hmarker : Entry.qualifiedAt? .utf8 (bytes block) = some 3 := by decide
  have hbrace : Header.braceAt? .utf8 (bytes text) = some 2 := by decide
  have hblocks : Block.extract text = ["naïve".toList] := by
    rw [show text = 'é' :: ('{' :: "naïve".toList ++ '}' :: ['✓']) from rfl,
      Block.extract_cons (by decide), Block.extract_block (by decide),
      Block.extract_cons (by decide), Block.extract]
  have hmem : ((3, 9) : Nat × Nat) ∈ Block.ranges .utf8 (bytes text) 0 := by
    rw [hranges]
    exact List.mem_singleton_self _
  obtain ⟨hcuts, hreads, -⟩ := bytes_read_as_characters
  obtain ⟨hbefore, hafter⟩ := hcuts.marker block 3 hmarker
  refine ⟨hranges, hcuts.blocks text _ hmem, ?_, hmarker, hbefore, hafter, hreads.marking block,
    hbrace, hcuts.brace text 2 hbrace⟩
  rw [hreads.blocks, hblocks]

end ConsoleSignature
