import ConsoleSignature.Block
import ConsoleSignature.Entry.Choices
import ConsoleSignature.Entry.Naming

/-!
The entry that a block declares. No block is refused: what a block lacks is left out of its entry.
A block's nested blocks are shorter than the block itself.
-/
namespace ConsoleSignature.Entry

open Text

def isMarker (c : Char) : Bool := c == '#' || c == '^'

/-- Cuts at the first colon that a marker follows: the text up to that colon and the text after the
marker. -/
def cutQualified? : List Char → Option (List Char × List Char)
  | c :: m :: r =>
    if c = ':' ∧ isMarker m then some ([c], r)
    else (cutQualified? (m :: r)).map (Prod.map (c :: ·) id)
  | _ => none

structure Marking where
  text : List Char
  hidden : Bool
  shared : Bool

/-- Takes the marker off: a leading `^` makes an entry shared; a leading `#`, or either after a
colon, hidden unless it is shared. -/
def Marking.ofText (s : List Char) : Marking :=
  let shared := s.head? == some '^'
  let qualified := cutQualified? s
  { text := match s, qualified with
      | '#' :: r, _ | '^' :: r, _ => trimStart r
      | _, some (a, b) => a ++ b
      | _, none => s
    hidden := !shared && (s.head? == some '#' || qualified.isSome)
    shared }

/-- The text of nested blocks, put into braces of its own; an opening brace before it is dropped, so
that a single nested entry needs no braces. -/
def rewrapped (s : List Char) : List Char :=
  let inner := match trim s with
    | '{' :: r => trim r
    | r => r
  '{' :: inner ++ ['}']

/-- A block taken apart, without a look into its nested blocks. -/
structure Parts where
  hidden : Bool
  shared : Bool
  name : List Char
  description : Option (List Char)
  nested : Option (List Char)

def Parts.ofContent (content : List Char) : Parts :=
  let marking := Marking.ofText (trim content)
  let (name, remainder) := cut ':' marking.text
  let split := remainder.map fun r => cut '|' (trim r)
  { hidden := marking.hidden
    shared := marking.shared
    name := trim name
    description := split.map fun (d, _) => trim d
    nested := split.bind fun (_, n) => n.map rewrapped }

def Parts.entry (p : Parts) (nested : Option (List Entry)) : Entry :=
  let naming := Naming.ofPart p.name
  let described := p.description.map cutChoices
  { name := naming.name
    flags := naming.flags
    isFlag := naming.flags.isSome
    required := naming.required
    multiple := naming.multiple
    placeholder := naming.placeholder
    description := described.bind fun (d, _) =>
      if d.isEmpty then none else some (String.ofList d)
    defaultValue := naming.defaultValue
    choices := (described.map Prod.snd).getD []
    hidden := p.hidden
    shared := p.shared
    nested }

theorem eq_of_cutQualified? {s a b : List Char} (h : cutQualified? s = some (a, b)) :
    ∃ m, isMarker m ∧ s = a ++ m :: b := by
  fun_induction cutQualified? s generalizing a b with
  | case1 c m r hc =>
    obtain ⟨rfl, rfl⟩ : [c] = a ∧ r = b := by simpa using h
    exact ⟨m, hc.2, by simp⟩
  | case2 c m r hc ih =>
    obtain ⟨⟨a', b'⟩, hab, he⟩ := Option.map_eq_some_iff.1 h
    obtain ⟨rfl, rfl⟩ : c :: a' = a ∧ b' = b := by simpa using he
    obtain ⟨x, hx, he⟩ := ih hab
    exact ⟨x, hx, by simp [he]⟩
  | case3 => simp at h

theorem length_marking_le (s : List Char) : (Marking.ofText s).text.length ≤ s.length := by
  simp only [Marking.ofText]
  split
  · exact Nat.le_trans (length_trimStart_le _) (by simp)
  · exact Nat.le_trans (length_trimStart_le _) (by simp)
  · obtain ⟨m, _, he⟩ := eq_of_cutQualified? ‹_›
    simp [he]
  · exact Nat.le_refl _

theorem length_rewrapped_le (s : List Char) : (rewrapped s).length ≤ s.length + 2 := by
  have h := length_trim_le s
  simp only [rewrapped]
  split
  · rename_i r hr
    have := length_trim_le r
    simp only [hr, List.length_cons] at h
    simp
    omega
  · simp
    omega

/-- The text of the nested blocks, braces included, is no longer than the block's own text. -/
theorem length_nested_le {content text : List Char}
    (h : (Parts.ofContent content).nested = some text) : text.length ≤ content.length := by
  simp only [Parts.ofContent, Option.bind_eq_some_iff, Option.map_eq_some_iff] at h
  obtain ⟨_, ⟨r, hr, rfl⟩, n, hn, rfl⟩ := h
  have h1 := length_of_cut_snd hr
  have h2 := length_of_cut_snd hn
  have h3 := length_trim_le r
  have h4 := length_marking_le (trim content)
  have h5 := length_trim_le content
  have h6 := length_rewrapped_le n
  omega

/-- A nested block is shorter by two characters at least. -/
theorem length_of_mem_nested {content text b : List Char}
    (h : (Parts.ofContent content).nested = some text) (hb : b ∈ Block.extract text) :
    b.length + 2 ≤ content.length :=
  Nat.le_trans (Block.length_of_mem_extract hb) (length_nested_le h)

/-- The entry of the block with this content. -/
def ofBlock (content : List Char) : Entry :=
  (Parts.ofContent content).entry
    (match _h : (Parts.ofContent content).nested with
    | none => none
    | some text => some ((Block.extract text).attach.map fun ⟨b, _hb⟩ => ofBlock b))
termination_by content.length
decreasing_by
  have := length_of_mem_nested ‹_› ‹_›
  omega

/-- The entries of all blocks of a text. -/
def ofBlocks (text : List Char) : List Entry := (Block.extract text).map ofBlock

theorem ofBlock_eq (content : List Char) :
    ofBlock content =
      (Parts.ofContent content).entry ((Parts.ofContent content).nested.map ofBlocks) := by
  rw [ofBlock]
  congr 1
  split <;> simp_all [ofBlocks]

end ConsoleSignature.Entry
