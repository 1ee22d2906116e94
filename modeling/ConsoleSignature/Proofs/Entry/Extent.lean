import Mathlib
import ConsoleSignature.Proofs.Block.WellShaped
import ConsoleSignature.Proofs.Entry.Within
import ConsoleSignature.Proofs.Sequence

/-!
How deep and how large the entry of a block can get. The text of the nested blocks gets new braces
before it is read again; the colon and the bar before it, which are not, make up for them.
-/
namespace ConsoleSignature

open Text

open scoped List

variable {n : Nat} {b content s text : List Char} {e : Entry} {es : List Entry}

namespace Block

theorem isInfix_of_mem_extract (h : b ∈ extract s) : b <:+: s := by
  fun_induction extract s with
  | case1 => simp at h
  | case2 r b' rest hb ih =>
    obtain rfl := eq_append_of_body? hb
    rcases List.mem_cons.1 h with rfl | h
    · exact ⟨['{'], '}' :: rest, by simp⟩
    · have hrest : rest <:+ '{' :: (b' ++ '}' :: rest) := ⟨'{' :: (b' ++ ['}']), by simp⟩
      exact (ih h).trans hrest.isInfix
  | case3 r hb ih => exact (ih h).trans (List.suffix_cons '{' r).isInfix
  | case4 c r hc ih => exact (ih h).trans (List.suffix_cons c r).isInfix

/-- Blocks do not overlap, nor do their braces. -/
theorem sum_length_extract_le (s : List Char) :
    ((extract s).map fun b => b.length + 2).sum ≤ s.length := by
  fun_induction extract s with
  | case1 => simp
  | case2 r b rest hb ih =>
    have hlength := length_of_body? hb
    simp only [List.map_cons, List.sum_cons, List.length_cons]
    omega
  | case3 r hb ih =>
    rw [List.length_cons]
    omega
  | case4 c r hc ih =>
    rw [List.length_cons]
    omega

end Block

namespace Entry

mutual

/-- How many lists of entries, be they empty, are nested in each other. -/
def depth : Entry → Nat
  | ⟨_, _, _, _, _, _, _, _, _, _, _, nested⟩ => depthNested nested

def depthNested : Option (List Entry) → Nat
  | none => 0
  | some es => depthAll es + 1

def depthAll : List Entry → Nat
  | [] => 0
  | e :: es => max e.depth (depthAll es)

end

mutual

/-- How many entries there are in an entry at all levels, with itself. -/
def size : Entry → Nat
  | ⟨_, _, _, _, _, _, _, _, _, _, _, nested⟩ => sizeNested nested + 1

def sizeNested : Option (List Entry) → Nat
  | none => 0
  | some es => sizeAll es

def sizeAll : List Entry → Nat
  | [] => 0
  | e :: es => e.size + sizeAll es

end

theorem depthAll_le_iff : depthAll es ≤ n ↔ ∀ e ∈ es, e.depth ≤ n := by
  induction es with
  | nil => simp [depthAll]
  | cons e es ih => simp [depthAll, ih]

theorem sizeAll_eq_sum (es : List Entry) : sizeAll es = (es.map size).sum := by
  induction es with
  | nil => rfl
  | cons e es ih => rw [sizeAll, ih, List.map_cons, List.sum_cons]

theorem marking_sublist (s : List Char) : (Marking.ofText s).text <+ s := by
  have hstart (c : Char) (r : List Char) : trimStart r <+ c :: r :=
    (List.dropWhile_sublist isBlank).trans (List.sublist_cons_self c r)
  simp only [Marking.ofText]
  split
  · exact hstart _ _
  · exact hstart _ _
  · obtain ⟨m, -, rfl⟩ := eq_of_cutQualified? ‹_›
    exact (List.sublist_cons_self m _).append_left _
  · exact List.Sublist.refl _

theorem exists_rewrapped (s : List Char) :
    ∃ inner, rewrapped s = '{' :: inner ++ ['}'] ∧ inner <+ s := by
  have htrim : trim s <+ s := (trim_isInfix s).sublist
  unfold rewrapped
  split
  · rename_i r hr
    have hinner : r <+ s := (List.sublist_cons_self '{' r).trans (hr ▸ htrim)
    exact ⟨trim r, rfl, (trim_isInfix r).sublist.trans hinner⟩
  · exact ⟨trim s, rfl, htrim⟩

theorem sublist_of_cut_snd {sep : Char} {r : List Char} (h : (cut sep s).2 = some r) :
    sep :: r <+ s := by
  rw [eq_append_of_snd_some h]
  exact List.sublist_append_right _ _

/-- What nested blocks are read from, its braces apart, stands in the block behind a colon and a
bar. -/
theorem exists_inner_of_nested (h : (Parts.ofContent content).nested = some text) :
    ∃ inner, text = '{' :: inner ++ ['}'] ∧ ':' :: '|' :: inner <+ content := by
  simp only [Parts.ofContent, Option.bind_eq_some_iff, Option.map_eq_some_iff] at h
  obtain ⟨_, ⟨r, hr, rfl⟩, m, hm, rfl⟩ := h
  obtain ⟨inner, hinner, hsub⟩ := exists_rewrapped m
  refine ⟨inner, hinner, ?_⟩
  have hbar : '|' :: inner <+ r := calc
    '|' :: inner <+ '|' :: m := hsub.cons_cons '|'
    _ <+ trim r := sublist_of_cut_snd hm
    _ <+ r := (trim_isInfix r).sublist
  calc ':' :: '|' :: inner <+ ':' :: r := hbar.cons_cons ':'
    _ <+ (Marking.ofText (trim content)).text := sublist_of_cut_snd hr
    _ <+ trim content := marking_sublist _
    _ <+ content := (trim_isInfix content).sublist

/-- The blocks that are read for the entries inside a block. -/
def nestedBlocks? (content : List Char) : Option (List (List Char)) :=
  (Parts.ofContent content).nested.map Block.extract

/-- Reads a block as `ofBlock` does, but gives up where more blocks than the fuel allows are being
read one inside the other. -/
def ofBlockWithin? : Nat → List Char → Option Entry
  | 0, _ => none
  | fuel + 1, content =>
    match nestedBlocks? content with
    | none => some ((Parts.ofContent content).entry none)
    | some bs =>
      (bs.mapM (ofBlockWithin? fuel)).map fun es => (Parts.ofContent content).entry (some es)

theorem ofBlock_eq_nestedBlocks? (content : List Char) :
    ofBlock content =
      (Parts.ofContent content).entry ((nestedBlocks? content).map (List.map ofBlock)) := by
  rw [ofBlock_eq, nestedBlocks?, Option.map_map]
  rfl

theorem length_of_mem_nestedBlocks {bs : List (List Char)} (h : nestedBlocks? content = some bs)
    (hb : b ∈ bs) : b.length + 2 ≤ content.length := by
  obtain ⟨text, htext, rfl⟩ := Option.map_eq_some_iff.1 h
  exact length_of_mem_nested htext hb

/-- All nested blocks with their braces are no longer than the block. -/
theorem sum_length_nestedBlocks_le {bs : List (List Char)} (h : nestedBlocks? content = some bs) :
    (bs.map fun b => b.length + 2).sum ≤ content.length := by
  obtain ⟨text, htext, rfl⟩ := Option.map_eq_some_iff.1 h
  exact (Block.sum_length_extract_le text).trans (length_nested_le htext)

/-- One bar is not in what is nested. -/
theorem count_of_mem_nestedBlocks {bs : List (List Char)} (h : nestedBlocks? content = some bs) :
    0 < content.count '|' ∧ ∀ b ∈ bs, b.count '|' < content.count '|' := by
  obtain ⟨text, htext, rfl⟩ := Option.map_eq_some_iff.1 h
  obtain ⟨inner, rfl, hsub⟩ := exists_inner_of_nested htext
  have hcontent := hsub.count_le '|'
  -- The new braces are no bars, so that nothing makes up for the bar before the nested blocks.
  have hbraces : ('{' :: inner ++ ['}']).count '|' = inner.count '|' := by simp
  have hbar : (':' :: '|' :: inner).count '|' = inner.count '|' + 1 := by simp
  refine ⟨by omega, ?_⟩
  intro b hb
  have hin := (Block.isInfix_of_mem_extract hb).sublist.count_le '|'
  omega

/-- Nested blocks are shorter, so that what goes from them to the block goes for all blocks. -/
theorem induction_nestedBlocks {P : List Char → Prop}
    (step : ∀ content, (∀ bs, nestedBlocks? content = some bs → ∀ b ∈ bs, P b) → P content)
    (content : List Char) : P content := by
  induction hn : content.length using Nat.strong_induction_on generalizing content with
  | _ n ih =>
    refine step content fun bs hbs b hb => ih b.length ?_ b rfl
    have := length_of_mem_nestedBlocks hbs hb
    omega

theorem ofBlockWithin?_of_count_lt (fuel : Nat) (h : content.count '|' < fuel) :
    ofBlockWithin? fuel content = some (ofBlock content) := by
  induction fuel generalizing content with
  | zero => omega
  | succ fuel ih =>
    rw [ofBlockWithin?, ofBlock_eq_nestedBlocks?]
    cases hbs : nestedBlocks? content with
    | none => rfl
    | some bs =>
      have hread : bs.mapM (ofBlockWithin? fuel) = some (bs.map ofBlock) := by
        apply mapM_eq_some_map
        intro b hb
        have := (count_of_mem_nestedBlocks hbs).2 b hb
        exact ih (by omega)
      simp [hread]

theorem depth_ofBlock_le (content : List Char) : (ofBlock content).depth ≤ content.count '|' := by
  induction content using induction_nestedBlocks with
  | step content ih =>
    rw [ofBlock_eq_nestedBlocks?, Parts.entry, depth]
    cases hbs : nestedBlocks? content with
    | none => exact Nat.zero_le _
    | some bs =>
      obtain ⟨hpos, hless⟩ := count_of_mem_nestedBlocks hbs
      have hdepths : depthAll (bs.map ofBlock) ≤ content.count '|' - 1 := by
        rw [depthAll_le_iff]
        intro e he
        obtain ⟨b, hb, rfl⟩ := List.mem_map.1 he
        have := ih bs hbs b hb
        have := hless b hb
        omega
      simp only [Option.map_some, depthNested]
      omega

theorem size_ofBlock_le (content : List Char) : (ofBlock content).size ≤ content.length + 1 := by
  induction content using induction_nestedBlocks with
  | step content ih =>
    rw [ofBlock_eq_nestedBlocks?, Parts.entry, size]
    cases hbs : nestedBlocks? content with
    | none => simp [sizeNested]
    | some bs =>
      have hsizes : ((bs.map ofBlock).map size).sum ≤ (bs.map fun b => b.length + 2).sum := by
        rw [List.map_map]
        apply List.sum_le_sum
        intro b hb
        have := ih bs hbs b hb
        simp only [Function.comp_apply]
        omega
      have hlength := sum_length_nestedBlocks_le hbs
      simp only [Option.map_some, sizeNested, sizeAll_eq_sum]
      omega

/-- Reading a block ends: with no more blocks being read one inside the other than it has bars,
besides itself, since each that is read next is shorter than the one it is in. Its entry is no
deeper than that, and made of no more entries than the block has characters, besides itself. -/
theorem ofBlock_extent (content : List Char) :
    (∀ fuel, content.count '|' < fuel → ofBlockWithin? fuel content = some (ofBlock content)) ∧
    (∀ bs, nestedBlocks? content = some bs → ∀ b ∈ bs, b.length + 2 ≤ content.length) ∧
    (ofBlock content).depth ≤ content.count '|' ∧
    (ofBlock content).size ≤ content.length + 1 :=
  ⟨ofBlockWithin?_of_count_lt, fun _ h _ hb => length_of_mem_nestedBlocks h hb,
    depth_ofBlock_le content, size_ofBlock_le content⟩

theorem ofBlock_extent_make :
    let content := "make : Create | \x7bmodel : M | a : b | c\x7d \x7bplan\x7d".toList
    let model := "model : M | a : b | c".toList
    content.count '|' < 4 ∧ nestedBlocks? content = some [model, "plan".toList] ∧
    ofBlockWithin? 4 content = some (ofBlock content) ∧ model.length + 2 ≤ content.length ∧
    (ofBlock content).depth ≤ 3 ∧ (ofBlock content).size ≤ content.length + 1 := by
  intro content model
  have hcount : content.count '|' = 3 := by decide
  have htext : (Parts.ofContent content).nested =
      some ('{' :: model ++ '}' :: ' ' :: ('{' :: "plan".toList ++ '}' :: ['}'])) := by decide
  have hblocks : nestedBlocks? content = some [model, "plan".toList] := by
    rw [nestedBlocks?, htext, Option.map_some, Block.extract_block (by decide),
      Block.extract_cons (by decide), Block.extract_block (by decide),
      Block.extract_cons (by decide), Block.extract]
  obtain ⟨hread, hshorter, hdepth, hsize⟩ := ofBlock_extent content
  rw [hcount] at hread hdepth
  exact ⟨by omega, hblocks, hread 4 (by decide), hshorter _ hblocks model (by simp), hdepth, hsize⟩

end Entry

end ConsoleSignature
