import ConsoleSignature.Entry.OfBlock
import ConsoleSignature.Proofs.Text

/-! Entries inside entries. All those inside an entry that was read from a block were so too. -/
namespace ConsoleSignature.Entry

open Text

variable {d e : Entry} {content text b : List Char}

/-- The first entry is the second itself, one of its nested entries, one of theirs, and so on. -/
inductive Within (d : Entry) : Entry → Prop
  | self : Within d d
  | nested {e n : Entry} {ns : List Entry} :
    e.nested = some ns → n ∈ ns → Within d n → Within d e

theorem nested_ofBlock (content : List Char) :
    (ofBlock content).nested = (Parts.ofContent content).nested.map ofBlocks := by
  rw [ofBlock_eq]
  rfl

/-- A nested entry is read from a text shorter than the block it is in. -/
theorem exists_of_mem_nested {ns : List Entry} (h : (ofBlock content).nested = some ns)
    (he : e ∈ ns) : ∃ b, b.length + 2 ≤ content.length ∧ e = ofBlock b := by
  rw [nested_ofBlock, Option.map_eq_some_iff] at h
  obtain ⟨text, ht, rfl⟩ := h
  obtain ⟨b, hb, rfl⟩ := List.mem_map.1 he
  exact ⟨b, length_of_mem_nested ht hb, rfl⟩

theorem eq_ofBlock_of_within (h : Within d (ofBlock content)) : ∃ b, d = ofBlock b := by
  generalize he : ofBlock content = e at h
  induction h generalizing content with
  | self => exact ⟨content, he.symm⟩
  | nested hns hn _ ih =>
    subst he
    obtain ⟨b, -, rfl⟩ := exists_of_mem_nested hns hn
    exact ih rfl

end ConsoleSignature.Entry
