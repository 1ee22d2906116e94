import ConsoleSignature.Proofs.Entry.WellFormed

/-!
Compiled namespaces. Their options are flags and their sub-commands are not, and each of these
entries was read from a block.
-/
namespace ConsoleSignature

variable {signature : String} {handler : Handler} {e n : Entry}

namespace Entry

def Compiled (e : Entry) : Prop := ∃ b, e = ofBlock b

theorem Compiled.isFlag (h : e.Compiled) : e.isFlag = !e.isArgument := by
  obtain ⟨b, rfl⟩ := h
  rw [ofBlock_eq]
  simp [Parts.entry, isArgument]

theorem Compiled.nested (h : e.Compiled) (hn : n ∈ e.nested.getD []) : n.Compiled := by
  obtain ⟨b, rfl⟩ := h
  cases hns : (ofBlock b).nested with
  | none => simp [hns] at hn
  | some ns =>
    rw [hns, Option.getD_some] at hn
    obtain ⟨b', -, rfl⟩ := exists_of_mem_nested hns hn
    exact ⟨b', rfl⟩

end Entry

namespace Command

/-- A namespace parts the entries of its blocks. -/
theorem parted_of_namespace (h : (ofSignature signature handler).isNamespace) :
    ∃ es : List Entry, (∀ e ∈ es, e.Compiled) ∧
      (ofSignature signature handler).options = es.filter (!·.isArgument) ∧
      (ofSignature signature handler).subCommands =
        some (es.filter fun e => e.isArgument && !e.hidden) := by
  unfold ofSignature at h ⊢
  split at h
  · simp [bare] at h
  · rename_i header body hlines
    have hnamespace : (Header.ofLine header).isNamespace = true := h
    refine ⟨Entry.ofBlocks ([' '].intercalate body), ?_, ?_, ?_⟩
    · intro e he
      obtain ⟨b, -, rfl⟩ := List.mem_map.1 he
      exact ⟨b, rfl⟩
    · simp [ofEntries, hnamespace]
    · simp [ofEntries, hnamespace]

theorem mem_subCommands_iff {header : List Char} {body : List (List Char)}
    (hlines : lines signature.toList = header :: body)
    (h : (Header.ofLine header).isNamespace) :
    e ∈ (ofSignature signature handler).subCommands.getD [] ↔
      e ∈ Entry.ofBlocks ([' '].intercalate body) ∧ e.isArgument ∧ e.hidden = false := by
  simp [ofSignature, hlines, ofEntries, h]

end Command

end ConsoleSignature
