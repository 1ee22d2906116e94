import ConsoleSignature.Entry.OfBlock
import ConsoleSignature.Proofs.Block.WellShaped
import ConsoleSignature.Proofs.Text

/-! Blocks in braces, one after another with some text before each, as they stand in a text or in
the block that nests them. -/
namespace ConsoleSignature.Block

open Text

variable {b w : List Char} {bs : List (List Char × List Char)}

def braced (bs : List (List Char × List Char)) : List Char :=
  bs.flatMap fun (before, b) => before ++ '{' :: b ++ ['}']

theorem braced_cons (w b : List Char) (bs : List (List Char × List Char)) :
    braced ((w, b) :: bs) = w ++ '{' :: (b ++ '}' :: braced bs) := by
  simp [braced]

theorem wellShaped_of_not_mem (hne : b ≠ []) (ho : '{' ∉ b) (hc : '}' ∉ b) : WellShaped b := by
  refine ⟨hne, ?_, ?_⟩
  · intro c h
    have hmem := List.mem_of_head? h
    exact ⟨fun he => ho (he ▸ hmem), fun he => hc (he ▸ hmem)⟩
  · have hbalances := balances_append ho hc (Nat.zero_le 1) []
    rw [List.append_nil] at hbalances
    exact hbalances.2 (balances_nil.2 rfl)

/-- The scan finds the blocks, whatever follows them. -/
theorem extract_braced (h : ∀ x ∈ bs, '{' ∉ x.1 ∧ WellShaped x.2) (r : List Char) :
    extract (braced bs ++ r) = bs.map Prod.snd ++ extract r := by
  induction bs with
  | nil => rfl
  | cons x bs ih =>
    obtain ⟨w, b⟩ := x
    obtain ⟨hw, hb⟩ := h (w, b) (by simp)
    have hblock := extract_block hb (braced bs ++ r)
    have htail := ih fun y hy => h y (List.mem_cons_of_mem _ hy)
    rw [braced_cons, List.append_assoc, extract_append hw]
    simpa [htail] using hblock

theorem getLast_braced (bs : List (List Char × List Char)) :
    ∀ c ∈ (braced bs).getLast?, c = '}' := by
  cases bs using List.reverseRecOn with
  | nil => simp [braced]
  | append_singleton bs x =>
    intro c hc
    have happend : braced (bs ++ [x]) = (braced bs ++ x.1 ++ '{' :: x.2) ++ ['}'] := by
      simp [braced]
    rw [happend, List.getLast?_concat] at hc
    exact (Option.some.inj hc).symm

/-- Nothing is trimmed from the end of a text whose last brace closes a block. -/
theorem trimEnd_braced (s : List Char) (bs : List (List Char × List Char)) :
    trimEnd (s ++ '}' :: braced bs) = s ++ '}' :: braced bs := by
  apply trimEnd_eq_self
  rw [List.append_cons]
  refine forall_getLast_append (by simp [isBlank]) fun c hc => ?_
  rw [getLast_braced bs c hc]
  decide

/-- The first brace goes and comes back, without the blanks behind it. -/
theorem rewrapped_braced (hw : ∀ c ∈ w, isBlank c) (b : List Char)
    (bs : List (List Char × List Char)) :
    Entry.rewrapped (braced ((w, b) :: bs)) = braced (([], trimStart b) :: bs) ++ ['}'] := by
  have hopen : isBlank '{' = false := by decide
  have hclose : isBlank '}' = false := by decide
  have hstart : trimStart w = [] := List.dropWhile_eq_nil_iff.2 hw
  have hend : trimEnd (braced bs) = braced bs := by
    refine trimEnd_eq_self fun c hc => ?_
    rw [getLast_braced bs c hc]
    exact hclose
  have houter : trim (braced ((w, b) :: bs)) = '{' :: (b ++ '}' :: braced bs) := by
    rw [braced_cons, trim_append_cons hopen, hstart, trimEnd_braced, List.nil_append]
  have hinner : trim (b ++ '}' :: braced bs) = trimStart b ++ '}' :: braced bs := by
    rw [trim_append_cons hclose, hend]
  simp only [Entry.rewrapped, houter, hinner]
  simp [braced_cons]

theorem extract_rewrapped_braced (hw : ∀ c ∈ w, isBlank c) (hb : WellShaped (trimStart b))
    (hbs : ∀ x ∈ bs, '{' ∉ x.1 ∧ WellShaped x.2) :
    extract (Entry.rewrapped (braced ((w, b) :: bs))) = trimStart b :: bs.map Prod.snd := by
  have hshape : ∀ x ∈ ([], trimStart b) :: bs, '{' ∉ x.1 ∧ WellShaped x.2 :=
    List.forall_mem_cons.2 ⟨⟨by simp, hb⟩, hbs⟩
  have hclosed : extract ['}'] = [] := by rw [extract_cons (by decide), extract]
  rw [rewrapped_braced hw, extract_braced hshape, hclosed, List.append_nil, List.map_cons]

end ConsoleSignature.Block
