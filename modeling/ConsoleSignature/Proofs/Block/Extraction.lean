import ConsoleSignature.Proofs.Block.WellShaped

/-! Which blocks are extracted: the one choice of blocks that leaves no block outside of it. -/
namespace ConsoleSignature.Block

/-- A block by its place: where its opening brace stands, and what the braces hold. -/
structure Span where
  start : Nat
  body : List Char

namespace Span

/-- The place right after the closing brace. -/
def stop (x : Span) : Nat := x.start + (x.body.length + 2)

/-- The text has the block at its place. -/
def In (t : List Char) (x : Span) : Prop :=
  WellShaped x.body ∧ '{' :: x.body ++ ['}'] <+: t.drop x.start

def shift (k : Nat) (x : Span) : Span := ⟨k + x.start, x.body⟩

end Span

/-- Blocks of the text from left to right, none overlapping the next, such that no place outside
them starts a block. -/
structure Exhausts (t : List Char) (xs : List Span) : Prop where
  inText : ∀ x ∈ xs, x.In t
  disjoint : xs.Pairwise fun x y => x.stop ≤ y.start
  outside : ∀ i, (∀ x ∈ xs, i < x.start ∨ x.stop ≤ i) → ∀ b, ¬ Span.In t ⟨i, b⟩

variable {c : Char} {k : Nat} {b r t u : List Char} {x : Span} {xs ys zs : List Span}

@[simp]
theorem start_shift (k : Nat) (x : Span) : (x.shift k).start = k + x.start := rfl

@[simp]
theorem stop_shift (k : Nat) (x : Span) : (x.shift k).stop = k + x.stop := by
  simp [Span.shift, Span.stop, Nat.add_assoc]

theorem in_shift : (x.shift u.length).In (u ++ t) ↔ x.In t := by
  have hdrop : (u ++ t).drop (u.length + x.start) = t.drop x.start := by
    rw [← List.drop_drop, List.drop_left]
  simp only [Span.In, Span.shift, hdrop]

theorem in_zero_iff : Span.In t ⟨0, b⟩ ↔ ∃ r, t = '{' :: b ++ '}' :: r ∧ WellShaped b := by
  constructor
  · rintro ⟨hb, r, hr⟩
    exact ⟨r, by simpa using hr.symm, hb⟩
  · rintro ⟨r, rfl, hb⟩
    exact ⟨hb, r, by simp⟩

theorem exists_map_shift (h : ∀ x ∈ xs, k ≤ x.start) :
    ∃ ys : List Span, xs = ys.map (Span.shift k) := by
  refine ⟨xs.map fun x => ⟨x.start - k, x.body⟩, ?_⟩
  rw [List.map_map]
  refine (List.map_id' xs).symm.trans (List.map_congr_left ?_)
  intro x hx
  have := h x hx
  simp [Span.shift, Nat.add_sub_of_le this]

/-- Behind a part of the text with its own blocks, blocks exhaust the rest by itself. -/
theorem exhausts_append_iff (hin : ∀ z ∈ zs, z.In (u ++ t) ∧ z.stop ≤ u.length)
    (hd : zs.Pairwise fun x y => x.stop ≤ y.start)
    (hout : ∀ i < u.length, (∀ z ∈ zs, i < z.start ∨ z.stop ≤ i) →
      ∀ b, ¬ Span.In (u ++ t) ⟨i, b⟩) :
    Exhausts (u ++ t) (zs ++ ys.map (Span.shift u.length)) ↔ Exhausts t ys := by
  constructor
  · intro h
    obtain ⟨-, hys, -⟩ := List.pairwise_append.1 h.disjoint
    refine ⟨?_, ?_, ?_⟩
    · intro y hy
      exact in_shift.1 (h.inText _ (by simpa using Or.inr ⟨y, hy, rfl⟩))
    · refine (List.pairwise_map.1 hys).imp ?_
      intro x y hxy
      simpa using hxy
    · intro i hi b hb
      refine h.outside (u.length + i) ?_ b (in_shift (x := ⟨i, b⟩).2 hb)
      intro x hx
      rcases List.mem_append.1 hx with hx | hx
      · have := (hin x hx).2
        omega
      · obtain ⟨y, hy, rfl⟩ := List.mem_map.1 hx
        have := hi y hy
        rw [start_shift, stop_shift]
        omega
  · intro h
    refine ⟨?_, ?_, ?_⟩
    · intro x hx
      rcases List.mem_append.1 hx with hx | hx
      · exact (hin x hx).1
      · obtain ⟨y, hy, rfl⟩ := List.mem_map.1 hx
        exact in_shift.2 (h.inText y hy)
    · refine List.pairwise_append.2 ⟨hd, ?_, ?_⟩
      · refine List.pairwise_map.2 (h.disjoint.imp ?_)
        intro x y hxy
        simpa using hxy
      · intro z hz x hx
        obtain ⟨y, -, rfl⟩ := List.mem_map.1 hx
        have := (hin z hz).2
        rw [start_shift]
        omega
    · intro i hi b hb
      by_cases hiu : i < u.length
      · exact hout i hiu (fun z hz => hi z (List.mem_append_left _ hz)) b hb
      · obtain ⟨j, rfl⟩ := Nat.exists_eq_add_of_le (Nat.le_of_not_lt hiu)
        refine h.outside j ?_ b (in_shift (x := ⟨j, b⟩).1 hb)
        intro y hy
        have := hi (y.shift u.length) (List.mem_append_right _ (List.mem_map_of_mem hy))
        rw [start_shift, stop_shift] at this
        omega

theorem exhausts_nil_iff : Exhausts [] xs ↔ xs = [] := by
  have hnone (x : Span) : ¬ x.In [] := by
    rintro ⟨-, h⟩
    simp at h
  constructor
  · intro h
    exact List.eq_nil_iff_forall_not_mem.2 fun x hx => hnone x (h.inText x hx)
  · rintro rfl
    exact ⟨by simp, List.Pairwise.nil, fun i _ b => hnone ⟨i, b⟩⟩

/-- A place where no block starts may be passed over. -/
theorem exhausts_cons_iff (h : ∀ b, ¬ Span.In (c :: t) ⟨0, b⟩) :
    Exhausts (c :: t) xs ↔ ∃ ys, Exhausts t ys ∧ xs = ys.map (Span.shift 1) := by
  have happend (ys : List Span) :
      Exhausts (c :: t) (ys.map (Span.shift 1)) ↔ Exhausts t ys := by
    refine @exhausts_append_iff t [c] ys [] (by simp) List.Pairwise.nil ?_
    intro i hi _
    obtain rfl : i = 0 := by simpa using hi
    exact h
  constructor
  · intro hx
    have hpos : ∀ x ∈ xs, 1 ≤ x.start := by
      rintro ⟨_ | n, b⟩ hmem
      · exact (h b (hx.inText _ hmem)).elim
      · exact Nat.le_add_left 1 n
    obtain ⟨ys, rfl⟩ := exists_map_shift hpos
    exact ⟨ys, (happend ys).1 hx, rfl⟩
  · rintro ⟨ys, hy, rfl⟩
    exact (happend ys).2 hy

/-- The first of the blocks that exhaust a text is the one that the text starts with. -/
theorem head_of_exhausts (hb : Span.In t ⟨0, b⟩) (h : Exhausts t xs) :
    ∃ ys, xs = ⟨0, b⟩ :: ys ∧ ∀ y ∈ ys, b.length + 2 ≤ y.start := by
  have hcov : ∃ x ∈ xs, x.start = 0 := by
    by_contra hno
    refine h.outside 0 ?_ b hb
    intro x hx
    exact Or.inl (Nat.pos_of_ne_zero fun he => hno ⟨x, hx, he⟩)
  obtain ⟨x, hx, hzero⟩ := hcov
  cases xs with
  | nil => simp at hx
  | cons y ys =>
    obtain ⟨hy, -⟩ := List.pairwise_cons.1 h.disjoint
    obtain rfl : x = y := by
      rcases List.mem_cons.1 hx with rfl | hx
      · rfl
      · have := hy x hx
        simp only [Span.stop] at this
        omega
    obtain ⟨_, b'⟩ := x
    obtain rfl : _ = 0 := hzero
    obtain ⟨r, rfl, hw⟩ := in_zero_iff.1 hb
    obtain ⟨r', he, hw'⟩ := in_zero_iff.1 (h.inText _ hx)
    obtain ⟨rfl, -⟩ := hw.unique hw' (by simpa using he)
    exact ⟨ys, rfl, by simpa [Span.stop] using hy⟩

theorem exhausts_block_iff (hb : WellShaped b) :
    Exhausts ('{' :: b ++ '}' :: t) xs ↔
      ∃ ys, Exhausts t ys ∧ xs = ⟨0, b⟩ :: ys.map (Span.shift (b.length + 2)) := by
  have hin : Span.In ('{' :: b ++ '}' :: t) ⟨0, b⟩ := in_zero_iff.2 ⟨t, rfl, hb⟩
  have hall : ∀ i < ('{' :: b ++ ['}']).length,
      (∀ z ∈ [Span.mk 0 b], i < z.start ∨ z.stop ≤ i) →
      ∀ b', ¬ Span.In ('{' :: b ++ ['}'] ++ t) ⟨i, b'⟩ := by
    intro i hi hz
    have := hz _ (List.mem_singleton_self _)
    simp only [List.length_append, List.length_cons, List.length_nil, Span.stop] at hi this
    omega
  have happend (ys : List Span) :
      Exhausts ('{' :: b ++ '}' :: t) (⟨0, b⟩ :: ys.map (Span.shift (b.length + 2))) ↔
        Exhausts t ys := by
    have hz : ∀ z ∈ [Span.mk 0 b],
        z.In ('{' :: b ++ ['}'] ++ t) ∧ z.stop ≤ ('{' :: b ++ ['}']).length := by
      simpa [Span.stop] using hin
    simpa using exhausts_append_iff hz (List.pairwise_singleton _ _) hall
  constructor
  · intro hx
    obtain ⟨ys, rfl, hy⟩ := head_of_exhausts hin hx
    obtain ⟨zs, rfl⟩ := exists_map_shift hy
    exact ⟨zs, (happend zs).1 hx, rfl⟩
  · rintro ⟨ys, hy, rfl⟩
    exact (happend ys).2 hy

theorem map_body_shift (k : Nat) (xs : List Span) :
    (xs.map (Span.shift k)).map Span.body = xs.map Span.body := by
  rw [List.map_map]
  rfl

/-- The extracted blocks have places, and no others exhaust the text. -/
theorem exists_exhausts_iff (t : List Char) :
    ∃ xs, extract t = xs.map Span.body ∧ ∀ ys, Exhausts t ys ↔ ys = xs := by
  fun_induction extract t with
  | case1 => exact ⟨[], rfl, fun ys => exhausts_nil_iff⟩
  | case2 r b rest hb ih =>
    obtain ⟨xs, he, hu⟩ := ih
    obtain ⟨rfl, hw⟩ := body?_eq_some_iff.1 hb
    refine ⟨⟨0, b⟩ :: xs.map (Span.shift (b.length + 2)), ?_, ?_⟩
    · rw [List.map_cons, map_body_shift, he]
    · intro ys
      rw [← List.cons_append, exhausts_block_iff hw]
      simp [hu]
  | case3 r hb ih =>
    obtain ⟨xs, he, hu⟩ := ih
    have hno : ∀ b, ¬ Span.In ('{' :: r) ⟨0, b⟩ := by
      intro b h
      obtain ⟨r', hr, hw⟩ := in_zero_iff.1 h
      obtain rfl : r = b ++ '}' :: r' := by simpa using hr
      simp [body?_of_wellShaped hw] at hb
    refine ⟨xs.map (Span.shift 1), by rw [he, map_body_shift], ?_⟩
    intro ys
    rw [exhausts_cons_iff hno]
    simp [hu]
  | case4 c r hc ih =>
    obtain ⟨xs, he, hu⟩ := ih
    have hno : ∀ b, ¬ Span.In (c :: r) ⟨0, b⟩ := by
      intro b h
      obtain ⟨r', hr, -⟩ := in_zero_iff.1 h
      exact hc (by simpa using (List.cons.inj hr).1)
    refine ⟨xs.map (Span.shift 1), by rw [he, map_body_shift], ?_⟩
    intro ys
    rw [exhausts_cons_iff hno]
    simp [hu]

/-- There is exactly one sequence of well-shaped blocks, none overlapping the next, outside of which
no well-shaped block starts; its bodies are what is extracted. -/
theorem extract_eq_bodies (t : List Char) :
    (∃! xs, Exhausts t xs) ∧ ∃ xs, Exhausts t xs ∧ extract t = xs.map Span.body := by
  obtain ⟨xs, he, hu⟩ := exists_exhausts_iff t
  have hx : Exhausts t xs := (hu xs).2 rfl
  exact ⟨⟨xs, hx, fun ys hy => (hu ys).1 hy⟩, xs, hx, he⟩

end ConsoleSignature.Block
