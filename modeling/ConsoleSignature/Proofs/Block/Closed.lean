import ConsoleSignature.Proofs.Block.WellShaped
import ConsoleSignature.Proofs.Text

/-!
Text in which every opening brace is closed, at whatever depth and whatever closing braces stand
besides. No block that starts in such a text reaches into what follows it, so that blocks are
extracted from the two apart.
-/
namespace ConsoleSignature.Block

open Text

variable {n : Nat} {c : Char} {b b' m q r r' s t : List Char}

/-- Read from the left behind `n` open braces, never fewer than none stand open, and none does in
the end. -/
structure Pairs (n : Nat) (b : List Char) : Prop where
  closed : ∀ p, p <+: b → p.count '}' ≤ p.count '{' + n
  even : b.count '{' + n = b.count '}'

/-- Every opening brace has its closing one: all braces between them match. -/
def Closed (t : List Char) : Prop :=
  ∀ p q, t = p ++ '{' :: q → ∃ m r, q = m ++ '}' :: r ∧ Pairs 0 m

theorem Balances.pairs (h : Balances n b) : Pairs n b := ⟨h.closed, h.even⟩

/-- One character leaves `m` open braces where `n` stood open before. -/
theorem Pairs.cons {m : Nat} (h : [c].count '{' + n = [c].count '}' + m) (hb : Pairs m b) :
    Pairs n (c :: b) where
  closed p hp := by
    rcases List.prefix_cons_iff.1 hp with rfl | ⟨q, rfl, hq⟩
    · simp
    · have := hb.closed q hq
      have := count_cons_eq '{' c q
      have := count_cons_eq '}' c q
      omega
  even := by
    have := hb.even
    have := count_cons_eq '{' c b
    have := count_cons_eq '}' c b
    omega

/-- Where a closing brace ends a matching part, no closing brace before it does. -/
theorem Pairs.not_append_close (h : Pairs 0 b) (hm : Pairs 0 m) : b ≠ m ++ '}' :: r := by
  rintro rfl
  have hclosed := h.closed (m ++ ['}']) ⟨r, by simp⟩
  have heven := hm.even
  simp only [List.count_append, List.count_singleton_self] at hclosed
  simp at hclosed
  omega

theorem Pairs.unique (h : Pairs 0 b) (h' : Pairs 0 b') (he : b ++ '}' :: r = b' ++ '}' :: r') :
    b = b' ∧ r = r' := by
  rcases List.append_eq_append_iff.1 he with ⟨p, rfl, hp⟩ | ⟨p, rfl, hp⟩
  · cases p with
    | nil => simpa using hp
    | cons d p =>
      obtain ⟨rfl, -⟩ := List.cons.inj hp
      exact absurd rfl (h'.not_append_close h)
  · cases p with
    | nil => simpa [eq_comm] using hp
    | cons d p =>
      obtain ⟨rfl, -⟩ := List.cons.inj hp
      exact absurd rfl (h.not_append_close h')

/-- Where more braces close than open, one of them closes what stood open before. -/
theorem exists_close (h : t.count '{' + n < t.count '}') :
    ∃ m r, t = m ++ '}' :: r ∧ Pairs n m := by
  induction t generalizing n with
  | nil => simp at h
  | cons c t ih =>
    by_cases hopen : c = '{'
    · subst hopen
      rw [List.count_cons_self, List.count_cons_of_ne (by decide)] at h
      obtain ⟨m, r, rfl, hm⟩ := ih (n := n + 1) (by omega)
      exact ⟨'{' :: m, r, rfl, hm.cons (by simp [Nat.add_comm])⟩
    · by_cases hclose : c = '}'
      · subst hclose
        cases n with
        | zero => exact ⟨[], t, rfl, by simp, by simp⟩
        | succ n =>
          rw [List.count_cons_self, List.count_cons_of_ne (by decide)] at h
          obtain ⟨m, r, rfl, hm⟩ := ih (n := n) (by omega)
          exact ⟨'}' :: m, r, rfl, hm.cons (by simp [Nat.add_comm])⟩
      · simp only [List.count_cons_of_ne hopen, List.count_cons_of_ne hclose] at h
        obtain ⟨m, r, rfl, hm⟩ := ih h
        exact ⟨c :: m, r, rfl, hm.cons (by simp [hopen, hclose])⟩

theorem Closed.of_suffix (h : Closed t) (hs : s <:+ t) : Closed s := by
  obtain ⟨u, rfl⟩ := hs
  intro p q he
  exact h (u ++ p) q (by rw [he, List.append_assoc])

theorem Closed.of_cons (h : Closed (c :: t)) : Closed t := h.of_suffix (List.suffix_cons c t)

theorem Closed.count_le (h : Closed t) : t.count '{' ≤ t.count '}' := by
  induction hn : t.length using Nat.strong_induction_on generalizing t with
  | _ n ih =>
    cases t with
    | nil => simp
    | cons c t =>
      simp only [List.length_cons] at hn
      by_cases hopen : c = '{'
      · subst hopen
        obtain ⟨m, r, rfl, hm⟩ := h [] t rfl
        have hsuffix : r <:+ '{' :: (m ++ '}' :: r) := ⟨'{' :: m ++ ['}'], by simp⟩
        have hrest := ih r.length (by simp at hn; omega) (h.of_suffix hsuffix) rfl
        have heven := hm.even
        simp
        omega
      · have hle := ih t.length (by omega) h.of_cons rfl
        have hmore : t.count '}' ≤ (c :: t).count '}' := (List.sublist_cons_self c t).count_le '}'
        rw [List.count_cons_of_ne hopen]
        omega

/-- Every opening brace is closed where from no place on more braces open than close. -/
theorem closed_iff : Closed t ↔ ∀ s, s <:+ t → s.count '{' ≤ s.count '}' := by
  constructor
  · intro h s hs
    exact (h.of_suffix hs).count_le
  · rintro h p q rfl
    have hcount := h ('{' :: q) (List.suffix_append p _)
    apply exists_close
    simp at hcount
    omega

instance (t : List Char) : Decidable (Closed t) :=
  decidable_of_iff (∀ s ∈ t.tails, s.count '{' ≤ s.count '}') (by simp [closed_iff])

/-- A block that starts at a closed brace ends there if anywhere, whatever follows. -/
theorem body?_append_eq_none (hm : Pairs 0 m) (h : body? (m ++ '}' :: q) = none) (t : List Char) :
    body? (m ++ '}' :: q ++ t) = none := by
  by_contra hne
  obtain ⟨⟨b, r⟩, hb⟩ := Option.ne_none_iff_exists'.1 hne
  obtain ⟨he, hshape⟩ := body?_eq_some_iff.1 hb
  obtain ⟨rfl, -⟩ := hm.unique hshape.balances.pairs (by simpa using he)
  simp [body?_of_wellShaped hshape] at h

/-- Behind closed text the blocks of what follows are extracted as if it stood alone. -/
theorem extract_append_of_closed (h : Closed s) (t : List Char) :
    extract (s ++ t) = extract s ++ extract t := by
  fun_induction extract s with
  | case1 => rfl
  | case2 r b rest hb ih =>
    obtain ⟨rfl, hshape⟩ := body?_eq_some_iff.1 hb
    have hrest : Closed rest := h.of_suffix ⟨'{' :: b ++ ['}'], by simp⟩
    have hblock := extract_block hshape (rest ++ t)
    simpa [ih hrest] using hblock
  | case3 r hb ih =>
    obtain ⟨m, q, rfl, hm⟩ := h [] r rfl
    rw [List.cons_append, extract, if_pos rfl, body?_append_eq_none hm hb]
    exact ih h.of_cons
  | case4 c r hc ih =>
    rw [List.cons_append, extract_cons hc]
    exact ih h.of_cons

/-- Whether all is closed depends on the braces alone. -/
theorem closed_filter {q : Char → Bool} (ho : q '{') (hc : q '}') :
    Closed (t.filter q) ↔ Closed t := by
  rw [closed_iff, closed_iff]
  constructor
  · intro h s hs
    have hcount := h (s.filter q) (hs.filter q)
    rwa [List.count_filter ho, List.count_filter hc] at hcount
  · intro h s hs
    obtain ⟨u, hu, rfl⟩ := List.suffix_filter_iff.1 hs
    rw [List.count_filter ho, List.count_filter hc]
    exact h u hu

/-- Putting the trimmed lines of a text on one line opens and closes no brace. -/
theorem closed_join : Closed ([' '].intercalate (pieces '\n' t)) ↔ Closed t := by
  let isBrace (c : Char) : Bool := c == '{' || c == '}'
  have hblank : ∀ c, isBlank c → isBrace c = false := by
    intro c hc
    rw [Bool.eq_false_iff]
    intro hbrace
    rcases Bool.or_eq_true_iff.1 hbrace with hbrace | hbrace <;>
      simp [eq_of_beq hbrace, isBlank] at hc
  have hbraces : ([' '].intercalate (pieces '\n' t)).filter isBrace = t.filter isBrace := by
    rw [filter_intercalate (by decide), filter_pieces hblank (by decide)]
  rw [← closed_filter (q := isBrace) rfl rfl, hbraces, closed_filter rfl rfl]

end ConsoleSignature.Block
