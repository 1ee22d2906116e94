import ConsoleSignature.Block
import Mathlib.Data.List.Count
import Mathlib.Data.List.Infix
import Mathlib.Tactic.Common

/-! The shape of a block, said without the scan: how its braces match. The scan finds exactly it. -/
namespace ConsoleSignature.Block

variable {m n : Nat} {c : Char} {b b' r r' s : List Char} {inner : Bool}

/-- Read from the left behind `n` open braces, never fewer than none nor more than one stand open,
and none does in the end. -/
structure Balances (n : Nat) (b : List Char) : Prop where
  closed : ∀ p, p <+: b → p.count '}' ≤ p.count '{' + n
  shallow : ∀ p, p <+: b → p.count '{' + n ≤ p.count '}' + 1
  even : b.count '{' + n = b.count '}'

/-- What may stand between the braces of a block. -/
structure WellShaped (b : List Char) : Prop where
  nonempty : b ≠ []
  head : ∀ c ∈ b.head?, c ≠ '{' ∧ c ≠ '}'
  balances : Balances 0 b

theorem balances_nil : Balances n [] ↔ n = 0 := by
  constructor
  · intro h
    simpa using h.even
  · rintro rfl
    constructor <;> simp

theorem count_cons_eq (d c : Char) (p : List Char) :
    (c :: p).count d = [c].count d + p.count d := by
  rw [← List.singleton_append, List.count_append]

/-- One character leaves `m` open braces where `n` stood open before. -/
theorem balances_cons (hn : n ≤ 1) (h : [c].count '{' + n = [c].count '}' + m) :
    Balances n (c :: b) ↔ Balances m b := by
  constructor
  · intro hb
    refine ⟨?_, ?_, ?_⟩
    · intro p hp
      have := hb.closed (c :: p) (List.cons_prefix_cons.2 ⟨rfl, hp⟩)
      have := count_cons_eq '{' c p
      have := count_cons_eq '}' c p
      omega
    · intro p hp
      have := hb.shallow (c :: p) (List.cons_prefix_cons.2 ⟨rfl, hp⟩)
      have := count_cons_eq '{' c p
      have := count_cons_eq '}' c p
      omega
    · have := hb.even
      have := count_cons_eq '{' c b
      have := count_cons_eq '}' c b
      omega
  · intro hb
    refine ⟨?_, ?_, ?_⟩
    · intro p hp
      rcases List.prefix_cons_iff.1 hp with rfl | ⟨q, rfl, hq⟩
      · simp
      · have := hb.closed q hq
        have := count_cons_eq '{' c q
        have := count_cons_eq '}' c q
        omega
    · intro p hp
      rcases List.prefix_cons_iff.1 hp with rfl | ⟨q, rfl, hq⟩
      · simpa using hn
      · have := hb.shallow q hq
        have := count_cons_eq '{' c q
        have := count_cons_eq '}' c q
        omega
    · have := hb.even
      have := count_cons_eq '{' c b
      have := count_cons_eq '}' c b
      omega

theorem balances_append (ho : '{' ∉ s) (hc : '}' ∉ s) (hn : n ≤ 1) (b : List Char) :
    Balances n (s ++ b) ↔ Balances n b := by
  induction s with
  | nil => rfl
  | cons c s ih =>
    simp only [List.mem_cons, not_or] at ho hc
    have hcount : [c].count '{' + n = [c].count '}' + n := by
      simp [Ne.symm ho.1, Ne.symm hc.1]
    rw [List.cons_append, balances_cons hn hcount]
    exact ih ho.2 hc.2

theorem not_balances_open : ¬ Balances 1 ('{' :: b) := by
  intro h
  simpa using h.shallow ['{'] (by simp)

theorem not_balances_close : ¬ Balances 0 ('}' :: b) := by
  intro h
  simpa using h.closed ['}'] (by simp)

/-- The scan reads up to the brace before which all others match. -/
theorem close?_eq_some_iff :
    close? inner s = some (b, r) ↔ s = b ++ '}' :: r ∧ Balances inner.toNat b := by
  induction s generalizing inner b with
  | nil => simp [close?]
  | cons c t ih =>
    -- Where the scan goes on, so does the body, behind `after.toNat` open braces.
    have step (after : Bool) (hn : ¬(c = '}' ∧ inner = false))
        (h : [c].count '{' + inner.toNat = [c].count '}' + after.toNat) :
        (close? after t).map (Prod.map (c :: ·) id) = some (b, r) ↔
          c :: t = b ++ '}' :: r ∧ Balances inner.toNat b := by
      rw [Option.map_eq_some_iff]
      constructor
      · rintro ⟨⟨b', r'⟩, hb, he⟩
        obtain ⟨rfl, rfl⟩ : c :: b' = b ∧ r' = r := by simpa using he
        obtain ⟨rfl, hbal⟩ := ih.1 hb
        exact ⟨rfl, (balances_cons inner.toNat_le h).2 hbal⟩
      · rintro ⟨he, hbal⟩
        cases b with
        | nil =>
          obtain ⟨rfl, -⟩ : c = '}' ∧ t = r := by simpa using he
          exact (hn ⟨rfl, by simpa [balances_nil] using hbal⟩).elim
        | cons d b' =>
          obtain ⟨rfl, rfl⟩ : c = d ∧ t = b' ++ '}' :: r := by simpa using he
          exact ⟨(b', r), ih.2 ⟨rfl, (balances_cons inner.toNat_le h).1 hbal⟩, rfl⟩
    by_cases ho : c = '{'
    · subst c
      cases inner with
      | false => simpa [close?] using step true (by simp) (by simp)
      | true =>
        simp only [close?, if_true, reduceCtorEq, Bool.toNat_true, false_iff, not_and]
        rintro he hb
        cases b with
        | nil => simp at he
        | cons d b' =>
          obtain ⟨rfl, -⟩ : '{' = d ∧ _ := by simpa using he
          exact not_balances_open hb
    · by_cases hc : c = '}'
      · subst c
        cases inner with
        | true => simpa [close?] using step false (by simp) (by simp)
        | false =>
          simp only [close?, ho, if_false, if_true]
          constructor
          · rintro ⟨rfl, rfl⟩
            exact ⟨rfl, by simp [balances_nil]⟩
          · rintro ⟨he, hb⟩
            cases b with
            | nil => simpa using he
            | cons d b' =>
              obtain ⟨rfl, -⟩ : '}' = d ∧ _ := by simpa using he
              exact (not_balances_close hb).elim
      · simpa [close?, ho, hc] using step inner (by simp [hc]) (by simp [ho, hc])

theorem body?_eq_some_iff : body? s = some (b, r) ↔ s = b ++ '}' :: r ∧ WellShaped b := by
  cases s with
  | nil => simp [body?]
  | cons c t =>
    simp only [body?]
    split
    · rename_i hc
      simp only [reduceCtorEq, false_iff, not_and]
      intro he hb
      cases b with
      | nil => exact hb.nonempty rfl
      | cons d b' =>
        obtain ⟨rfl, -⟩ : c = d ∧ _ := by simpa using he
        have := hb.head c rfl
        tauto
    · rename_i hc
      rw [close?_eq_some_iff]
      constructor
      · rintro ⟨he, hb⟩
        cases b with
        | nil =>
          obtain ⟨rfl, -⟩ : c = '}' ∧ t = r := by simpa using he
          simp at hc
        | cons d b' =>
          obtain ⟨rfl, -⟩ : c = d ∧ _ := by simpa using he
          refine ⟨he, by simp, ?_, hb⟩
          intro d hd
          obtain rfl : c = d := by simpa using hd
          tauto
      · rintro ⟨he, hb⟩
        exact ⟨he, hb.balances⟩

theorem body?_of_wellShaped (hb : WellShaped b) (r : List Char) :
    body? (b ++ '}' :: r) = some (b, r) :=
  body?_eq_some_iff.2 ⟨rfl, hb⟩

instance (b : List Char) : Decidable (WellShaped b) :=
  decidable_of_iff (body? (b ++ ['}']) = some (b, [])) (by simp [body?_eq_some_iff])

example : WellShaped "sub : Sub | \x7b--a\x7d".toList ∧ ¬ WellShaped "\x7da".toList := by decide

/-- From one opening brace there is one block at most. -/
theorem WellShaped.unique (hb : WellShaped b) (hb' : WellShaped b')
    (he : b ++ '}' :: r = b' ++ '}' :: r') : b = b' ∧ r = r' := by
  have h := body?_of_wellShaped hb r
  rw [he, body?_of_wellShaped hb' r'] at h
  simpa [eq_comm] using h

theorem extract_block (hb : WellShaped b) (r : List Char) :
    extract ('{' :: b ++ '}' :: r) = b :: extract r := by
  rw [List.cons_append, extract, if_pos rfl]
  split
  · rename_i b' r' h
    rw [body?_of_wellShaped hb r] at h
    obtain ⟨rfl, rfl⟩ : b = b' ∧ r = r' := by simpa using h
    rfl
  · rename_i h
    simp [body?_of_wellShaped hb r] at h

theorem extract_cons (hc : c ≠ '{') (r : List Char) : extract (c :: r) = extract r := by
  rw [extract, if_neg hc]

theorem extract_append (ho : '{' ∉ s) (r : List Char) : extract (s ++ r) = extract r := by
  induction s with
  | nil => rfl
  | cons c s ih =>
    simp only [List.mem_cons, not_or] at ho
    rw [List.cons_append, extract_cons (Ne.symm ho.1)]
    exact ih ho.2

end ConsoleSignature.Block
