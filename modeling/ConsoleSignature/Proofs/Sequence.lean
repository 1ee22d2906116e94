import Mathlib.Data.List.Forall2
import Mathlib.Data.List.Sort

/-!
Lists of any kind. Sorting them by a key is stable; and where something is done for each member that
may fail, the first failure decides, as it does between any two steps.
-/
namespace ConsoleSignature

section Sorting

open scoped List

variable {α β : Type} [LinearOrder β] (key : α → β) (xs : List α)

theorem pairwise_mergeSort_key :
    (xs.mergeSort fun a b => key a ≤ key b).Pairwise fun a b => key a ≤ key b := by
  have h : (xs.mergeSort fun a b => key a ≤ key b).Pairwise fun a b =>
      decide (key a ≤ key b) = true :=
    List.pairwise_mergeSort (by simpa using fun a b c => le_trans)
      (by simpa using fun a b => le_total (key a) (key b)) xs
  exact h.imp fun hab => of_decide_eq_true hab

/-- Sorting by a key keeps the order of what has the same key. -/
theorem filter_mergeSort_key (k : β) :
    (xs.mergeSort fun a b => key a ≤ key b).filter (key · = k) = xs.filter (key · = k) := by
  have hsame : (xs.filter (key · = k)).Pairwise fun a b => decide (key a ≤ key b) = true := by
    apply List.pairwise_of_forall_mem_list
    intro a ha b hb
    have hka : key a = k := by simpa using (List.mem_filter.1 ha).2
    have hkb : key b = k := by simpa using (List.mem_filter.1 hb).2
    simp [hka, hkb]
  -- They are in order already, so that sorting keeps them as a sublist; and it adds none.
  have hsub : xs.filter (key · = k) <+ xs.mergeSort fun a b => key a ≤ key b :=
    List.sublist_mergeSort (by simpa using fun a b c => le_trans)
      (by simpa using fun a b => le_total (key a) (key b)) hsame List.filter_sublist
  have hkept := hsub.filter (key · = k)
  rw [List.filter_filter] at hkept
  simp only [Bool.and_self] at hkept
  have hperm := (List.mergeSort_perm xs fun a b => key a ≤ key b).filter (key · = k)
  exact (hkept.eq_of_length hperm.length_eq.symm).symm

end Sorting

section Traversal

variable {α β γ ε : Type} {f : α → Except ε β} {x : α} {y : β} {e : ε} {xs zs : List α}
  {ys : List β}

/-- Lists with the same keys agree key by key. -/
theorem forall₂_of_map_eq {key : α → β} {P : α → Prop} (h : xs.map key = zs.map key)
    (hxs : ∀ x ∈ xs, P x) (hzs : ∀ z ∈ zs, P z) :
    List.Forall₂ (fun x z => key x = key z ∧ P x ∧ P z) xs zs := by
  induction xs generalizing zs with
  | nil =>
    obtain rfl : zs = [] := by simpa [eq_comm] using h
    exact .nil
  | cons x xs ih =>
    cases zs with
    | nil => simp at h
    | cons z zs =>
      obtain ⟨hkey, hkeys⟩ := List.cons.inj h
      rw [List.forall_mem_cons] at hxs hzs
      exact .cons ⟨hkey, hxs.1, hzs.1⟩ (ih hkeys hxs.2 hzs.2)

theorem bind_eq_ok_iff {g : Except ε α} {y : β} :
    (g >>= f) = .ok y ↔ ∃ x, g = .ok x ∧ f x = .ok y := by
  cases g <;> simp [bind, Except.bind]

theorem bind_ok (x : α) (f : α → Except ε β) : (Except.ok x >>= f) = f x := rfl

theorem mapM_cons_error (h : f x = .error e) : (x :: xs).mapM f = .error e := by
  rw [List.mapM_cons, h]
  rfl

theorem mapM_cons_ok (h : f x = .ok y) : (x :: xs).mapM f = (xs.mapM f).map (y :: ·) := by
  rw [List.mapM_cons, h]
  rfl

theorem mapM_eq_ok_iff : xs.mapM f = .ok ys ↔ List.Forall₂ (fun x y => f x = .ok y) xs ys := by
  induction xs generalizing ys with
  | nil => simp [pure, Except.pure, eq_comm]
  | cons x xs ih =>
    rw [List.forall₂_cons_left_iff]
    cases hx : f x with
    | error e => simp [mapM_cons_error hx]
    | ok y =>
      simp only [mapM_cons_ok hx, ← ih, Except.ok.injEq]
      cases xs.mapM f <;> simp [Except.map, eq_comm]

theorem forall₂_exists_iff {R : α → γ → Prop} {g : α → γ → β} :
    List.Forall₂ (fun x y => ∃ z, R x z ∧ y = g x z) xs ys ↔
      ∃ zs, List.Forall₂ R xs zs ∧ ys = List.zipWith g xs zs := by
  induction xs generalizing ys with
  | nil => simp
  | cons x xs ih =>
    simp only [List.forall₂_cons_left_iff, ih]
    constructor
    · rintro ⟨_, _, ⟨z, hz, rfl⟩, ⟨zs, hzs, rfl⟩, rfl⟩
      exact ⟨z :: zs, ⟨z, zs, hz, hzs, rfl⟩, rfl⟩
    · rintro ⟨_, ⟨z, zs, hz, hzs, rfl⟩, rfl⟩
      exact ⟨_, _, ⟨z, hz, rfl⟩, ⟨zs, hzs, rfl⟩, rfl⟩

theorem flatten_zipWith_singleton (g : α → γ → β) (xs : List α) (zs : List γ) :
    (List.zipWith (fun z xs => xs.map (g · z)) zs (xs.map ([·]))).flatten =
      List.zipWith g xs zs := by
  induction xs generalizing zs with
  | nil => simp
  | cons x xs ih =>
    cases zs with
    | nil => rfl
    | cons z zs => simp [ih]

theorem exists_mapM_iff : (∃ ys, xs.mapM f = .ok ys) ↔ ∀ x ∈ xs, ∃ y, f x = .ok y := by
  induction xs with
  | nil => simp [pure, Except.pure]
  | cons x xs ih =>
    cases hx : f x with
    | error e => simp [mapM_cons_error hx, hx]
    | ok y =>
      simp only [mapM_cons_ok hx, List.forall_mem_cons, hx, ← ih]
      cases xs.mapM f <;> simp [Except.map]

/-- A list fails where its first member that fails does, whatever comes after. -/
theorem mapM_eq_error_iff : xs.mapM f = .error e ↔
    ∃ before x after, xs = before ++ x :: after ∧ (∀ y ∈ before, ∃ z, f y = .ok z) ∧
      f x = .error e := by
  induction xs with
  | nil => simp [pure, Except.pure]
  | cons x xs ih =>
    cases hx : f x with
    | error e' =>
      rw [mapM_cons_error hx, Except.error.injEq]
      constructor
      · rintro rfl
        exact ⟨[], x, xs, rfl, by simp, hx⟩
      · rintro ⟨before, y, after, hat, hbefore, hy⟩
        cases before with
        | nil =>
          obtain ⟨rfl, -⟩ := List.cons.inj hat
          simpa [hx] using hy
        | cons z before =>
          obtain ⟨rfl, -⟩ := List.cons.inj hat
          obtain ⟨w, hw⟩ := hbefore x (by simp)
          simp [hx] at hw
    | ok y =>
      have hrest : (xs.mapM f).map (y :: ·) = .error e ↔ xs.mapM f = .error e := by
        cases xs.mapM f <;> simp [Except.map]
      rw [mapM_cons_ok hx, hrest, ih]
      constructor
      · rintro ⟨before, z, after, rfl, hbefore, hz⟩
        exact ⟨x :: before, z, after, rfl, List.forall_mem_cons.2 ⟨⟨y, hx⟩, hbefore⟩, hz⟩
      · rintro ⟨before, z, after, hat, hbefore, hz⟩
        cases before with
        | nil =>
          obtain ⟨rfl, -⟩ := List.cons.inj hat
          simp [hx] at hz
        | cons w before =>
          obtain ⟨-, rfl⟩ := List.cons.inj hat
          exact ⟨before, z, after, rfl, (List.forall_mem_cons.1 hbefore).2, hz⟩

theorem map_mapM (g : β → γ) : (xs.mapM f).map (List.map g) = xs.mapM fun x => (f x).map g := by
  induction xs with
  | nil => rfl
  | cons x xs ih =>
    cases hx : f x with
    | error e =>
      rw [mapM_cons_error hx, mapM_cons_error (by rw [hx]; rfl)]
      rfl
    | ok y =>
      rw [mapM_cons_ok hx, mapM_cons_ok (by rw [hx]; rfl), ← ih]
      cases xs.mapM f <;> rfl

theorem mapM_congr_forall₂ (h : List.Forall₂ (fun x z => f x = f z) xs zs) :
    xs.mapM f = zs.mapM f := by
  induction h with
  | nil => rfl
  | cons hx _ ih => rw [List.mapM_cons, List.mapM_cons, hx, ih]

theorem mapM_eq_some_map {f : α → Option β} {g : α → β} (h : ∀ x ∈ xs, f x = some (g x)) :
    xs.mapM f = some (xs.map g) := by
  induction xs with
  | nil => rfl
  | cons x xs ih =>
    rw [List.forall_mem_cons] at h
    simp [h.1, ih h.2]

/-- What undoes one step undoes as many. -/
theorem mapM_map_eq_some {f : β → Option α} {g : α → β} (h : ∀ x ∈ xs, f (g x) = some x) :
    (xs.map g).mapM f = some xs := by
  have hmap : xs.mapM (f ∘ g) = some (xs.map id) := mapM_eq_some_map h
  rw [List.mapM_map, hmap, List.map_id]

/-- The places of members do not matter to what is said of the members alone. -/
theorem forall_mem_zipIdx_iff {Q : α → Prop} :
    (∀ x ∈ xs.zipIdx, Q x.1) ↔ ∀ a ∈ xs, Q a := by
  conv_rhs => rw [← List.zipIdx_map_fst 0 xs]
  exact List.forall_mem_map.symm

theorem exists_mem_zipIdx_iff {Q : α → Prop} :
    (∃ x ∈ xs.zipIdx, Q x.1) ↔ ∃ a ∈ xs, Q a := by
  conv_rhs => rw [← List.zipIdx_map_fst 0 xs]
  simp only [List.mem_map, exists_exists_and_eq_and]

theorem exists_split_zipIdx_iff {Q R : α → Prop} :
    (∃ before x after, xs.zipIdx = before ++ x :: after ∧ (∀ y ∈ before, Q y.1) ∧ R x.1) ↔
      ∃ before a after, xs = before ++ a :: after ∧ (∀ b ∈ before, Q b) ∧ R a := by
  constructor
  · rintro ⟨before, x, after, hat, hbefore, hx⟩
    refine ⟨before.map Prod.fst, x.1, after.map Prod.fst, ?_, ?_, hx⟩
    · rw [← List.map_cons, ← List.map_append, ← hat, List.zipIdx_map_fst]
    · rwa [List.forall_mem_map]
  · rintro ⟨before, a, after, rfl, hbefore, ha⟩
    refine ⟨before.zipIdx, (a, before.length), after.zipIdx (before.length + 1), ?_, ?_, ha⟩
    · simp [List.zipIdx_append]
    · exact forall_mem_zipIdx_iff.2 hbefore

theorem append_of_getElem? {i : Nat} (h : xs[i]? = some x) :
    ∃ before after, xs = before ++ x :: after ∧ before.length = i := by
  obtain ⟨hi, rfl⟩ := List.getElem?_eq_some_iff.1 h
  refine ⟨xs.take i, xs.drop (i + 1), ?_, ?_⟩
  · rw [List.getElem_cons_drop, List.take_append_drop]
  · rw [List.length_take]
    omega

theorem mem_flatten_forall₂ {R : α → List β → Prop} {Q : α → Prop} {yss : List (List β)}
    (h : List.Forall₂ R xs yss) (hR : ∀ x ys, R x ys → (y ∈ ys ↔ Q x)) :
    y ∈ yss.flatten ↔ ∃ x ∈ xs, Q x := by
  induction h with
  | nil => simp
  | cons hx _ ih => simp [hR _ _ hx, ih]

end Traversal

end ConsoleSignature
