import ConsoleSignature.Files.Tree.Change
import ConsoleSignature.Proofs.Files.Tree
import ConsoleSignature.Proofs.Sequence

/-!
Writing a file. It is found where its path led before, with what was written, and nothing else of
the tree is another.
-/
namespace ConsoleSignature.FileTree

variable {t t' : FileTree} {k l m : Location} {i : Item} {path : String} {ps : List String}
  {content : ByteArray}

theorem lookup_filter_of_ne (h : m ≠ l) (xs : List (Location × Item)) :
    (xs.filter (·.1 != l)).lookup m = xs.lookup m := by
  induction xs with
  | nil => rfl
  | cons x xs ih =>
    obtain ⟨n, i⟩ := x
    by_cases hl : n = l
    · have hm : (m == n) = false := by simpa [hl] using h
      rw [List.filter_cons_of_neg (by simp [hl]), List.lookup_cons, hm, ih]
    · rw [List.filter_cons_of_pos (by simpa using hl), List.lookup_cons, List.lookup_cons, ih]

theorem item?_insert (h : isGiven l = false) (t : FileTree) (i : Item) (m : Location) :
    (t.insert l i).item? m = if m = l then some i else t.item? m := by
  by_cases hm : m = l
  · simp [item?, insert, hm, h]
  · have hne : (m == l) = false := by simpa using hm
    rw [if_neg hm]
    simp only [item?, insert, List.lookup_cons, hne, lookup_filter_of_ne hm]

theorem isGiven_eq_false (h : t.item? l ≠ some .directory) : isGiven l = false := by
  rw [Bool.eq_false_iff]
  intro hgiven
  simp [item?, hgiven] at h

/-- Only directories are passed on the way, so that a path leads where it did when something else
than a directory is replaced. -/
theorem walk_insert (hl : t.item? l ≠ some .directory) (h : t.walk k ps = .ok m) (i : Item) :
    (t.insert l i).walk k ps = .ok m := by
  induction ps generalizing k with
  | nil => exact h
  | cons p ps ih =>
    rw [walk] at h
    split at h
    · simp at h
    · simp at h
    · rename_i hk
      have hne : k ≠ l := fun he => hl (he ▸ hk)
      split at h
      · simp at h
      · rename_i hshort
        rw [walk, item?_insert (isGiven_eq_false hl), if_neg hne, hk]
        simp only [hshort, if_false]
        exact ih h

theorem locate_insert (hl : t.item? l ≠ some .directory) (h : t.locate path = .ok m) (i : Item) :
    (t.insert l i).locate path = .ok m := by
  simp only [locate, follow] at h ⊢
  split at h
  · simp at h
  · rename_i hnul
    split at h
    · simp at h
    · rename_i hempty
      split at h
      · simp at h
      · rename_i hlong
        simp only [hnul, hempty, hlong, if_false]
        exact walk_insert hl h i

theorem exists_of_write (h : t.write path content = .ok t') :
    ∃ l, t.locate path = .ok l ∧ t.item? l ≠ some .directory ∧
      t' = t.insert l (.file content) := by
  unfold write at h
  split at h
  · obtain ⟨_, -, h⟩ := bind_eq_ok_iff.1 h
    simp [throw, throwThe, MonadExceptOf.throw] at h
  · obtain ⟨l, hl, h⟩ := bind_eq_ok_iff.1 h
    split at h
    · simp [throw, throwThe, MonadExceptOf.throw] at h
    · rename_i hfree
      exact ⟨l, hl, hfree, (Except.ok.inj h).symm⟩

theorem find_of_locate (hl : t.locate path = .ok l) (hi : t.item? l = some i) :
    t.find path = .ok (l, i) := by
  simp [find, hl, hi, bind, Except.bind, pure, Except.pure]

/-- A written file reads back, and all but its own location holds what it did. -/
theorem written_of_write (h : t.write path content = .ok t') :
    ∃ l, t.locate path = .ok l ∧ t'.locate path = .ok l ∧ t'.read path = .ok content ∧
      ∀ m, m ≠ l → t'.item? m = t.item? m := by
  obtain ⟨l, hl, hfree, rfl⟩ := exists_of_write h
  have hlocate := locate_insert hfree hl (.file content)
  have hitem := item?_insert (isGiven_eq_false hfree) t (.file content)
  have hfind := find_of_locate hlocate (by rw [hitem, if_pos rfl])
  refine ⟨l, hl, hlocate, ?_, ?_⟩
  · rw [read, hfind]
    rfl
  · intro m hm
    rw [hitem, if_neg hm]

end ConsoleSignature.FileTree
