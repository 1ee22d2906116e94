import ConsoleSignature.Text.Blank

/-!
Cutting text at separators. Pieces of a comma list and of a text's lines are trimmed and never
empty.
-/
namespace ConsoleSignature.Text

/-- What stands before the first `sep`, and what stands after it if there is one. -/
def cut (sep : Char) (s : List Char) : List Char × Option (List Char) :=
  (s.takeWhile (· != sep), (s.dropWhile (· != sep)).tail?)

def pieces (sep : Char) (s : List Char) : List (List Char) :=
  ((s.splitOn sep).map trim).filter (· ≠ [])

def commaParts (s : List Char) : List String := (pieces ',' s).map String.ofList

/-- Drops every trailing character in the class. -/
def dropEndWhile (p : Char → Bool) (s : List Char) : List Char := (s.reverse.dropWhile p).reverse

theorem eq_append_of_snd_some {sep : Char} {s r : List Char} (h : (cut sep s).2 = some r) :
    s = (cut sep s).1 ++ sep :: r := by
  obtain ⟨c, hc⟩ : ∃ c, s.dropWhile (· != sep) = c :: r := by
    cases hd : s.dropWhile (· != sep) with
    | nil => simp [cut, hd] at h
    | cons c t => exact ⟨c, by simpa [cut, hd] using h⟩
  have hsep : c = sep := by
    have := List.head?_dropWhile_not (· != sep) s
    simpa [hc] using this
  have := List.takeWhile_append_dropWhile (p := (· != sep)) (l := s)
  simp only [cut]
  rw [← hsep, ← hc, hsep]
  exact this.symm

theorem length_of_cut_snd {sep : Char} {s r : List Char} (h : (cut sep s).2 = some r) :
    r.length < s.length := by
  have := congrArg List.length (eq_append_of_snd_some h)
  simp at this
  omega

end ConsoleSignature.Text
