import ConsoleSignature.Entry
import ConsoleSignature.Text.Word

/-!
References in the description of an entry that many sub-commands share: `[name]` and `[description]`
stand for those of the sub-command it is shown with. All are replaced at once, and other words in
brackets stay.
-/
namespace ConsoleSignature.Plan

open Text

/-- The word up to a closing bracket, and the text after that. -/
def reference? (s : List Char) : Option (List Char × List Char) :=
  match s.takeWhile isWord, s.dropWhile isWord with
  | c :: w, ']' :: rest => some (c :: w, rest)
  | _, _ => none

theorem eq_append_of_reference? {s w rest : List Char} (h : reference? s = some (w, rest)) :
    s = w ++ ']' :: rest := by
  have hs := List.takeWhile_append_dropWhile (p := isWord) (l := s)
  unfold reference? at h
  split at h
  · rename_i hw hr
    simp only [Option.some.injEq, Prod.mk.injEq] at h
    rw [← hs, hw, hr, ← h.1, ← h.2]
  · simp at h

/-- What the word stands for, if for anything. -/
def referent? (parent : Entry) (word : List Char) : Option String :=
  if word = "name".toList then some parent.name
  else if word = "description".toList then parent.description
  else none

def fill (parent : Entry) : List Char → List Char
  | [] => []
  | c :: r =>
    if c = '[' then
      match _h : reference? r with
      | some (word, rest) =>
        match referent? parent word with
        | some value => value.toList ++ fill parent rest
        | none => '[' :: word ++ ']' :: fill parent rest
      | none => c :: fill parent r
    else c :: fill parent r
termination_by s => s.length
decreasing_by
  any_goals
    have := congrArg List.length (eq_append_of_reference? ‹_›)
    simp only [List.length_append, List.length_cons] at *
    omega
  all_goals simp

/-- The description of an entry, shown with a sub-command or on its own. -/
def descriptionOf (e : Entry) : Option Entry → String
  | none => e.description.getD ""
  | some parent => String.ofList (fill parent (e.description.getD "").toList)

end ConsoleSignature.Plan
