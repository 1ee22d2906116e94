/-!
Blocks: the parts of a text that stand between braces. A block has one further level of braces at
most and starts with another character than a brace; all else is passed over.
-/
namespace ConsoleSignature.Block

/-- Reads up to the brace that closes a block, where `inner` tells whether a brace stands open
inside it. Gives the text before that brace and the text after it. -/
def close? (inner : Bool) : List Char → Option (List Char × List Char)
  | [] => none
  | c :: r =>
    if c = '{' then
      if inner then none else (close? true r).map (Prod.map (c :: ·) id)
    else if c = '}' then
      if inner then (close? false r).map (Prod.map (c :: ·) id) else some ([], r)
    else (close? inner r).map (Prod.map (c :: ·) id)

/-- The block that starts right after its opening brace, and the text after its closing one. -/
def body? : List Char → Option (List Char × List Char)
  | [] => none
  | c :: r => if c = '{' ∨ c = '}' then none else close? false (c :: r)

theorem eq_append_of_close? {inner : Bool} {s b r : List Char} (h : close? inner s = some (b, r)) :
    s = b ++ '}' :: r := by
  induction s generalizing inner b with
  | nil => simp [close?] at h
  | cons c t ih =>
    simp only [close?] at h
    split at h
    · split at h
      · simp at h
      · obtain ⟨⟨b', r'⟩, hb, he⟩ := Option.map_eq_some_iff.1 h
        obtain ⟨rfl, rfl⟩ : c :: b' = b ∧ r' = r := by simpa using he
        simpa using ih hb
    · split at h
      · split at h
        · obtain ⟨⟨b', r'⟩, hb, he⟩ := Option.map_eq_some_iff.1 h
          obtain ⟨rfl, rfl⟩ : c :: b' = b ∧ r' = r := by simpa using he
          simpa using ih hb
        · obtain ⟨rfl, rfl⟩ : b = [] ∧ t = r := by simpa [eq_comm] using h
          simp_all
      · obtain ⟨⟨b', r'⟩, hb, he⟩ := Option.map_eq_some_iff.1 h
        obtain ⟨rfl, rfl⟩ : c :: b' = b ∧ r' = r := by simpa using he
        simpa using ih hb

theorem eq_append_of_body? {s b r : List Char} (h : body? s = some (b, r)) : s = b ++ '}' :: r := by
  cases s with
  | nil => simp [body?] at h
  | cons c t =>
    simp only [body?] at h
    split at h
    · simp at h
    · exact eq_append_of_close? h

theorem length_of_body? {s b r : List Char} (h : body? s = some (b, r)) :
    b.length + r.length < s.length := by
  have := congrArg List.length (eq_append_of_body? h)
  simp at this
  omega

/-- The blocks of a text from left to right. Where none starts at a brace, the search goes on right
after that brace. -/
def extract : List Char → List (List Char)
  | [] => []
  | c :: r =>
    if c = '{' then
      match _h : body? r with
      | some (b, rest) => b :: extract rest
      | none => extract r
    else extract r
termination_by s => s.length
decreasing_by
  · have := length_of_body? ‹_›
    simp only [List.length_cons]
    omega
  · simp
  · simp

/-- A block is shorter than the text it comes from by its two braces. -/
theorem length_of_mem_extract {s b : List Char} (h : b ∈ extract s) : b.length + 2 ≤ s.length := by
  fun_induction extract s with
  | case1 => simp at h
  | case2 r b' rest hb ih =>
    have := length_of_body? hb
    rcases List.mem_cons.1 h with rfl | h
    · simp only [List.length_cons]
      omega
    · have := ih h
      simp only [List.length_cons]
      omega
  | case3 r hb ih =>
    have := ih h
    simp only [List.length_cons]
    omega
  | case4 c r hc ih =>
    have := ih h
    simp only [List.length_cons]
    omega

end ConsoleSignature.Block
