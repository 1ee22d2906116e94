import ConsoleSignature.Proofs.Command.Append
import ConsoleSignature.Proofs.Text.Pieces

/-!
How a signature is broken into lines. Its trimmed lines that are not blank are all that is read of
it, and below the header a line may be broken at any space.
-/
namespace ConsoleSignature.Command

open Text

variable {above p q s t v w x : List Char} {xs ys : List (List Char)}

theorem mem_lines {l : List Char} (h : l ∈ lines s) : l ≠ [] ∧ Trimmed l ∧ '\n' ∉ l := by
  obtain ⟨hne, ht, hn, -⟩ := mem_pieces h
  exact ⟨hne, ht, hn⟩

theorem lines_intercalate (s : List Char) : lines (['\n'].intercalate (lines s)) = lines s :=
  pieces_intercalate fun _ hl => mem_lines hl

/-- What stands below the header may as well stand on one line. -/
theorem lines_intercalate_space (h : lines s = x :: xs) :
    lines (x ++ '\n' :: [' '].intercalate xs) = x :: lines ([' '].intercalate xs) ∧
      [' '].intercalate (lines ([' '].intercalate xs)) = [' '].intercalate xs := by
  have hline : ∀ l ∈ x :: xs, l ≠ [] ∧ Trimmed l ∧ '\n' ∉ l := fun l hl => mem_lines (h ▸ hl)
  rw [List.forall_mem_cons] at hline
  obtain ⟨⟨hne, ht, hn⟩, hxs⟩ := hline
  constructor
  · rw [lines_append, lines, pieces_of_piece hne ht hn]
    rfl
  · by_cases hnil : xs = []
    · simp [hnil, lines, pieces_of_blank]
    · have hbreak : '\n' ∉ [' '].intercalate xs := by
        intro hm
        rcases mem_intercalate hm with hm | ⟨l, hl, hm⟩
        · simp at hm
        · exact (hxs l hl).2.2 hm
      have hjoin : [' '].intercalate xs ≠ [] := intercalate_ne_nil hnil fun l hl => (hxs l hl).1
      have htrim : Trimmed ([' '].intercalate xs) :=
        trimmed_intercalate fun l hl => ⟨(hxs l hl).1, (hxs l hl).2.1⟩
      rw [lines, pieces_of_piece hjoin htrim hbreak, List.intercalate_singleton]

theorem lines_append_newline (s : List Char) : lines (s ++ ['\n']) = lines s :=
  pieces_append_blank (by simp [isBlank]) s

/-- The first line of a text ends at a newline, or may as well: one at the end changes nothing. -/
theorem exists_first_line (hq : ∃ c ∈ q.head?, isBlank c = false) :
    ∃ l r, '\n' ∉ l ∧ (∃ c ∈ l.head?, isBlank c = false) ∧
      ∀ s, lines (s ++ q) = lines (s ++ l ++ '\n' :: r) := by
  rcases eq_or_append_of_sep '\n' q with hn | ⟨l, r, rfl, hl⟩
  · exact ⟨q, [], hn, hq, fun s => (lines_append_newline (s ++ q)).symm⟩
  · refine ⟨l, r, hl, ?_, fun s => by rw [List.append_assoc]⟩
    cases l with
    | nil => simp [isBlank] at hq
    | cons c l => simpa using hq

/-- A space inside a line joins the line that would end there to the one that would start there. -/
theorem lines_space (hp : ∃ c ∈ p.getLast?, isBlank c = false)
    (hq : ∃ c ∈ q.head?, isBlank c = false) :
    ∃ xs l r ys, lines p = xs ++ [l] ∧ lines q = r :: ys ∧
      lines (p ++ ' ' :: q) = xs ++ (l ++ ' ' :: r) :: ys := by
  -- Only the line where the texts meet is new, so that the induction is on the lines before it.
  induction p using sep_induction '\n' with
  | single p hpn =>
    obtain ⟨l, r, hl, hhead, hfirst⟩ := exists_first_line hq
    have htrim : trim (p ++ [' '] ++ l) = trim p ++ [' '] ++ trim l :=
      trim_append_append hp hhead [' ']
    obtain ⟨c, hc, hcb⟩ := hp
    obtain ⟨d, hd, hdb⟩ := hhead
    have hpc : ∃ c ∈ p, isBlank c = false := ⟨c, List.mem_of_getLast? hc, hcb⟩
    have hlc : ∃ c ∈ l, isBlank c = false := ⟨d, List.mem_of_head? hd, hdb⟩
    have hjoin : ∃ c ∈ p ++ [' '] ++ l, isBlank c = false := by
      obtain ⟨c, hc, hb⟩ := hpc
      exact ⟨c, by simp [hc], hb⟩
    refine ⟨[], trim p, trim l, lines r, ?_, ?_, ?_⟩
    · rw [← lines_append_newline, lines_of_header hpc hpn, lines, pieces_of_blank (by simp)]
      rfl
    · exact (hfirst []).trans (lines_of_header hlc hl r)
    · rw [List.append_cons, hfirst, lines_of_header hjoin (by simp [hpn, hl]), htrim]
      simp
  | append l r _ ih =>
    have hlast : ∃ c ∈ r.getLast?, isBlank c = false := by
      cases r with
      | nil => simp [isBlank] at hp
      | cons c r => simpa using hp
    obtain ⟨xs, a, b, ys, hr, hq, hjoin⟩ := ih hlast
    refine ⟨lines l ++ xs, a, b, ys, ?_, hq, ?_⟩
    · rw [lines_append, hr, List.append_assoc]
    · rw [List.append_assoc, List.cons_append, lines_append, hjoin, List.append_assoc]

/-- The header line and the text that the lines below it make are all that is compiled. -/
theorem ofSignature_congr (handler : Handler) (hs : lines s = x :: xs) (ht : lines t = x :: ys)
    (h : [' '].intercalate xs = [' '].intercalate ys) :
    ofSignature (String.ofList s) handler = ofSignature (String.ofList t) handler := by
  simp only [ofSignature, String.toList_ofList, hs, ht, h]

theorem ofSignature_break (handler : Handler) (habove : ∃ c ∈ above, isBlank c = false)
    (hp : ∃ c ∈ p.getLast?, isBlank c = false) (hq : ∃ c ∈ q.head?, isBlank c = false)
    (hv : ∀ c ∈ v, isBlank c) (hw : ∀ c ∈ w, isBlank c) :
    ofSignature (String.ofList (above ++ '\n' :: (p ++ v ++ '\n' :: (w ++ q)))) handler =
      ofSignature (String.ofList (above ++ '\n' :: (p ++ ' ' :: q))) handler := by
  obtain ⟨c, hc, hb⟩ := habove
  have hbreak : c ≠ '\n' := by
    rintro rfl
    simp [isBlank] at hb
  obtain ⟨l, hl, -⟩ := exists_mem_pieces hc hbreak hb
  obtain ⟨x, us, habove⟩ := List.exists_cons_of_ne_nil (List.ne_nil_of_mem hl)
  obtain ⟨xs, a, b, ys, hpl, hql, hjoin⟩ := lines_space hp hq
  have hbroken : lines (above ++ '\n' :: (p ++ v ++ '\n' :: (w ++ q))) =
      x :: (us ++ xs ++ a :: b :: ys) := by
    rw [lines_append, lines_append, lines, habove, lines, pieces_append_blank hv, lines,
      pieces_blank_append hw, ← lines, ← lines, hpl, hql]
    simp
  have hwhole : lines (above ++ '\n' :: (p ++ ' ' :: q)) =
      x :: (us ++ xs ++ (a ++ [' '] ++ b) :: ys) := by
    rw [lines_append, hjoin, lines, habove]
    simp
  exact ofSignature_congr handler hbroken hwhole (intercalate_append_cons_cons (us ++ xs) a b ys)

/-- Layout does not matter: not how lines end, what blanks are around them or which blank lines are
between them, nor at which spaces the text below the header is broken into lines. -/
theorem ofSignature_lines (handler : Handler) (s : List Char) :
    let command := fun t => ofSignature (String.ofList t) handler
    command (['\n'].intercalate (lines s)) = command s ∧
    (∀ x xs, lines s = x :: xs → command (x ++ '\n' :: [' '].intercalate xs) = command s) ∧
    (∀ t, lines t = lines s → command t = command s) ∧
    ∀ above p q v w, s = above ++ '\n' :: (p ++ ' ' :: q) → (∃ c ∈ above, isBlank c = false) →
      (∃ c ∈ p.getLast?, isBlank c = false) → (∃ c ∈ q.head?, isBlank c = false) →
      (∀ c ∈ v, isBlank c) → (∀ c ∈ w, isBlank c) →
      command (above ++ '\n' :: (p ++ v ++ '\n' :: (w ++ q))) = command s := by
  intro command
  have hsame : ∀ t, lines t = lines s → command t = command s := by
    intro t h
    simp only [command, ofSignature, String.toList_ofList, h]
  refine ⟨hsame _ (lines_intercalate s), ?_, hsame, ?_⟩
  · intro x xs hs
    obtain ⟨hline, hjoin⟩ := lines_intercalate_space hs
    exact ofSignature_congr handler hline hs hjoin
  · rintro above p q v w rfl habove hp hq hv hw
    exact ofSignature_break handler habove hp hq hv hw

theorem ofSignature_lines_make :
    let above := "\t \n#make:\r\n\u00a0\r\n  \x7bplan : Show\x7d".toList
    let p := "\u2003\x7bmodel : Create | \x7b--force".toList
    let q := ":Now\x7d\x7d \r\n\x0b".toList
    let v := " \r".toList
    let w := "\u3000\n\t".toList
    let s := above ++ '\n' :: (p ++ ' ' :: q)
    let x := "#make:".toList
    let xs := ["\x7bplan : Show\x7d".toList,
      "\x7bmodel : Create | \x7b--force :Now\x7d\x7d".toList]
    let command := fun t => ofSignature (String.ofList t) ⟨0, "", none⟩
    (∃ c ∈ above, isBlank c = false) ∧ (∃ c ∈ p.getLast?, isBlank c = false) ∧
    (∃ c ∈ q.head?, isBlank c = false) ∧ (∀ c ∈ v, isBlank c) ∧ (∀ c ∈ w, isBlank c) ∧
    lines s = x :: xs ∧
    command (x ++ '\n' :: [' '].intercalate xs) = command s ∧
    command (above ++ '\n' :: (p ++ v ++ '\n' :: (w ++ q))) = command s := by
  intro above p q v w s x xs command
  have habove : ∃ c ∈ above, isBlank c = false := ⟨'m', by decide, by decide⟩
  have hp : ∃ c ∈ p.getLast?, isBlank c = false := ⟨'e', by decide, by decide⟩
  have hq : ∃ c ∈ q.head?, isBlank c = false := ⟨':', by decide, by decide⟩
  have hv : ∀ c ∈ v, isBlank c := List.all_eq_true.1 (by decide)
  have hw : ∀ c ∈ w, isBlank c := List.all_eq_true.1 (by decide)
  have hlines : lines s = x :: xs := by decide
  obtain ⟨-, hjoined, -, hbroken⟩ := ofSignature_lines ⟨0, "", none⟩ s
  exact ⟨habove, hp, hq, hv, hw, hlines, hjoined x xs hlines,
    hbroken above p q v w rfl habove hp hq hv hw⟩

end ConsoleSignature.Command
