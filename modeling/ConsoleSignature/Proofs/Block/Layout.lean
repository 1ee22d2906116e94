import ConsoleSignature.Proofs.Block.WellShaped
import ConsoleSignature.Proofs.Text

/-!
Blocks laid out in a text, each on one line and with no brace between them. What the layout does
besides (breaks, indentation, blank lines) does not touch the blocks.
-/
namespace ConsoleSignature.Block

open Text

/-- The text holds these blocks in this order and no brace between them. -/
inductive Layout : List (List Char) → List Char → Prop
  | nil : Layout [] []
  | char {c : Char} {bs : List (List Char)} {t : List Char} :
    c ≠ '{' → c ≠ '}' → Layout bs t → Layout bs (c :: t)
  | block {b : List Char} {bs : List (List Char)} {t : List Char} :
    WellShaped b → '\n' ∉ b → Layout bs t → Layout (b :: bs) ('{' :: b ++ '}' :: t)

variable {b : List Char} {bs cs : List (List Char)} {c : Char} {s t u v w : List Char}

theorem layout_nil_iff : Layout bs [] ↔ bs = [] := by
  constructor
  · intro h
    cases h
    rfl
  · rintro rfl
    exact .nil

theorem extract_of_layout (h : Layout bs t) : extract t = bs := by
  induction h with
  | nil => rw [extract]
  | char ho _ _ ih => rw [extract_cons ho, ih]
  | block hb _ _ ih => rw [extract_block hb, ih]

theorem layout_append (hs : Layout bs s) (ht : Layout cs t) : Layout (bs ++ cs) (s ++ t) := by
  induction hs with
  | nil => exact ht
  | char ho hc _ ih => exact .char ho hc ih
  | block hb hn _ ih => simpa using Layout.block hb hn ih

theorem layout_of_not_mem (ho : '{' ∉ t) (hc : '}' ∉ t) : Layout [] t := by
  induction t with
  | nil => exact .nil
  | cons c t ih =>
    simp only [List.mem_cons, not_or] at ho hc
    exact .char (Ne.symm ho.1) (Ne.symm hc.1) (ih ho.2 hc.2)

theorem eq_nil_of_layout (h : Layout bs t) (ho : '{' ∉ t) : bs = [] := by
  induction h with
  | nil => rfl
  | char _ _ _ ih => exact ih fun hm => ho (List.mem_cons_of_mem _ hm)
  | block => simp at ho

/-- A cut where a line ends, or before text without closing braces, goes through no block. -/
theorem block_append_eq (hn : '\n' ∉ b) (hv : '}' ∉ v ∨ v.head? = some '\n')
    (he : '{' :: b ++ '}' :: t = u ++ v) : ∃ r, u = '{' :: b ++ '}' :: r ∧ t = r ++ v := by
  have he' : ('{' :: b ++ ['}']) ++ t = u ++ v := by simpa using he
  rcases List.append_eq_append_iff.1 he' with ⟨q, rfl, rfl⟩ | ⟨q, hq, rfl⟩
  · exact ⟨q, by simp, rfl⟩
  · rcases List.suffix_concat_iff.1 ⟨u, hq.symm⟩ with rfl | ⟨p, rfl, -⟩
    · exact ⟨[], by simpa using hq.symm, rfl⟩
    · rcases hv with hv | hv
      · simp at hv
      · have hmem : '\n' ∈ p ++ ['}'] := by
          apply List.mem_of_head?
          cases p with
          | nil => simp at hv
          | cons d p => simpa using hv
        have : '\n' ∈ '{' :: b ++ ['}'] := hq ▸ List.mem_append_right u hmem
        simp [hn] at this

theorem layout_cut (h : Layout bs (u ++ v)) (hv : '}' ∉ v ∨ v.head? = some '\n') :
    ∃ bs₁ bs₂, bs = bs₁ ++ bs₂ ∧ Layout bs₁ u ∧ Layout bs₂ v := by
  generalize he : u ++ v = t at h
  induction h generalizing u with
  | nil =>
    obtain ⟨rfl, rfl⟩ := List.append_eq_nil_iff.1 he
    exact ⟨[], [], rfl, .nil, .nil⟩
  | @char c bs t ho hc ht ih =>
    cases u with
    | nil => exact ⟨[], bs, rfl, .nil, (show v = c :: t from he) ▸ .char ho hc ht⟩
    | cons d u =>
      obtain ⟨rfl, htail⟩ := List.cons.inj he
      obtain ⟨bs₁, bs₂, rfl, hu, hv⟩ := ih htail
      exact ⟨bs₁, bs₂, rfl, .char ho hc hu, hv⟩
  | block hb hn _ ih =>
    obtain ⟨r, rfl, htail⟩ := block_append_eq hn hv he.symm
    obtain ⟨bs₁, bs₂, rfl, hu, hv⟩ := ih htail.symm
    exact ⟨_ :: bs₁, bs₂, rfl, .block hb hn hu, hv⟩

theorem layout_trimStart (h : Layout bs t) : Layout bs (trimStart t) := by
  induction h with
  | nil => exact .nil
  | @char c bs t ho hc ht ih =>
    by_cases hb : isBlank c
    · simpa [trimStart, List.dropWhile_cons, hb] using ih
    · rw [trimStart_eq_self (by simpa using hb)]
      exact .char ho hc ht
  | block hb hn ht =>
    rw [trimStart_eq_self (by simp [isBlank])]
    exact .block hb hn ht

theorem layout_trimEnd (h : Layout bs t) : Layout bs (trimEnd t) := by
  have hblank : ∀ c ∈ t.rtakeWhile isBlank, isBlank c := fun c hc => List.mem_rtakeWhile_imp hc
  rw [← List.rdropWhile_append_rtakeWhile (p := isBlank) (l := t)] at h
  obtain ⟨bs₁, bs₂, rfl, hu, hv⟩ := layout_cut h
    (Or.inl (not_mem_of_blank hblank (by decide)))
  obtain rfl := eq_nil_of_layout hv (not_mem_of_blank hblank (by decide))
  simpa [trimEnd_eq_rdropWhile] using hu

theorem layout_trim (h : Layout bs t) : Layout bs (trim t) := layout_trimEnd (layout_trimStart h)

/-- Putting the trimmed lines of a text on one line keeps the blocks. -/
theorem layout_join (h : Layout bs t) : Layout bs ([' '].intercalate (pieces '\n' t)) := by
  induction t using sep_induction '\n' generalizing bs with
  | single t ht =>
    have htrim := layout_trim h
    rw [pieces_of_not_mem ht]
    split
    · rename_i hnil
      rwa [hnil] at htrim
    · rwa [List.intercalate_singleton]
  | append l r hl ih =>
    obtain ⟨bs₁, bs₂, rfl, hbl, hbr⟩ := layout_cut h (Or.inr rfl)
    have hbr : Layout bs₂ r := by
      cases hbr with
      | char _ _ hr => exact hr
    have htrim := layout_trim hbl
    have hjoin := ih hbr
    rw [pieces_append, pieces_of_not_mem hl]
    split
    · rename_i hnil
      rw [hnil] at htrim
      obtain rfl := layout_nil_iff.1 htrim
      exact hjoin
    · by_cases hr : pieces '\n' r = []
      · rw [hr] at hjoin
        obtain rfl := layout_nil_iff.1 hjoin
        simpa [hr, List.intercalate_singleton] using htrim
      · rw [List.singleton_append, List.intercalate_cons_of_ne_nil hr, List.append_assoc]
        exact layout_append htrim (.char (by decide) (by decide) hjoin)

end ConsoleSignature.Block
