import ConsoleSignature.Entry.Naming
import ConsoleSignature.Proofs.Text
import Mathlib.Tactic.SplitIfs

/-! What the text before the colon of a block can say: the fields of every naming fit together. -/
namespace ConsoleSignature.Entry

open Text

variable {c : Char} {s p part raw : List Char} {x : Binary64} {isFlag multiple : Bool}

namespace Modifier

theorem cutEnd_append (s : List Char) : (cutEnd s).1 ++ (cutEnd s).2.marks = s := by
  simp only [cutEnd]
  split
  · rename_i r hr
    simpa [marks] using congrArg List.reverse hr.symm
  · rename_i r _ hr
    simpa [marks] using congrArg List.reverse hr.symm
  · rename_i r hr
    simpa [marks] using congrArg List.reverse hr.symm
  · simp [marks]

/-- A modifier that stands behind none of its own marks is cut off whole. -/
theorem cutEnd_marks (h : ∀ c ∈ s.getLast?, c ≠ '?' ∧ c ≠ '*') (m : Modifier) :
    cutEnd (s ++ m.marks) = (s, m) := by
  cases hs : s.reverse with
  | nil =>
    obtain rfl := List.reverse_eq_nil_iff.1 hs
    cases m <;> rfl
  | cons c r =>
    obtain rfl : s = r.reverse ++ [c] := by simpa using congrArg List.reverse hs
    obtain ⟨hq, hstar⟩ := h c (by simp)
    cases m <;> simp [cutEnd, marks, hq, hstar]

theorem cutEnd_eq_plain (h : ∀ c ∈ s.getLast?, c ≠ '?' ∧ c ≠ '*') : cutEnd s = (s, plain) := by
  simpa [marks] using cutEnd_marks h plain

end Modifier

theorem mem_of_isPlainName (h : isPlainName s) (hc : c ∈ s) : isPlainNameChar c := by
  simp only [isPlainName, Bool.and_eq_true, List.all_eq_true] at h
  exact h.2 c hc

theorem not_mem_of_isPlainName (h : isPlainName s) (hc : isPlainNameChar c = false) : c ∉ s := by
  intro hm
  simp [mem_of_isPlainName h hm] at hc

theorem mem_of_mem_flagOf (h : c ∈ flagOf p) : c = '-' ∨ c ∈ p := by
  unfold flagOf at h
  split at h <;> split at h <;> simp at h ⊢ <;> tauto

/-- A flag starts with a dash, and one of a single dash has one character besides at most. -/
def IsFlag (f : List Char) : Prop :=
  f.head? = some '-' ∧ ∀ r, f = '-' :: r → r.head? ≠ some '-' → r.length ≤ 1

theorem isFlag_flagOf (p : List Char) : IsFlag (flagOf p) := by
  unfold flagOf
  split
  · split
    · rename_i r hr
      refine ⟨rfl, ?_⟩
      rintro r' he -
      obtain rfl : r = r' := by simpa using he
      exact Nat.le_of_eq hr
    · refine ⟨rfl, ?_⟩
      rintro r' he hdash
      obtain rfl := (List.cons.inj he).2
      exact absurd rfl hdash
  all_goals
    split
    · refine ⟨rfl, ?_⟩
      rintro r' he hdash
      obtain rfl := (List.cons.inj he).2
      exact absurd rfl hdash
    · rename_i r _ hr
      refine ⟨rfl, ?_⟩
      rintro r' he -
      obtain rfl := (List.cons.inj he).2
      exact Nat.le_of_not_lt hr

namespace Naming

theorem mem_of_mem_cutDefault (h : c ∈ (cutDefault part).1) : c ∈ part := by
  unfold cutDefault at h
  split at h
  · rename_i name raw hcut
    have hname : (cut '=' part).1 = name := by rw [hcut]
    exact mem_of_mem_cut_fst (hname ▸ mem_of_mem_trim h)
  · exact h

theorem cutDefault_of_not_mem (h : '=' ∉ part) : cutDefault part = (part, none) := by
  simp [cutDefault, cut_eq_self h]

/-- The name without its modifier, of an argument or of a list of flags. -/
def stem (part : List Char) : List Char := trim (Modifier.cutEnd (cutDefault part).1).1

def modifier (part : List Char) : Modifier := (Modifier.cutEnd (cutDefault part).1).2

theorem mem_of_mem_stem (h : c ∈ stem part) : c ∈ part := by
  apply mem_of_mem_cutDefault
  rw [← Modifier.cutEnd_append (cutDefault part).1]
  exact List.mem_append_left _ (mem_of_mem_trim h)

theorem flags_ofPart (part : List Char) :
    (ofPart part).flags =
      if isFlagName (stem part) then some ((flagsOf (stem part)).map String.ofList) else none := rfl

theorem name_ofPart (part : List Char) :
    (ofPart part).name = String.ofList
      (if isFlagName (stem part) then ((flagsOf (stem part)).getLast?.getD []).dropWhile isDash
      else stem part) := rfl

theorem required_ofPart (part : List Char) :
    (ofPart part).required = (isPlainName part && !isFlagName (stem part)) := rfl

theorem multiple_ofPart (part : List Char) :
    (ofPart part).multiple = (modifier part).isRepeated := rfl

theorem placeholder_ofPart (part : List Char) :
    (ofPart part).placeholder =
      placeholderOf (cutDefault part).1 (Modifier.cutEnd (cutDefault part).1).1 (cutDefault part).2
        (modifier part) := rfl

theorem defaultValue_ofPart (part : List Char) :
    (ofPart part).defaultValue =
      (cutDefault part).2.map (defaultOf (isFlagName (stem part)) (modifier part).isRepeated) := rfl

/-- What is required has nothing but a name. -/
theorem bare_of_required (h : (ofPart part).required) :
    (ofPart part).flags = none ∧ (ofPart part).multiple = false ∧
      (ofPart part).defaultValue = none ∧ (ofPart part).placeholder = none := by
  simp only [required_ofPart, Bool.and_eq_true, Bool.not_eq_true'] at h
  obtain ⟨hplain, hflag⟩ := h
  have hdefault : cutDefault part = (part, none) :=
    cutDefault_of_not_mem (not_mem_of_isPlainName hplain (by decide))
  have hend : Modifier.cutEnd part = (part, .plain) := by
    apply Modifier.cutEnd_eq_plain
    intro c hc
    have hmem := List.mem_of_getLast? hc
    exact ⟨fun he => not_mem_of_isPlainName hplain (by decide) (he ▸ hmem),
      fun he => not_mem_of_isPlainName hplain (by decide) (he ▸ hmem)⟩
  have hmodifier : modifier part = .plain := by simp [modifier, hdefault, hend]
  refine ⟨?_, ?_, ?_, ?_⟩
  · simp [flags_ofPart, hflag]
  · simp [multiple_ofPart, hmodifier, Modifier.isRepeated]
  · simp [defaultValue_ofPart, hdefault]
  · simp [placeholder_ofPart, hmodifier, hdefault, placeholderOf]

theorem flagsOf_ne_nil (h : isFlagName s) : flagsOf s ≠ [] := by
  obtain ⟨r, rfl⟩ := List.isPrefixOf_iff_prefix.1 h
  have hdash : '-' ∈ ['-', '-'] ++ r := by simp
  obtain ⟨p, hp, -⟩ := exists_mem_pieces hdash (show '-' ≠ '|' by decide) (by decide)
  simpa [flagsOf] using List.ne_nil_of_mem hp

/-- Flags are normalized, and the last one without its dashes is the name. -/
theorem flags_wellFormed {fs : List String} (h : (ofPart part).flags = some fs) :
    fs ≠ [] ∧ (∀ f ∈ fs, IsFlag f.toList) ∧
      ∀ f ∈ fs.getLast?, (ofPart part).name = String.ofList (f.toList.dropWhile isDash) := by
  rw [flags_ofPart] at h
  split at h
  · rename_i hflag
    obtain rfl := (Option.some.inj h).symm
    refine ⟨by simpa using flagsOf_ne_nil hflag, ?_, ?_⟩
    · intro f hf
      obtain ⟨g, hg, rfl⟩ := List.mem_map.1 hf
      obtain ⟨p, -, rfl⟩ := List.mem_map.1 hg
      simpa using isFlag_flagOf p
    · intro f hf
      rw [Option.mem_def, List.getLast?_map, Option.map_eq_some_iff] at hf
      obtain ⟨g, hg, rfl⟩ := hf
      rw [name_ofPart, if_pos hflag, hg, String.toList_ofList]
      rfl
  · simp at h

theorem placeholder_of_default (h : (ofPart part).defaultValue.isSome) :
    (ofPart part).placeholder.isSome := by
  rw [defaultValue_ofPart, Option.isSome_map] at h
  rw [placeholder_ofPart]
  cases modifier part with
  | optional => rfl
  | plain | repeated | optionalRepeated => simpa [placeholderOf] using h

theorem list_of_multiple {v : DefaultValue} (hm : (ofPart part).multiple)
    (h : (ofPart part).defaultValue = some v) : ∃ xs, v = .list xs := by
  rw [multiple_ofPart] at hm
  rw [defaultValue_ofPart, hm, Option.map_eq_some_iff] at h
  obtain ⟨raw, -, rfl⟩ := h
  simp [defaultOf, DefaultValue.asList]

theorem isFinite_of_finite? (h : DefaultValue.finite? s = some x) : x.isFinite := by
  simp only [DefaultValue.finite?, Option.bind_eq_some_iff] at h
  obtain ⟨⟨negative, d⟩, -, h⟩ := h
  split at h
  · simp_all
  · simp at h

theorem isFinite_of_ofText {raw : String} {required : Bool}
    (h : DefaultValue.ofText raw required = .number x) : x.isFinite := by
  unfold DefaultValue.ofText at h
  split_ifs at h
  split at h
  · rename_i y hy
    obtain rfl : y = x := by simpa using h
    exact isFinite_of_finite? hy
  · simp at h

theorem isFinite_of_default (h : (ofPart part).defaultValue = some (.number x)) : x.isFinite := by
  rw [defaultValue_ofPart, Option.map_eq_some_iff] at h
  obtain ⟨raw, -, h⟩ := h
  unfold defaultOf at h
  split at h
  · simp [DefaultValue.asList] at h
  · split at h
    · exact isFinite_of_ofText h
    · simp at h

theorem not_mem_name (h : c ∉ part) (hc : c ≠ '-') : c ∉ (ofPart part).name.toList := by
  intro hm
  rw [name_ofPart, String.toList_ofList] at hm
  split at hm
  · have hflag := (List.dropWhile_sublist isDash).subset hm
    cases hl : (flagsOf (stem part)).getLast? with
    | none => simp [hl] at hflag
    | some f =>
      obtain ⟨p, hp, rfl⟩ := List.mem_map.1 (List.mem_of_getLast? hl)
      rw [hl] at hflag
      have hcp := (mem_of_mem_flagOf hflag).resolve_left hc
      exact h (mem_of_mem_stem ((mem_pieces hp).2.2.2 hcp))
  · exact h (mem_of_mem_stem hm)

end Naming

end ConsoleSignature.Entry
