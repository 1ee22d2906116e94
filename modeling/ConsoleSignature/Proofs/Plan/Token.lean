import ConsoleSignature.Plan.Token
import ConsoleSignature.Proofs.Entry.Naming
import ConsoleSignature.Proofs.Entry.WellFormed

/-!
What a token says about the declaration it was made from: whether an option takes a value, and
whether an argument must be given, can be read off the text before the colon of its block.
-/
namespace ConsoleSignature

open Text

variable {s part before after : List Char} {e : Entry}

namespace Entry

theorem Modifier.cutEnd_eq_optional_iff :
    (cutEnd s).2 = .optional ↔ s.getLast? = some '?' := by
  rw [← List.head?_reverse, cutEnd]
  split
  case h_4 hrepeated hoptional =>
    cases hs : s.reverse with
    | nil => simp
    | cons c r => simpa using fun he : c = '?' => hoptional r (he ▸ hs)
  all_goals simp_all

theorem Modifier.isRepeated_cutEnd_iff :
    (cutEnd s).2.isRepeated = true ↔ s.getLast? = some '*' := by
  rw [← List.head?_reverse, cutEnd]
  split
  case h_4 hrepeated hoptional =>
    cases hs : s.reverse with
    | nil => simp [isRepeated]
    | cons c r => simpa [isRepeated] using fun he : c = '*' => hrepeated r (he ▸ hs)
  all_goals simp_all [isRepeated]

namespace Naming

theorem cutDefault_append (h : '=' ∉ before) (after : List Char) :
    cutDefault (before ++ '=' :: after) = (trim before, some (trim after)) := by
  simp [cutDefault, cut_append h]

/-- What stands behind the first equals sign decides the brackets, unless the name before it is
marked optional. -/
theorem placeholder_append (h : '=' ∉ before) (after : List Char) :
    (ofPart (before ++ '=' :: after)).placeholder =
      if (trim before).getLast? = some '?' then
        some (bracketed (lastAlternative (Modifier.cutEnd (trim before)).1))
      else if trim after = [] then some (angled (lastAlternative (trim before)))
      else some (bracketed (lastAlternative (trim before))) := by
  rw [placeholder_ofPart, modifier, cutDefault_append h]
  simp only [← Modifier.cutEnd_eq_optional_iff]
  cases (Modifier.cutEnd (trim before)).2 <;>
    simp [placeholderOf, apply_ite some]

theorem placeholder_of_not_mem (h : '=' ∉ part) :
    (ofPart part).placeholder =
      if part.getLast? = some '?' then some (bracketed (lastAlternative (Modifier.cutEnd part).1))
      else none := by
  rw [placeholder_ofPart, modifier, cutDefault_of_not_mem h]
  simp only [← Modifier.cutEnd_eq_optional_iff]
  cases (Modifier.cutEnd part).2 <;> simp [placeholderOf]

theorem multiple_of_not_mem (h : '=' ∉ part) :
    (ofPart part).multiple = true ↔ part.getLast? = some '*' := by
  rw [multiple_ofPart, modifier, cutDefault_of_not_mem h, Modifier.isRepeated_cutEnd_iff]

/-- Neither brackets nor repetition: nothing stands behind the name. -/
theorem plain_iff (part : List Char) :
    ((ofPart part).placeholder = none ∧ (ofPart part).multiple = false) ↔
      '=' ∉ part ∧ part.getLast? ≠ some '?' ∧ part.getLast? ≠ some '*' := by
  rcases eq_or_append_of_sep '=' part with h | ⟨before, after, rfl, hbefore⟩
  · rw [placeholder_of_not_mem h, ← Bool.not_eq_true, multiple_of_not_mem h]
    simp [h]
  · rw [placeholder_append hbefore]
    have hmem : '=' ∈ before ++ '=' :: after := by simp
    simp only [hmem, not_true, false_and, iff_false]
    rintro ⟨hnone, -⟩
    split_ifs at hnone

theorem not_required_of_mem (h : '=' ∈ part) : (ofPart part).required = false := by
  rw [required_ofPart, Bool.and_eq_false_iff, ← Bool.not_eq_true]
  exact Or.inl fun hplain => not_mem_of_isPlainName hplain (by decide) h

end Naming

/-- The text that names what a block declares: that before its first colon, marker and blanks
aside, or all of it. -/
def nameText (content : List Char) : List Char :=
  trim (cut ':' (Marking.ofText (trim content)).text).1

theorem name_ofContent (content : List Char) :
    (Parts.ofContent content).name = nameText content := rfl

theorem isFlag_ofBlock (content : List Char) :
    (ofBlock content).isFlag = (Naming.ofPart (nameText content)).flags.isSome := by
  rw [ofBlock_eq, Parts.entry, name_ofContent]

theorem required_ofBlock (content : List Char) :
    (ofBlock content).required = (Naming.ofPart (nameText content)).required := by
  rw [ofBlock_eq, Parts.entry, name_ofContent]

theorem multiple_ofBlock (content : List Char) :
    (ofBlock content).multiple = (Naming.ofPart (nameText content)).multiple := by
  rw [ofBlock_eq, Parts.entry, name_ofContent]

theorem placeholder_ofBlock (content : List Char) :
    (ofBlock content).placeholder = (Naming.ofPart (nameText content)).placeholder := by
  rw [ofBlock_eq, Parts.entry, name_ofContent]

end Entry

namespace Plan

open Entry

theorem valueToken_eq_none_iff (h : e.required = false) :
    valueToken e = none ↔ e.placeholder = none ∧ e.multiple = false := by
  unfold valueToken
  cases e.placeholder <;> simp [h]

theorem valueToken_of_not_required {v : String} (h : e.required = false)
    (hv : valueToken e = some v) :
    e.placeholder = some v ∨ e.placeholder = none ∧ e.multiple = true ∧
      v = "[" ++ withoutDashes e.name ++ "...]" := by
  unfold valueToken at hv
  cases hp : e.placeholder with
  | some p => simpa [hp] using hv
  | none =>
    simp only [hp, h, Bool.false_eq_true, if_false, Option.ite_none_right_eq_some,
      Option.some.injEq] at hv
    exact .inr ⟨rfl, hv.1, hv.2.symm⟩

theorem head_bracketed (s : List Char) : (Naming.bracketed s).toList.head? = some '[' := by
  simp [Naming.bracketed]

theorem head_angled (s : List Char) : (Naming.angled s).toList.head? = some '<' := by
  simp [Naming.angled]

/-- Without a token of its own, an argument's brackets tell whether it is required. -/
theorem head_argumentToken (h : e.placeholder = none) :
    (argumentToken e).toList.head? = some (if e.required then '<' else '[') := by
  unfold argumentToken
  rw [h]
  cases e.required <;> simp

theorem argumentToken_of_placeholder {p : String} (h : e.placeholder = some p) :
    argumentToken e = p := by
  simp [argumentToken, h]

/-- A part with an equals sign and nothing but blanks behind the first one, where the name before it
is not marked optional. -/
def HasVoidDefault (part : List Char) : Prop :=
  ∃ before after, part = before ++ '=' :: after ∧ '=' ∉ before ∧ (∀ c ∈ after, isBlank c) ∧
    (trim before).getLast? ≠ some '?'

theorem hasVoidDefault_append_iff (h : '=' ∉ before) (after : List Char) :
    HasVoidDefault (before ++ '=' :: after) ↔
      trim after = [] ∧ (trim before).getLast? ≠ some '?' := by
  rw [trim_eq_nil_iff]
  constructor
  · rintro ⟨before', after', he, hbefore', hblank, hlast⟩
    -- The first equals sign stands where it stands.
    have hcut : (before, some after) = (before', some after') := by
      rw [← cut_append h, ← cut_append hbefore', he]
    obtain ⟨rfl, rfl⟩ : before = before' ∧ after = after' := by simpa using hcut
    exact ⟨hblank, hlast⟩
  · rintro ⟨hblank, hlast⟩
    exact ⟨before, after, rfl, h, hblank, hlast⟩

/-- Angle brackets are those of what is required or has a void default. -/
theorem head_argumentToken_iff {part : List Char}
    (hrequired : e.required = (Naming.ofPart part).required)
    (hplaceholder : e.placeholder = (Naming.ofPart part).placeholder) :
    (argumentToken e).toList.head? = some '<' ↔ e.required = true ∨ HasVoidDefault part := by
  rcases eq_or_append_of_sep '=' part with h | ⟨before, after, rfl, hbefore⟩
  · have hnone : ¬HasVoidDefault part := by
      rintro ⟨before, after, rfl, -⟩
      simp at h
    rw [Naming.placeholder_of_not_mem h] at hplaceholder
    split at hplaceholder
    · have hnot : e.required = false := by
        rw [hrequired, ← Bool.not_eq_true]
        intro hr
        have := (Naming.bare_of_required hr).2.2.2
        simp_all [Naming.placeholder_of_not_mem h]
      simp [argumentToken_of_placeholder hplaceholder, head_bracketed, hnot, hnone]
    · rw [head_argumentToken hplaceholder]
      cases e.required <;> simp [hnone]
  · have hnot : e.required = false := by
      rw [hrequired, Naming.not_required_of_mem (by simp)]
    rw [hasVoidDefault_append_iff hbefore, hnot]
    rw [Naming.placeholder_append hbefore] at hplaceholder
    split_ifs at hplaceholder with hoptional hvoid
    · simp [argumentToken_of_placeholder hplaceholder, head_bracketed, hoptional]
    · simp [argumentToken_of_placeholder hplaceholder, head_angled, hoptional, hvoid]
    · simp [argumentToken_of_placeholder hplaceholder, head_bracketed, hvoid]

theorem argumentToken_of_required (h : e.WellFormed) (hrequired : e.required = true) :
    argumentToken e = "<" ++ e.name ++ ">" := by
  obtain ⟨-, hmultiple, -, hplaceholder⟩ := h.bare hrequired
  simp [argumentToken, hplaceholder, hrequired, ellipsis, hmultiple]

/-- Tokens tell the truth. An option takes a value unless the text that names it has neither an
equals sign nor a modifier at its end, and no value is shown as required; an argument's token is in
angle brackets if it is required or has a void default, and what is required is shown by its name
alone. -/
theorem tokens_ofBlock (content : List Char) (parent : Option Entry) :
    let p := nameText content
    let o := Entry.ofBlock content
    let option := Flag.ofEntry o parent
    let argument := Argument.ofEntry o parent
    (o.isFlag = true →
      (option.value = none ↔
        '=' ∉ p ∧ p.getLast? ≠ some '?' ∧ p.getLast? ≠ some '*') ∧
      o.required = false ∧
      ∀ v, option.value = some v → o.placeholder = some v ∨
        o.placeholder = none ∧ option.variadic = true ∧
          v = "[" ++ withoutDashes o.name ++ "...]") ∧
    (o.isFlag = false →
      (argument.token.toList.head? = some '<' ↔ o.required = true ∨ HasVoidDefault p) ∧
      (o.required = true → argument.token = "<" ++ o.name ++ ">" ∧
        o.defaultValue = none ∧ argument.defaultValue = none ∧ argument.variadic = false)) := by
  intro p o option argument
  have hwell : o.WellFormed := wellFormed_of_within .self
  refine ⟨fun hflag => ?asOption, fun _ => ?asArgument⟩
  case asOption =>
    have hrequired : o.required = false := by
      rw [← Bool.not_eq_true]
      intro h
      simp [(hwell.bare h).1] at hflag
    refine ⟨?_, hrequired, fun v hv => valueToken_of_not_required hrequired hv⟩
    rw [← Naming.plain_iff, ← placeholder_ofBlock, ← multiple_ofBlock]
    exact valueToken_eq_none_iff hrequired
  case asArgument =>
    refine ⟨head_argumentToken_iff (required_ofBlock content) (placeholder_ofBlock content), ?_⟩
    intro hrequired
    obtain ⟨-, hmultiple, hdefault, -⟩ := hwell.bare hrequired
    exact ⟨argumentToken_of_required hwell hrequired, hdefault,
      by simp [argument, Argument.ofEntry, defaultOf, hdefault], hmultiple⟩

theorem tokens_ofBlock_tags :
    let tags := Entry.ofBlock "^--t|tags* = : Tags".toList
    let file := Entry.ofBlock "file \t= : File".toList
    tags.isFlag = true ∧ (Flag.ofEntry tags none).value ≠ none ∧ tags.required = false ∧
      file.isFlag = false ∧ (Argument.ofEntry file none).token.toList.head? = some '<' := by
  intro tags file
  have htags : tags.isFlag = true := by
    simp only [tags, isFlag_ofBlock]
    decide
  have hfile : file.isFlag = false := by
    simp only [file, isFlag_ofBlock]
    decide
  obtain ⟨hvalue, hrequired, -⟩ := (tokens_ofBlock "^--t|tags* = : Tags".toList none).1 htags
  obtain ⟨hangled, -⟩ := (tokens_ofBlock "file \t= : File".toList none).2 hfile
  refine ⟨htags, fun hnone => ?_, hrequired, hfile, hangled.2 (.inr ?_)⟩
  · exact absurd (hvalue.1 hnone).1 (by decide)
  · exact ⟨"file \t".toList, [], by decide, by decide, by simp, by decide⟩

end Plan

end ConsoleSignature
