import ConsoleSignature.Proofs.Block.WellShaped
import ConsoleSignature.Proofs.Entry.Choices
import ConsoleSignature.Proofs.Entry.Naming
import ConsoleSignature.Proofs.Entry.Within

/-!
List defaults. Their parts are such as texts fall into at commas, so that a list is read back from
what it is shown as; and a text stands for the same list however loosely its commas are set.
-/
namespace ConsoleSignature

open Text

variable {content raw : List Char} {d : Entry} {x : String} {xs : List String}

namespace DefaultValue

/-- What stands between the commas of a list that is written without slack. -/
def IsPart (x : String) : Prop := x ≠ "" ∧ Trimmed x.toList ∧ ',' ∉ x.toList

theorem commaParts_intercalate (h : ∀ x ∈ xs, IsPart x) :
    commaParts (",".intercalate xs).toList = xs := by
  have hparts : ∀ p ∈ xs.map String.toList, p ≠ [] ∧ Trimmed p ∧ ',' ∉ p := by
    rw [List.forall_mem_map]
    exact fun x hx => ⟨by simpa using (h x hx).1, (h x hx).2⟩
  calc commaParts (",".intercalate xs).toList
      = (pieces ',' ([','].intercalate (xs.map String.toList))).map String.ofList := by
        rw [commaParts, String.toList_intercalate]
        rfl
    _ = (xs.map String.toList).map String.ofList := by rw [pieces_intercalate hparts]
    _ = xs := by simp [Function.comp_def]

theorem asList_display (h : ∀ x ∈ xs, IsPart x) : asList (text (list xs).display) = list xs := by
  rw [asList, display, commaParts_intercalate h]

theorem asList_asList (v : DefaultValue) : v.asList.asList = v.asList := by
  cases v <;> rfl

theorem asList_of_loosened {s t : String}
    (h : Relation.ReflTransGen (Loosens ',') s.toList t.toList) :
    asList (text t) = asList (text s) := by
  rw [asList, asList, commaParts, commaParts, pieces_of_loosened h]

theorem eq_nil_of_ofText {required : Bool} (h : ofText x required = list xs) : xs = [] := by
  unfold ofText at h
  split_ifs at h
  · simpa [eq_comm] using h
  · split at h <;> simp at h

end DefaultValue

namespace Entry

open DefaultValue

/-- A repeated entry falls into parts; a flag has a list at all only where it is empty. -/
theorem isPart_of_mem_defaultOf {isFlag multiple : Bool}
    (h : Naming.defaultOf isFlag multiple raw = .list xs) (hx : x ∈ xs) : IsPart x := by
  cases multiple with
  | true =>
    obtain rfl := DefaultValue.list.inj h
    exact mem_commaParts hx
  | false =>
    cases isFlag with
    | true => simp [eq_nil_of_ofText h] at hx
    | false => simp [Naming.defaultOf] at h

theorem isPart_of_mem_default (h : (ofBlock content).defaultValue = some (.list xs))
    (hx : x ∈ xs) : IsPart x := by
  rw [ofBlock_eq] at h
  obtain ⟨raw, -, hraw⟩ := Option.map_eq_some_iff.1 h
  exact isPart_of_mem_defaultOf hraw hx

end Entry

/-- Every list that a block gives as a default, at whatever depth, has parts only. A list of parts
is read back from what it is shown as; a value is made a list once and for all; and the list that a
text stands for does not change when its commas are set more loosely. -/
theorem listDefaults_normal :
    (∀ content d xs, Entry.Within d (Entry.ofBlock content) → d.defaultValue = some (.list xs) →
      ∀ x ∈ xs, DefaultValue.IsPart x) ∧
    (∀ xs, (∀ x ∈ xs, DefaultValue.IsPart x) →
      DefaultValue.asList (.text (DefaultValue.list xs).display) = .list xs) ∧
    (∀ v : DefaultValue, v.asList.asList = v.asList) ∧
    ∀ s t : String, Relation.ReflTransGen (Loosens ',') s.toList t.toList →
      DefaultValue.asList (.text t) = DefaultValue.asList (.text s) := by
  refine ⟨?_, fun _ => DefaultValue.asList_display, DefaultValue.asList_asList,
    fun _ _ => DefaultValue.asList_of_loosened⟩
  intro content d xs hd hxs x hx
  obtain ⟨b, rfl⟩ := Entry.eq_ofBlock_of_within hd
  exact Entry.isPart_of_mem_default hxs hx

theorem listDefaults_normal_tag :
    let block := "run : Go | --tag*= a ,, b c,".toList
    let d := Entry.ofBlock "--tag*= a ,, b c,".toList
    Entry.Within d (Entry.ofBlock block) ∧ d.defaultValue = some (.list ["a", "b c"]) ∧
    (∀ x ∈ ["a", "b c"], DefaultValue.IsPart x) ∧
    DefaultValue.asList (.text "a,b c") = .list ["a", "b c"] ∧
    Relation.ReflTransGen (Loosens ',') "a,b c".toList "a ,, b c,".toList ∧
    DefaultValue.asList (.text "a ,, b c,") = .list ["a", "b c"] := by
  intro block d
  obtain ⟨hparts, hread, -, hloose⟩ := listDefaults_normal
  have htext : (Entry.Parts.ofContent block).nested =
      some ('{' :: "--tag*= a ,, b c,".toList ++ ['}']) := by decide
  have hnested : (Entry.ofBlock block).nested = some [d] := by
    rw [Entry.nested_ofBlock, htext, Option.map_some, Entry.ofBlocks,
      Block.extract_block (by decide), Block.extract, List.map_singleton]
  have hwithin : Entry.Within d (Entry.ofBlock block) := .nested hnested (by simp) .self
  have hdefault : d.defaultValue = some (.list ["a", "b c"]) := by
    rw [show d = Entry.ofBlock _ from rfl, Entry.ofBlock_eq]
    decide
  have hpart := hparts block d _ hwithin hdefault
  have hlist : DefaultValue.asList (.text "a,b c") = .list ["a", "b c"] := hread _ hpart
  have hspace : ∀ c ∈ [' '], isBlank c := List.forall_mem_singleton.2 (by decide)
  have hempty : Loosens ',' "a,b c".toList "a,,b c".toList := .between ['a'] _
  have hleft : Loosens ',' "a,,b c".toList "a ,,b c".toList :=
    .blanks ['a'] ",b c".toList hspace (List.forall_mem_nil _)
  have hright : Loosens ',' "a ,,b c".toList "a ,, b c".toList :=
    .blanks "a ,".toList "b c".toList (List.forall_mem_nil _) hspace
  have hsteps : Relation.ReflTransGen (Loosens ',') "a,b c".toList "a ,, b c,".toList :=
    (((Relation.ReflTransGen.single hempty).tail hleft).tail hright).tail (.after _)
  exact ⟨hwithin, hdefault, hpart, hlist, hsteps, (hloose _ _ hsteps).trans hlist⟩

end ConsoleSignature
