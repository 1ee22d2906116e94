import ConsoleSignature.Proofs.Entry.OneLine
import ConsoleSignature.Proofs.Plan.Resolution

/-!
How routes are called and options are given is shown on one line: no name or token that a plan takes
from compiled commands holds a line break.
-/
namespace ConsoleSignature

open Text

variable {cs : List Command} {c : Command} {es subs : List Entry} {e sub : Entry} {r : Route}
  {o : Plan.Flag} {a : Plan.Argument} {parent : Option Entry} {v : String} {i : Nat}

namespace Plan

open Entry

theorem newline_not_mem_argumentToken (h : e.OneLine) : '\n' ∉ (argumentToken e).toList := by
  unfold argumentToken ellipsis
  cases hp : e.placeholder with
  | some p => exact h.placeholder p hp
  | none =>
    have hname := h.name
    cases e.required <;> cases e.multiple <;> simp [hname]

theorem newline_not_mem_valueToken (h : e.OneLine) (hv : valueToken e = some v) :
    '\n' ∉ v.toList := by
  have hname : '\n' ∉ (withoutDashes e.name).toList := by
    simp [withoutDashes, h.name]
  unfold valueToken ellipsis at hv
  cases hp : e.placeholder with
  | some p =>
    rw [hp] at hv
    exact Option.some.inj hv ▸ h.placeholder p hp
  | none =>
    rw [hp] at hv
    split_ifs at hv <;> obtain rfl := Option.some.inj hv <;> simp [hname]

theorem newline_not_mem_flagToken (h : e.OneLine) : '\n' ∉ (flagToken e).toList := by
  unfold flagToken
  rw [String.toList_append, List.mem_append, not_or]
  constructor
  · refine not_mem_intercalate (by decide) fun f hf => ?_
    cases hfs : e.flags with
    | none => simp [hfs] at hf
    | some fs => exact h.flags fs hfs f (by simpa [hfs] using hf)
  · split
    · rename_i v hv
      simp [newline_not_mem_valueToken h hv]
    · simp

theorem newline_not_mem_token_of_arguments (h : ∀ e ∈ es, e.OneLine)
    (ha : a ∈ argumentsOf es parent) : '\n' ∉ a.token.toList := by
  obtain ⟨e, he, rfl⟩ := List.mem_map.1 ha
  exact newline_not_mem_argumentToken (h e (List.mem_of_mem_filter he))

theorem mem_of_mem_firstOfName (h : e ∈ firstOfName es) : e ∈ es := by
  obtain ⟨before, after, rfl, -⟩ := exists_of_mem_firstOfName h
  simp

section Commands

variable (hc : ∃ signature handler, c = Command.ofSignature signature handler)
include hc

theorem oneLine_expands (hsubs : expands? c = some subs) (he : e ∈ subs) :
    e.OneLine ∧ ∀ n ∈ e.nested.getD [], n.OneLine := by
  obtain ⟨signature, handler, rfl⟩ := hc
  have hmem : e ∈ (Command.ofSignature signature handler).subCommands.getD [] := by
    simpa [(subCommands_of_expands hsubs).2] using he
  obtain ⟨b, hb, rfl⟩ := Command.exists_block_of_mem (.inr hmem)
  exact ⟨oneLine_ofBlock hb, fun n hn => oneLine_nested hb hn⟩

theorem oneLine_sharedEntries (hsubs : expands? c = some subs) :
    ∀ e ∈ sharedEntries c subs, e.OneLine := by
  intro e he
  rcases List.mem_append.1 he with he | he
  · exact (oneLine_expands hc hsubs (List.mem_of_mem_filter he)).1
  · exact Command.oneLine_of_mem hc (.inl (List.mem_of_mem_filter he))

theorem newline_not_mem_route (hr : r ∈ routesOf i c) :
    '\n' ∉ r.name.toList ∧ ∀ a ∈ r.arguments, '\n' ∉ a.token.toList := by
  have hbase := Command.newline_not_mem_base hc
  rcases mem_routesOf hr with ⟨-, rfl⟩ | ⟨subs, hsubs, ⟨-, rfl⟩ | ⟨sub, hsub, rfl⟩⟩
  · refine ⟨hbase, fun a ha => newline_not_mem_token_of_arguments ?_ ha⟩
    exact fun e he => Command.oneLine_of_mem hc (.inl (mem_of_mem_firstOfName he))
  · exact ⟨hbase, by simp [namespaceRoute]⟩
  · have hmem : sub ∈ subs := List.mem_of_mem_filter (mem_of_mem_firstOfName hsub)
    obtain ⟨hline, hnested⟩ := oneLine_expands hc hsubs hmem
    constructor
    · simp [subCommandRoute, hbase, hline.name]
    · intro a ha
      rcases List.mem_append.1 ha with ha | ha
      · exact newline_not_mem_token_of_arguments (oneLine_sharedEntries hc hsubs) ha
      · exact newline_not_mem_token_of_arguments
          (fun e he => hnested e (mem_of_mem_firstOfName he)) ha

theorem newline_not_mem_rootOption (ho : o ∈ rootOptionsOf c) : '\n' ∉ o.token.toList := by
  unfold rootOptionsOf at ho
  split at ho
  · obtain ⟨e, he, rfl⟩ := List.mem_map.1 ho
    exact newline_not_mem_flagToken (Command.oneLine_of_mem hc (.inl (mem_of_mem_firstOfName he)))
  · simp at ho

end Commands

theorem newline_not_mem_usage (hname : '\n' ∉ r.name.toList)
    (harguments : ∀ a ∈ r.arguments, '\n' ∉ a.token.toList) : '\n' ∉ r.usage.toList := by
  refine not_mem_intercalate (by decide) ?_
  intro x hx
  rw [List.cons_append, List.mem_cons, List.mem_append] at hx
  rcases hx with rfl | hx | hx
  · exact hname
  · obtain ⟨a, ha, rfl⟩ := List.mem_map.1 hx
    exact harguments a ha
  · split at hx
    · simp at hx
    · obtain rfl : x = "[options]" := by simpa using hx
      decide

/-- What a plan of compiled commands is shown by. -/
theorem newline_not_mem_ofCommands
    (hcs : ∀ c ∈ cs, ∃ signature handler, c = Command.ofSignature signature handler) :
    (∀ r ∈ (ofCommands cs).routes, '\n' ∉ r.usage.toList) ∧
      ∀ o ∈ (ofCommands cs).rootOptions, '\n' ∉ o.token.toList := by
  constructor
  · intro r hr
    obtain ⟨c, i, hi, hr⟩ := mem_routes_iff.1 hr
    obtain ⟨hname, harguments⟩ := newline_not_mem_route (hcs c (List.mem_of_getElem? hi)) hr
    exact newline_not_mem_usage hname harguments
  · intro o ho
    obtain ⟨c, hc, ho⟩ := List.mem_flatMap.1 ho
    exact newline_not_mem_rootOption (hcs c hc) ho

end Plan

end ConsoleSignature
