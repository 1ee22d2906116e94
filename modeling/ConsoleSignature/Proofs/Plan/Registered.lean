import Mathlib
import ConsoleSignature.Command.OfSignature
import ConsoleSignature.Plan
import ConsoleSignature.Proofs.Entry.FirstOfName

/-!
The names that a route registers. Only a sub-command can have one twice: where it gets an entry that
all sub-commands share, next to another of the same name.
-/
namespace ConsoleSignature

/-- The names of a route's arguments and options. -/
def Route.registered (r : Route) : List String :=
  r.arguments.map Plan.Argument.name ++ r.options.map Plan.Flag.name

namespace Plan

open scoped List

variable {cs : List Command} {c : Command} {subs : List Entry} {sub : Entry} {r : Route} {i : Nat}

theorem mem_routes_iff :
    r ∈ (ofCommands cs).routes ↔ ∃ c i, cs[i]? = some c ∧ r ∈ routesOf i c := by
  simp [ofCommands, List.mem_flatMap, List.mem_zipIdx_iff_getElem?]

/-- A route is that of a plain command, of a namespace that is not hidden, or of a sub-command. -/
theorem mem_routesOf (h : r ∈ routesOf i c) :
    (expands? c = none ∧ r = commandRoute i c) ∨
      ∃ subs, expands? c = some subs ∧
        ((c.hidden = false ∧ r = namespaceRoute i c) ∨
          ∃ sub ∈ routed subs, r = subCommandRoute i c subs sub) := by
  unfold routesOf at h
  split at h
  · rename_i subs hsubs
    refine Or.inr ⟨subs, hsubs, ?_⟩
    rcases List.mem_append.1 h with h | h
    · split at h
      · simp at h
      · rename_i hhidden
        exact Or.inl ⟨by simpa using hhidden, by simpa using h⟩
    · obtain ⟨sub, hsub, rfl⟩ := List.mem_map.1 h
      exact Or.inr ⟨sub, hsub, rfl⟩
  · rename_i hplain
    exact Or.inl ⟨hplain, by simpa using h⟩

theorem names_argumentsOf (es : List Entry) (parent : Option Entry) :
    (argumentsOf es parent).map Argument.name = (es.filter (!·.isFlag)).map Entry.name := by
  rw [argumentsOf, List.map_map]
  rfl

theorem names_flagsOf (es : List Entry) (parent : Option Entry) :
    (flagsOf es parent).map Flag.name = (es.filter (·.isFlag)).map Entry.name := by
  rw [flagsOf, List.map_map]
  rfl

/-- Arguments and options part the entries, so that no name is lost or added. -/
theorem names_parted (es : List Entry) :
    (es.filter (!·.isFlag)).map Entry.name ++ (es.filter (·.isFlag)).map Entry.name ~
      es.map Entry.name := by
  rw [← List.map_append]
  exact (List.perm_append_comm.trans (List.filter_append_perm (·.isFlag) es)).map Entry.name

theorem registered_commandRoute (i : Nat) (c : Command) :
    (commandRoute i c).registered ~ (Entry.firstOfName c.options).map Entry.name := by
  simp only [Route.registered, commandRoute, names_argumentsOf, names_flagsOf]
  exact names_parted _

theorem registered_namespaceRoute (i : Nat) (c : Command) :
    (namespaceRoute i c).registered = (Entry.firstOfName c.options).map Entry.name := by
  simp [Route.registered, namespaceRoute, namespaceOptions, Function.comp_def, Flag.ofEntry]

theorem registered_subCommandRoute (i : Nat) (c : Command) (subs : List Entry) (sub : Entry) :
    (subCommandRoute i c subs sub).registered ~
      (sharedEntries c subs).map Entry.name ++
        (Entry.firstOfName (sub.nested.getD [])).map Entry.name := by
  simp only [Route.registered, subCommandRoute, List.map_append, names_argumentsOf, names_flagsOf]
  refine List.Perm.trans ?_ ((names_parted _).append (names_parted _))
  rw [List.perm_iff_count]
  intro n
  simp only [List.count_append]
  omega

/-- What all sub-commands share has names of its own, and this sub-command declares none of them. -/
structure Apart (c : Command) (subs : List Entry) (sub : Entry) : Prop where
  shared : ((sharedEntries c subs).map Entry.name).Nodup
  nested : ∀ e ∈ sub.nested.getD [], ∀ d ∈ sharedEntries c subs, e.name ≠ d.name

theorem registered_subCommandRoute_nodup_iff :
    (subCommandRoute i c subs sub).registered.Nodup ↔ Apart c subs sub := by
  rw [(registered_subCommandRoute i c subs sub).nodup_iff, List.nodup_append]
  constructor
  · rintro ⟨hshared, -, hapart⟩
    refine ⟨hshared, fun e he d hd => ?_⟩
    have hown : e.name ∈ (Entry.firstOfName (sub.nested.getD [])).map Entry.name :=
      Entry.mem_names_firstOfName.2 (List.mem_map_of_mem he)
    exact (hapart d.name (List.mem_map_of_mem hd) e.name hown).symm
  · rintro ⟨hshared, hnested⟩
    refine ⟨hshared, Entry.nodup_names_firstOfName _, ?_⟩
    intro n hn m hm
    obtain ⟨d, hd, rfl⟩ := List.mem_map.1 hn
    obtain ⟨e, he, rfl⟩ := List.mem_map.1 (Entry.mem_names_firstOfName.1 hm)
    exact (hnested e he d hd).symm

/-- No route registers a name twice, but for those of sub-commands that are not kept apart from the
shared entries. -/
theorem registered_nodup_iff (cs : List Command) :
    (∀ r ∈ (ofCommands cs).routes, r.registered.Nodup) ↔
      ∀ c ∈ cs, ∀ subs, expands? c = some subs → ∀ sub ∈ routed subs, Apart c subs sub := by
  constructor
  · intro h c hc subs hsubs sub hsub
    obtain ⟨i, hi⟩ := List.mem_iff_getElem?.1 hc
    have hroute : subCommandRoute i c subs sub ∈ routesOf i c := by
      simp only [routesOf, hsubs]
      exact List.mem_append_right _ (List.mem_map_of_mem hsub)
    exact registered_subCommandRoute_nodup_iff.1 (h _ (mem_routes_iff.2 ⟨c, i, hi, hroute⟩))
  · intro h r hr
    obtain ⟨c, i, hi, hr⟩ := mem_routes_iff.1 hr
    have hc : c ∈ cs := List.mem_of_getElem? hi
    rcases mem_routesOf hr with ⟨-, rfl⟩ | ⟨subs, hsubs, ⟨-, rfl⟩ | ⟨sub, hsub, rfl⟩⟩
    · exact (registered_commandRoute i c).nodup_iff.2 (Entry.nodup_names_firstOfName _)
    · rw [registered_namespaceRoute]
      exact Entry.nodup_names_firstOfName _
    · exact registered_subCommandRoute_nodup_iff.2 (h c hc subs hsubs sub hsub)

/-- A sub-command's own option may have the name of one that all sub-commands share. Both are
registered with it. -/
theorem exists_registered_twice :
    ¬ ∀ cs : List Command,
      (∀ c ∈ cs, ∃ signature handler, c = Command.ofSignature signature handler) →
        ∀ r ∈ (ofCommands cs).routes, r.registered.Nodup := by
  intro h
  obtain ⟨c, hc⟩ : ∃ c, c = Command.ofSignature
      "make:\n\x7bmodel : Create | \x7b--force : Overwrite\x7d\x7d\n\x7b^--force : Overwrite\x7d"
      ⟨0, "", none⟩ := ⟨_, rfl⟩
  have hroutes : (ofCommands [c]).routes.map Route.registered =
      [["force"], ["force", "force"]] := by
    rw [hc]
    cbv
  have hnodup : ∀ ns ∈ (ofCommands [c]).routes.map Route.registered, ns.Nodup := by
    intro ns hns
    obtain ⟨r, hr, rfl⟩ := List.mem_map.1 hns
    exact h [c] (by simpa using ⟨_, _, hc⟩) r hr
  rw [hroutes] at hnodup
  simpa using hnodup ["force", "force"] (by simp)

end Plan

end ConsoleSignature
