import ConsoleSignature.Proofs.Plan.Registered

/-!
From a route back to the sub-command it was built from. The route has the first sub-command of its
name that is not shared; looking the name up finds the first of any kind. So they differ where a
shared entry of the same name stands before.
-/
namespace ConsoleSignature

/-- The route takes its description and its own arguments and options from this sub-command. -/
structure Route.BuiltFrom (r : Route) (sub : Entry) : Prop where
  subCommand : r.subCommand = some sub.name
  description : r.description = sub.description.getD ""
  arguments : Plan.argumentsOf (Entry.atFirstPlaces (sub.nested.getD [])) none <:+ r.arguments
  options : Plan.flagsOf (Entry.atFirstPlaces (sub.nested.getD [])) none <:+ r.options

namespace Plan

variable {cs : List Command} {c : Command} {subs : List Entry} {sub : Entry} {r : Route}
  {i : Nat} {name : String}

theorem builtFrom_subCommandRoute (i : Nat) (c : Command) (subs : List Entry) (sub : Entry) :
    (subCommandRoute i c subs sub).BuiltFrom sub where
  subCommand := rfl
  description := rfl
  arguments := by
    rw [← Entry.firstOfName_eq_atFirstPlaces]
    exact List.suffix_append _ _
  options := by
    rw [← Entry.firstOfName_eq_atFirstPlaces]
    exact List.suffix_append _ _

theorem commandIndex_of_mem_routesOf (h : r ∈ routesOf i c) : r.commandIndex = i := by
  rcases mem_routesOf h with ⟨-, rfl⟩ | ⟨subs, -, ⟨-, rfl⟩ | ⟨sub, -, rfl⟩⟩ <;> rfl

/-- Only the routes of sub-commands carry the name of one. -/
theorem exists_of_subCommand (h : r ∈ routesOf i c) (hname : r.subCommand = some name) :
    ∃ subs, expands? c = some subs ∧
      ∃ sub ∈ routed subs, sub.name = name ∧ r = subCommandRoute i c subs sub := by
  rcases mem_routesOf h with ⟨-, rfl⟩ | ⟨subs, hsubs, ⟨-, rfl⟩ | ⟨sub, hsub, rfl⟩⟩
  · simp [commandRoute] at hname
  · simp [namespaceRoute] at hname
  · refine ⟨subs, hsubs, sub, hsub, ?_, rfl⟩
    simpa [subCommandRoute] using hname

theorem subCommands_of_expands (h : expands? c = some subs) :
    c.isNamespace = true ∧ c.subCommands = some subs := by
  unfold expands? at h
  split at h
  · rename_i hnamespace
    exact ⟨hnamespace, h⟩
  · simp at h

/-- Before a sub-command with a route all of its name are shared. -/
theorem exists_of_mem_routed (h : sub ∈ routed subs) :
    ∃ before after, subs = before ++ sub :: after ∧ sub.shared = false ∧
      ∀ e ∈ before, e.name = sub.name → e.shared = true := by
  obtain ⟨plain, rest, hplain, hfirst⟩ := Entry.exists_of_mem_firstOfName h
  obtain ⟨start, tail, rfl, hstart, htail⟩ := List.filter_eq_append_iff.1 hplain
  obtain ⟨skipped, after, rfl, hskipped, hsub, -⟩ := List.filter_eq_cons_iff.1 htail
  refine ⟨start ++ skipped, after, by simp, by simpa using hsub, ?_⟩
  intro e he hname
  by_contra hshared
  rcases List.mem_append.1 he with he | he
  · have hmem : e ∈ plain := by
      rw [← hstart]
      exact List.mem_filter.2 ⟨he, by simpa using hshared⟩
    exact hfirst e hmem hname
  · exact hskipped e he (by simpa using hshared)

theorem subCommand?_append {before after : List Entry}
    (hsubs : c.subCommands = some (before ++ sub :: after)) (hname : sub.name = name) :
    c.subCommand? name = (before.find? (·.name == name)).or (some sub) := by
  rw [Command.subCommand?, hsubs, Option.getD_some, List.find?_append,
    List.find?_cons_of_pos (by simpa using hname)]

/-- A route that carries the name of a sub-command was built from the first one of its command with
that name that is not shared. Looking the name up in the command gives that very one where no shared
entry of the name stands before it, and else the first such. -/
theorem subCommand?_of_route (h : r ∈ (ofCommands cs).routes) (hname : r.subCommand = some name) :
    ∃ c before sub after, cs[r.commandIndex]? = some c ∧
      c.subCommands = some (before ++ sub :: after) ∧
      sub.name = name ∧ sub.shared = false ∧ r.BuiltFrom sub ∧
      (∀ e ∈ before, e.name = name → e.shared = true) ∧
      c.subCommand? name = (before.find? (·.name == name)).or (some sub) ∧
      (c.subCommand? name = some sub ↔ ∀ e ∈ before, e.name ≠ name) := by
  obtain ⟨c, i, hc, hr⟩ := mem_routes_iff.1 h
  have hindex := commandIndex_of_mem_routesOf hr
  obtain ⟨subs, hexpands, sub, hsub, rfl, rfl⟩ := exists_of_subCommand hr hname
  obtain ⟨before, after, rfl, hplain, hbefore⟩ := exists_of_mem_routed hsub
  have hsubs := (subCommands_of_expands hexpands).2
  have hfound := subCommand?_append hsubs rfl
  refine ⟨c, before, sub, after, by rwa [hindex], hsubs, rfl, hplain,
    builtFrom_subCommandRoute i c _ sub, hbefore, hfound, ?_⟩
  rw [hfound]
  constructor
  · intro hsame e he hename
    cases hearlier : before.find? (·.name == sub.name) with
    | none =>
      have hnone := List.find?_eq_none.1 hearlier e he
      simp [hename] at hnone
    | some d =>
      have hd : d = sub := by simpa [hearlier] using hsame
      have hshared := hbefore d (List.mem_of_find?_eq_some hearlier) (by rw [hd])
      simp [hd, hplain] at hshared
  · intro hnone
    have hearlier : before.find? (·.name == sub.name) = none :=
      List.find?_eq_none.2 fun e he => by simpa using hnone e he
    rw [hearlier, Option.none_or]

theorem subCommand?_of_route_make :
    let greet := Command.ofSignature "greet\n\x7bname\x7d" ⟨0, "", none⟩
    let make := Command.ofSignature
      "make:\n\x7b^path\x7d\n\x7bmodel : Create | \x7b--to : Place\x7d\x7d\n\x7b^model : Shared\x7d"
      ⟨1, "", none⟩
    ∃ r ∈ (ofCommands [greet, make]).routes, r.subCommand = some "model" ∧
      ∃ c before sub after, [greet, make][r.commandIndex]? = some c ∧
        c.subCommands = some (before ++ sub :: after) ∧
        sub.name = "model" ∧ sub.shared = false ∧ r.BuiltFrom sub ∧
        (∀ e ∈ before, e.name = "model" → e.shared = true) ∧
        c.subCommand? "model" = (before.find? (·.name == "model")).or (some sub) ∧
        (c.subCommand? "model" = some sub ↔ ∀ e ∈ before, e.name ≠ "model") := by
  intro greet make
  have hroutes : (ofCommands [greet, make]).routes.map Route.subCommand =
      [none, none, some "model"] := by
    simp only [greet, make]
    cbv
  have hmem : some "model" ∈ (ofCommands [greet, make]).routes.map Route.subCommand := by
    simp [hroutes]
  obtain ⟨r, hr, hname⟩ := List.mem_map.1 hmem
  exact ⟨r, hr, hname, subCommand?_of_route hr hname⟩

/-- A shared entry that stands before a sub-command of the same name is found in its place. -/
theorem exists_resolved_elsewhere :
    ¬ ∀ cs : List Command,
      (∀ c ∈ cs, ∃ signature handler, c = Command.ofSignature signature handler) →
        ∀ r ∈ (ofCommands cs).routes, ∀ name, r.subCommand = some name →
          ∃ c sub, cs[r.commandIndex]? = some c ∧ c.subCommand? name = some sub ∧
            sub.shared = false ∧ r.BuiltFrom sub := by
  intro h
  obtain ⟨c, hc⟩ : ∃ c, c = Command.ofSignature
      "make:\n\x7b^model : Shared\x7d\n\x7bmodel : Create | \x7b--to : Place\x7d\x7d"
      ⟨0, "", none⟩ := ⟨_, rfl⟩
  have hroutes : (ofCommands [c]).routes.map (fun r => (r.subCommand, r.commandIndex)) =
      [(none, 0), (some "model", 0)] := by
    rw [hc]
    cbv
  have hfound : (c.subCommand? "model").map Entry.shared = some true := by
    rw [hc]
    cbv
  have hmem : (some "model", 0) ∈
      (ofCommands [c]).routes.map fun r => (r.subCommand, r.commandIndex) := by
    simp [hroutes]
  obtain ⟨r, hr, hboth⟩ := List.mem_map.1 hmem
  obtain ⟨hname, hindex⟩ := Prod.mk.inj hboth
  obtain ⟨d, sub, hd, hsub, hplain, -⟩ := h [c] (by simpa using ⟨_, _, hc⟩) r hr "model" hname
  rw [hindex] at hd
  obtain rfl : c = d := by simpa using hd
  rw [hsub, Option.map_some, hplain] at hfound
  simp at hfound

end Plan

end ConsoleSignature
