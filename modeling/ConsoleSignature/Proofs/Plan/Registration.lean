import ConsoleSignature.Proofs.Plan.Append
import ConsoleSignature.Proofs.Plan.Resolution
import ConsoleSignature.Proofs.Sequence

/-!
Registering commands one after another. Whatever is registered already, a command puts its own
routes behind it, so that the plan of two lists is made of their two plans.
-/
namespace ConsoleSignature.Plan

variable {cs : List Command} {c : Command} {subs : List Entry} {r : Route} {i : Nat}

/-- Registers a sub-command, unless it is shared or has a name that was seen before. -/
def registerSubCommand (i : Nat) (c : Command) (subs : List Entry) (x : Plan × List String)
    (sub : Entry) : Plan × List String :=
  if sub.shared ∨ sub.name ∈ x.2 then x
  else ({ x.1 with routes := x.1.routes ++ [subCommandRoute i c subs sub] }, sub.name :: x.2)

/-- Registers a namespace, or its options with the root if it is hidden, and then its sub-commands,
of which no name was seen yet. -/
def registerNamespace (p : Plan) (i : Nat) (c : Command) (subs : List Entry) : Plan :=
  let p :=
    if c.hidden then { p with rootOptions := p.rootOptions ++ namespaceOptions c }
    else { p with routes := p.routes ++ [namespaceRoute i c] }
  (subs.foldl (registerSubCommand i c subs) (p, [])).1

def register (p : Plan) (x : Command × Nat) : Plan :=
  match expands? x.1 with
  | some subs => registerNamespace p x.2 x.1 subs
  | none => { p with routes := p.routes ++ [commandRoute x.2 x.1] }

/-- Those are registered that come first of their name and whose name was not seen. -/
theorem foldl_registerSubCommand (i : Nat) (c : Command) (subs es : List Entry) (p : Plan)
    (seen : List String) :
    (es.foldl (registerSubCommand i c subs) (p, seen)).1 =
      { p with routes := p.routes ++ ((Entry.firstOfName (es.filter (!·.shared))).filter
        (·.name ∉ seen)).map (subCommandRoute i c subs) } := by
  induction es generalizing p seen with
  | nil => simp [Entry.firstOfName]
  | cons e es ih =>
    rw [List.foldl_cons]
    by_cases hshared : e.shared = true
    · have hstep : registerSubCommand i c subs (p, seen) e = (p, seen) := by
        simp [registerSubCommand, hshared]
      rw [hstep, ih, List.filter_cons_of_neg (by simp [hshared])]
    · rw [List.filter_cons_of_pos (by simpa using hshared), Entry.firstOfName]
      by_cases hseen : e.name ∈ seen
      · have hstep : registerSubCommand i c subs (p, seen) e = (p, seen) := by
          simp [registerSubCommand, hseen]
        have hkept : ∀ d : Entry, (decide (d.name ∉ seen) && d.name != e.name) =
            decide (d.name ∉ seen) := by
          intro d
          by_cases hd : d.name = e.name <;> simp [hd, hseen]
        rw [hstep, ih, List.filter_cons_of_neg (by simpa using hseen), List.filter_filter]
        simp only [hkept]
      · have hstep : registerSubCommand i c subs (p, seen) e =
            ({ p with routes := p.routes ++ [subCommandRoute i c subs e] }, e.name :: seen) := by
          simp [registerSubCommand, hshared, hseen]
        have hkept : ∀ d : Entry, decide (d.name ∉ e.name :: seen) =
            (decide (d.name ∉ seen) && d.name != e.name) := by
          intro d
          by_cases hd : d.name = e.name <;> simp [hd]
        rw [hstep, ih, List.filter_cons_of_pos (by simpa using hseen), List.filter_filter]
        simp only [hkept, List.map_cons, List.append_assoc, List.singleton_append]

theorem registerNamespace_eq (p : Plan) (i : Nat) (c : Command) (subs : List Entry) :
    registerNamespace p i c subs =
      ⟨p.routes ++ ((if c.hidden then [] else [namespaceRoute i c]) ++
          (routed subs).map (subCommandRoute i c subs)),
        p.rootOptions ++ if c.hidden then namespaceOptions c else []⟩ := by
  have hall : (Entry.firstOfName (subs.filter (!·.shared))).filter (·.name ∉ ([] : List String)) =
      routed subs := List.filter_eq_self.2 (by simp)
  rw [registerNamespace, foldl_registerSubCommand, hall]
  by_cases hhidden : c.hidden = true <;> simp [hhidden]

/-- One command puts its own behind what is there. -/
theorem register_eq (p : Plan) (x : Command × Nat) :
    register p x = ⟨p.routes ++ routesOf x.2 x.1, p.rootOptions ++ rootOptionsOf x.1⟩ := by
  unfold register
  split
  · rename_i subs hsubs
    rw [registerNamespace_eq]
    simp [routesOf, rootOptionsOf, hsubs]
  · rename_i hplain
    simp [routesOf, rootOptionsOf, hplain]

theorem shift_shift (k m : Nat) (r : Route) : (r.shift m).shift k = r.shift (k + m) := by
  simp [Route.shift, Nat.add_assoc]

/-- Many commands put theirs behind what is there as well, in the order of the list. -/
theorem foldl_register (cs : List Command) (p : Plan) (k : Nat) :
    (cs.zipIdx k).foldl register p =
      ⟨p.routes ++ (ofCommands cs).routes.map (Route.shift k),
        p.rootOptions ++ (ofCommands cs).rootOptions⟩ := by
  induction cs generalizing p k with
  | nil => simp [ofCommands]
  | cons c cs ih =>
    have hroutes : (ofCommands (c :: cs)).routes.map (Route.shift k) =
        routesOf k c ++ (ofCommands cs).routes.map (Route.shift (k + 1)) := by
      have happend := routes_append [c] cs
      rw [routes_singleton, List.singleton_append] at happend
      rw [happend, List.map_append, ← routesOf_add, List.map_map]
      simp only [Function.comp_def, shift_shift, List.length_singleton, Nat.add_zero]
    have hrootOptions : (ofCommands (c :: cs)).rootOptions =
        rootOptionsOf c ++ (ofCommands cs).rootOptions := List.flatMap_cons
    rw [List.zipIdx_cons, List.foldl_cons, register_eq, ih, hroutes, hrootOptions]
    simp only [List.append_assoc]

theorem commandIndex_lt (h : r ∈ (ofCommands cs).routes) : r.commandIndex < cs.length := by
  obtain ⟨c, i, hc, hr⟩ := mem_routes_iff.1 h
  rw [commandIndex_of_mem_routesOf hr]
  exact (List.getElem?_eq_some_iff.1 hc).1

/-- The routes of one command are together, and those of commands that come later stand behind. -/
theorem pairwise_commandIndex (cs : List Command) :
    (ofCommands cs).routes.Pairwise (·.commandIndex ≤ ·.commandIndex) := by
  have hindex : cs.zipIdx.Pairwise fun x y => x.2 < y.2 := by
    have hrange : (cs.zipIdx.map Prod.snd).Pairwise (· < ·) := by
      rw [List.zipIdx_map_snd]
      exact List.pairwise_lt_range'
    exact List.pairwise_map.1 hrange
  rw [routes_ofCommands, List.pairwise_flatMap]
  constructor
  · intro x _
    apply List.pairwise_of_forall_mem_list
    intro r hr q hq
    rw [commandIndex_of_mem_routesOf hr, commandIndex_of_mem_routesOf hq]
  · apply hindex.imp
    intro x y hxy r hr q hq
    rw [commandIndex_of_mem_routesOf hr, commandIndex_of_mem_routesOf hq]
    exact Nat.le_of_lt hxy

/-- The routes of a command are those that it has if planned alone. -/
theorem filter_commandIndex (before after : List Command) (c : Command) :
    (ofCommands (before ++ c :: after)).routes.filter (·.commandIndex == before.length) =
      (ofCommands [c]).routes.map (Route.shift before.length) := by
  have hbefore : (ofCommands before).routes.filter (·.commandIndex == before.length) = [] := by
    rw [List.filter_eq_nil_iff]
    intro r hr
    have := commandIndex_lt hr
    simp only [beq_iff_eq]
    omega
  have hown : (routesOf before.length c).filter (·.commandIndex == before.length) =
      routesOf before.length c := by
    rw [List.filter_eq_self]
    intro r hr
    simp [commandIndex_of_mem_routesOf hr]
  have hafter : ((ofCommands after).routes.map (Route.shift (before.length + 1))).filter
      (·.commandIndex == before.length) = [] := by
    rw [List.filter_eq_nil_iff]
    intro r hr
    obtain ⟨q, -, rfl⟩ := List.mem_map.1 hr
    simp only [Route.shift, beq_iff_eq]
    omega
  rw [routes_insert, List.filter_append, List.filter_append, hbefore, hown, hafter,
    routes_singleton, ← routesOf_add]
  simp

theorem route?_append (xs ys : List Command) (name : String) :
    (ofCommands (xs ++ ys)).route? name = ((ofCommands xs).route? name).or
      (((ofCommands ys).route? name).map (Route.shift xs.length)) := by
  rw [route?, routes_append, List.find?_append, List.find?_map]
  rfl

/-- The plan of two lists of commands is made of the plan of the first and that of the second, with
the commands of the second counted on. So a route is looked for in the first plan and then in the
second. The routes of each command are together, in the order of the commands, and are those it has
if planned alone; for registering commands one after another puts their routes behind whatever is
there. -/
theorem ofCommands_append (xs ys : List Command) :
    let first := ofCommands xs
    let second := ofCommands ys
    let both := ofCommands (xs ++ ys)
    both.routes = first.routes ++ second.routes.map (Route.shift xs.length) ∧
    both.rootOptions = first.rootOptions ++ second.rootOptions ∧
    (∀ name, both.route? name =
      (first.route? name).or ((second.route? name).map (Route.shift xs.length))) ∧
    first.routes.Pairwise (·.commandIndex ≤ ·.commandIndex) ∧
    (∀ r ∈ first.routes, r.commandIndex < xs.length) ∧
    (∀ i c, xs[i]? = some c → first.routes.filter (·.commandIndex == i) =
      (ofCommands [c]).routes.map (Route.shift i)) ∧
    ∀ p k, (xs.zipIdx k).foldl register p =
      ⟨p.routes ++ first.routes.map (Route.shift k), p.rootOptions ++ first.rootOptions⟩ := by
  intro first second both
  refine ⟨routes_append xs ys, rootOptions_append xs ys, route?_append xs ys,
    pairwise_commandIndex xs, fun r hr => commandIndex_lt hr, ?_, foldl_register xs⟩
  intro i c hc
  obtain ⟨before, after, rfl, rfl⟩ := append_of_getElem? hc
  exact filter_commandIndex before after c

end ConsoleSignature.Plan
