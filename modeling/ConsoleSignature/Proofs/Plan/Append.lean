import ConsoleSignature.Plan

/-!
Planning more commands. The routes of those that come later move on by the number of those before;
nothing else of a plan depends on what is planned besides.
-/
namespace ConsoleSignature

/-- The route of a command that stands so many places further on. -/
def Route.shift (k : Nat) (r : Route) : Route := { r with commandIndex := k + r.commandIndex }

namespace Plan

theorem routesOf_add (k i : Nat) (c : Command) :
    routesOf (k + i) c = (routesOf i c).map (Route.shift k) := by
  unfold routesOf
  split
  · rw [List.map_append, List.map_map]
    congr 1
    split <;> rfl
  · rfl

theorem routes_ofCommands (cs : List Command) :
    (ofCommands cs).routes = cs.zipIdx.flatMap fun x => routesOf x.2 x.1 := rfl

theorem routes_append (xs ys : List Command) :
    (ofCommands (xs ++ ys)).routes =
      (ofCommands xs).routes ++ (ofCommands ys).routes.map (Route.shift xs.length) := by
  have hindex : (ys.zipIdx xs.length).flatMap (fun x => routesOf x.2 x.1) =
      (ys.zipIdx.flatMap fun x => routesOf x.2 x.1).map (Route.shift xs.length) := by
    rw [List.zipIdx_eq_map_add, List.flatMap_map, List.map_flatMap]
    simp only [routesOf_add]
  rw [routes_ofCommands, routes_ofCommands, routes_ofCommands, List.zipIdx_append,
    List.flatMap_append, Nat.zero_add, hindex]

theorem rootOptions_append (xs ys : List Command) :
    (ofCommands (xs ++ ys)).rootOptions =
      (ofCommands xs).rootOptions ++ (ofCommands ys).rootOptions := List.flatMap_append

theorem routes_singleton (c : Command) : (ofCommands [c]).routes = routesOf 0 c := by
  simp [routes_ofCommands]

theorem rootOptions_singleton (c : Command) : (ofCommands [c]).rootOptions = rootOptionsOf c := by
  simp [ofCommands]

/-- What one command brings to a plan, between what those before and after it bring. -/
theorem routes_insert (before after : List Command) (c : Command) :
    (ofCommands (before ++ c :: after)).routes =
      (ofCommands before).routes ++ routesOf before.length c ++
        (ofCommands after).routes.map (Route.shift (before.length + 1)) := by
  rw [List.append_cons, routes_append, routes_append, routes_singleton, ← routesOf_add]
  simp

theorem rootOptions_insert (before after : List Command) (c : Command) :
    (ofCommands (before ++ c :: after)).rootOptions =
      (ofCommands before).rootOptions ++ rootOptionsOf c ++ (ofCommands after).rootOptions := by
  rw [List.append_cons, rootOptions_append, rootOptions_append, rootOptions_singleton]

end Plan

end ConsoleSignature
