import ConsoleSignature.Proofs.Command.Namespace
import ConsoleSignature.Proofs.Plan.Append
import ConsoleSignature.Proofs.Plan.Resolution

/-!
The names of sub-command routes. The name of an entry never holds a colon, so that the last colon of
a route's name parts the name of the command from that of the sub-command, whatever the former
holds.
-/
namespace ConsoleSignature.Plan

open Text

variable {cs : List Command} {c : Command} {subs : List Entry} {sub : Entry} {r : Route}
  {i : Nat} {name : String}

theorem colon_not_mem_of_compiled (h : sub.Compiled) : ':' ∉ sub.name.toList := by
  obtain ⟨b, rfl⟩ := h
  exact (Entry.wellFormed_of_within .self).name

theorem compiled_of_mem_routed (hc : ∃ signature handler, c = Command.ofSignature signature handler)
    (hsubs : expands? c = some subs) (h : sub ∈ routed subs) : sub.Compiled := by
  obtain ⟨signature, handler, rfl⟩ := hc
  obtain ⟨hnamespace, hparted⟩ := subCommands_of_expands hsubs
  obtain ⟨es, hes, -, hfilter⟩ := Command.parted_of_namespace hnamespace
  obtain ⟨before, after, hat, -⟩ := exists_of_mem_routed h
  have hmem : sub ∈ subs := by
    rw [hat]
    simp
  obtain rfl : subs = _ := Option.some.inj (hparted.symm.trans hfilter)
  exact hes sub (List.mem_of_mem_filter hmem)

/-- The last colon in the name of a sub-command's route stands between the two names it is made of.
-/
theorem cutLast?_name (hc : ∃ signature handler, c = Command.ofSignature signature handler)
    (h : r ∈ routesOf i c) (hname : r.subCommand = some name) :
    c.isNamespace = true ∧
      cutLast? ':' r.name.toList = some (c.base.toList, name.toList) := by
  obtain ⟨subs, hsubs, sub, hsub, rfl, rfl⟩ := exists_of_subCommand h hname
  refine ⟨(subCommands_of_expands hsubs).1, ?_⟩
  have hcolon := colon_not_mem_of_compiled (compiled_of_mem_routed hc hsubs hsub)
  have hparts : (subCommandRoute i c subs sub).name.toList =
      c.base.toList ++ ':' :: sub.name.toList := by
    simp [subCommandRoute]
  rw [hparts, cutLast?_append hcolon]

theorem subCommandRoutes_of_routesOf (i : Nat) (c : Command) :
    (routesOf i c).filter (·.subCommand.isSome) =
      ((expands? c).map fun subs => (routed subs).map (subCommandRoute i c subs)).getD [] := by
  unfold routesOf
  split
  · rename_i subs hsubs
    have hbase : (if c.hidden then [] else [namespaceRoute i c]).filter
        (·.subCommand.isSome) = [] := by
      split <;> simp [namespaceRoute]
    have hsub : ∀ r ∈ (routed subs).map (subCommandRoute i c subs), r.subCommand.isSome := by
      intro r hr
      obtain ⟨sub, -, rfl⟩ := List.mem_map.1 hr
      rfl
    rw [List.filter_append, hbase, List.filter_eq_self.2 hsub, hsubs]
    rfl
  · rename_i hplain
    simp [commandRoute, hplain]

/-- The routes of one command's sub-commands have different names, since each is made of the first
entry of its name. -/
theorem nodup_names_routesOf (i : Nat) (c : Command) :
    (((routesOf i c).filter (·.subCommand.isSome)).map Route.name).Nodup := by
  rw [subCommandRoutes_of_routesOf]
  cases expands? c with
  | none => simp
  | some subs =>
    have hjoin : Function.Injective fun n : String => c.base ++ ":" ++ n := by
      intro n m hnm
      simpa using hnm
    have hnames : ((routed subs).map (subCommandRoute i c subs)).map Route.name =
        ((routed subs).map Entry.name).map fun n => c.base ++ ":" ++ n := by
      rw [List.map_map, List.map_map]
      rfl
    rw [Option.map_some, Option.getD_some, hnames]
    exact (Entry.nodup_names_firstOfName _).map hjoin

theorem pairwise_bases (h : ((cs.filter (·.isNamespace)).map Command.base).Nodup) :
    cs.zipIdx.Pairwise fun x y =>
      x.1.isNamespace = true → y.1.isNamespace = true → x.1.base ≠ y.1.base := by
  have hcs : cs.Pairwise fun c d =>
      c.isNamespace = true → d.isNamespace = true → c.base ≠ d.base := by
    rw [List.Nodup, List.pairwise_map, List.pairwise_filter] at h
    exact h
  rw [← List.zipIdx_map_fst 0 cs, List.pairwise_map] at hcs
  exact hcs

/-- Where the namespaces among compiled commands have different names, the routes of their
sub-commands have so too. The last colon of such a name parts it into the name of the namespace and
that of the sub-command. -/
theorem subCommandRoutes_apart
    (hcs : ∀ c ∈ cs, ∃ signature handler, c = Command.ofSignature signature handler)
    (hbases : ((cs.filter (·.isNamespace)).map Command.base).Nodup) :
    (((ofCommands cs).routes.filter (·.subCommand.isSome)).map Route.name).Nodup ∧
      ∀ r ∈ (ofCommands cs).routes, ∀ name, r.subCommand = some name →
        ∃ c, cs[r.commandIndex]? = some c ∧ c.isNamespace = true ∧
          cutLast? ':' r.name.toList = some (c.base.toList, name.toList) := by
  constructor
  · rw [routes_ofCommands, List.filter_flatMap, List.map_flatMap, List.nodup_flatMap]
    refine ⟨fun x _ => nodup_names_routesOf x.2 x.1, ?_⟩
    apply (pairwise_bases hbases).imp_of_mem
    rintro ⟨c, i⟩ ⟨d, j⟩ hc hd hapart n hn hm
    obtain ⟨r, hr, rfl⟩ := List.mem_map.1 hn
    obtain ⟨q, hq, hname⟩ := List.mem_map.1 hm
    obtain ⟨hr, hsome⟩ := List.mem_filter.1 hr
    obtain ⟨hq, hsome'⟩ := List.mem_filter.1 hq
    obtain ⟨s, hs⟩ := Option.isSome_iff_exists.1 hsome
    obtain ⟨s', hs'⟩ := Option.isSome_iff_exists.1 hsome'
    obtain ⟨hcnamespace, hrcut⟩ := cutLast?_name (hcs c (List.fst_mem_of_mem_zipIdx hc)) hr hs
    obtain ⟨hdnamespace, hqcut⟩ := cutLast?_name (hcs d (List.fst_mem_of_mem_zipIdx hd)) hq hs'
    -- One name has one last colon, so that both routes have the same command name before it.
    rw [hname, hrcut] at hqcut
    have hbase : c.base.toList = d.base.toList := (Prod.mk.inj (Option.some.inj hqcut)).1
    exact hapart hcnamespace hdnamespace (String.toList_injective hbase)
  · intro r hr name hname
    obtain ⟨c, i, hc, hr⟩ := mem_routes_iff.1 hr
    have hindex := commandIndex_of_mem_routesOf hr
    refine ⟨c, by rwa [hindex], ?_⟩
    exact cutLast?_name (hcs c (List.mem_of_getElem? hc)) hr hname

theorem subCommandRoutes_apart_db :
    let cs := [
      Command.ofSignature "db:\n\x7bseed\x7d\n\x7b^seed\x7d\n\x7bseed\x7d" ⟨0, "", none⟩,
      Command.ofSignature "db:seed\n\x7bseed\x7d" ⟨1, "", none⟩,
      Command.ofSignature "db::\n\x7bseed\x7d\n\x7bdrop\x7d" ⟨2, "", none⟩]
    (∀ c ∈ cs, ∃ signature handler, c = Command.ofSignature signature handler) ∧
    ((cs.filter (·.isNamespace)).map Command.base).Nodup ∧
    (((ofCommands cs).routes.filter (·.subCommand.isSome)).map Route.name).Nodup ∧
    ∀ r ∈ (ofCommands cs).routes, ∀ name, r.subCommand = some name →
      ∃ c, cs[r.commandIndex]? = some c ∧ c.isNamespace = true ∧
        cutLast? ':' r.name.toList = some (c.base.toList, name.toList) := by
  intro cs
  have hcs : ∀ c ∈ cs, ∃ signature handler, c = Command.ofSignature signature handler := by
    intro c hc
    simp only [cs, List.mem_cons, List.not_mem_nil, or_false] at hc
    rcases hc with rfl | rfl | rfl <;> exact ⟨_, _, rfl⟩
  have hbases : (cs.filter (·.isNamespace)).map Command.base = ["db", "db:"] := by
    simp only [cs]
    cbv
  have hnodup : ((cs.filter (·.isNamespace)).map Command.base).Nodup := by
    rw [hbases]
    decide
  exact ⟨hcs, hnodup, subCommandRoutes_apart hcs hnodup⟩

end ConsoleSignature.Plan
