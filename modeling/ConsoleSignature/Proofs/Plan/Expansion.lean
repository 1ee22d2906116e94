import Mathlib
import ConsoleSignature.Proofs.Command.Namespace
import ConsoleSignature.Proofs.Entry.FirstOfName
import ConsoleSignature.Proofs.Plan.Append

/-!
What a compiled namespace brings to a plan: a route of its own, unless it is hidden, and one for the
first sub-command of each name.
-/
namespace ConsoleSignature.Plan

variable {signature : String} {handler : Handler} {c : Command} {sub : Entry}
  {es subs : List Entry}

theorem argumentsOf_compiled (h : ∀ e ∈ es, e.Compiled) (parent : Option Entry) :
    argumentsOf es parent = (es.filter (·.isArgument)).map (Argument.ofEntry · parent) := by
  rw [argumentsOf, List.filter_congr fun e he => ?_]
  simp [(h e he).isFlag]

theorem flagsOf_compiled (h : ∀ e ∈ es, e.Compiled) (parent : Option Entry) :
    flagsOf es parent = (es.filter (!·.isArgument)).map (Flag.ofEntry · parent) := by
  rw [flagsOf, List.filter_congr fun e he => ?_]
  simp [(h e he).isFlag]

theorem compiled_atFirstPlaces (h : ∀ e ∈ es, e.Compiled) :
    ∀ e ∈ Entry.atFirstPlaces es, e.Compiled := by
  intro e he
  obtain ⟨i, -, rfl⟩ := List.mem_map.1 he
  exact h _ (List.get_mem es i)

/-- The command is a namespace with these sub-commands, and its entries are where they belong. -/
structure Parted (c : Command) (subs : List Entry) : Prop where
  isNamespace : c.isNamespace = true
  subCommands : c.subCommands = some subs
  options : ∀ e ∈ c.options, e.Compiled ∧ e.isArgument = false
  arguments : ∀ e ∈ subs, e.Compiled ∧ e.isArgument = true

theorem exists_parted (h : (Command.ofSignature signature handler).isNamespace) :
    ∃ subs, Parted (Command.ofSignature signature handler) subs := by
  obtain ⟨es, hes, hoptions, hsubs⟩ := Command.parted_of_namespace h
  refine ⟨es.filter fun e => e.isArgument && !e.hidden, h, hsubs, ?_, ?_⟩
  · intro e he
    rw [hoptions] at he
    obtain ⟨he, hflag⟩ := List.mem_filter.1 he
    exact ⟨hes e he, by simpa using hflag⟩
  · intro e he
    obtain ⟨he, hargument⟩ := List.mem_filter.1 he
    simp only [Bool.and_eq_true] at hargument
    exact ⟨hes e he, hargument.1⟩

namespace Parted

theorem expands (h : Parted c subs) : expands? c = some subs := by
  rw [expands?, if_pos h.isNamespace, h.subCommands]

theorem compiled_shared (h : Parted c subs) : ∀ e ∈ sharedEntries c subs, e.Compiled := by
  intro e he
  rcases List.mem_append.1 he with he | he
  · exact (h.arguments e (List.mem_of_mem_filter he)).1
  · exact (h.options e (List.mem_of_mem_filter he)).1

/-- Among the shared entries the sub-commands are the arguments and the options the flags. -/
theorem filter_shared (h : Parted c subs) :
    (sharedEntries c subs).filter (·.isArgument) = subs.filter (·.shared) ∧
      (sharedEntries c subs).filter (!·.isArgument) = c.options.filter (·.shared) := by
  have hsubs : ∀ e ∈ subs.filter (·.shared), e.isArgument = true :=
    fun e he => (h.arguments e (List.mem_of_mem_filter he)).2
  have hoptions : ∀ e ∈ c.options.filter (·.shared), e.isArgument = false :=
    fun e he => (h.options e (List.mem_of_mem_filter he)).2
  rw [sharedEntries, List.filter_append, List.filter_append]
  constructor
  · have hnone : (c.options.filter (·.shared)).filter (·.isArgument) = [] :=
      List.filter_eq_nil_iff.2 fun e he => by simp [hoptions e he]
    rw [List.filter_eq_self.2 hsubs, hnone, List.append_nil]
  · have hnone : (subs.filter (·.shared)).filter (!·.isArgument) = [] :=
      List.filter_eq_nil_iff.2 fun e he => by simp [hsubs e he]
    have hall : (c.options.filter (·.shared)).filter (!·.isArgument) =
        c.options.filter (·.shared) := List.filter_eq_self.2 fun e he => by simp [hoptions e he]
    rw [hnone, hall, List.nil_append]

end Parted

/-- The route of a sub-command: what is shared, shown with the sub-command, stands before the first
entries of each name that the sub-command nests. -/
def expansion (index : Nat) (c : Command) (subs : List Entry) (sub : Entry) : Route :=
  let own := Entry.atFirstPlaces (sub.nested.getD [])
  { name := c.base ++ ":" ++ sub.name
    description := sub.description.getD ""
    hidden := c.hidden
    commandIndex := index
    subCommand := some sub.name
    arguments := (subs.filter (·.shared)).map (Argument.ofEntry · (some sub)) ++
      (own.filter (·.isArgument)).map (Argument.ofEntry · none)
    options := (c.options.filter (·.shared)).map (Flag.ofEntry · (some sub)) ++
      (own.filter (!·.isArgument)).map (Flag.ofEntry · none) }

theorem Parted.subCommandRoute_eq (h : Parted c subs) (hsub : sub.Compiled) (i : Nat) :
    subCommandRoute i c subs sub = expansion i c subs sub := by
  have hown : ∀ e ∈ Entry.atFirstPlaces (sub.nested.getD []), e.Compiled :=
    compiled_atFirstPlaces fun n hn => hsub.nested hn
  simp only [subCommandRoute, expansion, Entry.firstOfName_eq_atFirstPlaces,
    argumentsOf_compiled hown, flagsOf_compiled hown, argumentsOf_compiled h.compiled_shared,
    flagsOf_compiled h.compiled_shared, h.filter_shared.1, h.filter_shared.2]

theorem namespaceOptions_eq (c : Command) :
    namespaceOptions c = (Entry.atFirstPlaces c.options).map (Flag.ofEntry · none) := by
  rw [namespaceOptions, Entry.firstOfName_eq_atFirstPlaces]

theorem Parted.routesOf_eq (h : Parted c subs) (i : Nat) :
    routesOf i c = (if c.hidden then [] else [namespaceRoute i c]) ++
      (Entry.atFirstPlaces (subs.filter (!·.shared))).map (expansion i c subs) := by
  have hrouted : ∀ sub ∈ Entry.atFirstPlaces (subs.filter (!·.shared)), sub.Compiled :=
    compiled_atFirstPlaces fun e he => (h.arguments e (List.mem_of_mem_filter he)).1
  simp only [routesOf, h.expands, routed, Entry.firstOfName_eq_atFirstPlaces]
  congr 1
  exact List.map_congr_left fun sub hsub => h.subCommandRoute_eq (hrouted sub hsub) i

theorem Parted.rootOptionsOf_eq (h : Parted c subs) :
    rootOptionsOf c = if c.hidden then namespaceOptions c else [] := by
  simp [rootOptionsOf, h.expands]

/-- Between the routes of the commands before and after it, a compiled namespace has its own route,
unless it is hidden, and then those of its sub-commands, the first of each name; if it is hidden its
options go to the root. -/
theorem ofCommands_namespace (before after : List Command)
    (h : (Command.ofSignature signature handler).isNamespace) :
    let c := Command.ofSignature signature handler
    let plan := ofCommands (before ++ c :: after)
    let options := (Entry.atFirstPlaces c.options).map (Flag.ofEntry · none)
    let base : Route :=
      { name := c.base
        description := c.description.getD ""
        hidden := false
        commandIndex := before.length
        subCommand := none
        arguments := []
        options }
    ∃ subs, c.subCommands = some subs ∧
      plan.routes = (ofCommands before).routes ++
        ((if c.hidden then [] else [base]) ++
          (Entry.atFirstPlaces (subs.filter (!·.shared))).map (expansion before.length c subs)) ++
        (ofCommands after).routes.map (Route.shift (before.length + 1)) ∧
      plan.rootOptions = (ofCommands before).rootOptions ++ (if c.hidden then options else []) ++
        (ofCommands after).rootOptions := by
  intro c plan options base
  obtain ⟨subs, hparted⟩ := exists_parted h
  have hbase : base = namespaceRoute before.length c := by
    simp only [base, options, namespaceRoute, namespaceOptions_eq]
  refine ⟨subs, hparted.subCommands, ?_, ?_⟩
  · rw [hbase, ← hparted.routesOf_eq before.length]
    exact routes_insert before after c
  · have hoptions := rootOptions_insert before after c
    rwa [hparted.rootOptionsOf_eq, namespaceOptions_eq] at hoptions

theorem ofCommands_namespace_make :
    let greet := Command.ofSignature "greet\n\x7bname\x7d" ⟨0, "", none⟩
    let make := Command.ofSignature
      "make:\n\x7bmodel : Create | \x7b--to : Place\x7d\x7d\n\x7b^path\x7d\n\x7bmodel : Again\x7d"
      ⟨1, "", none⟩
    make.isNamespace = true ∧ ∃ subs, make.subCommands = some subs ∧
      (Entry.atFirstPlaces (subs.filter (!·.shared))).map (·.name) = ["model"] ∧
      (ofCommands [greet, make, greet]).routes =
        (ofCommands [greet]).routes ++
          (namespaceRoute 1 make ::
            (Entry.atFirstPlaces (subs.filter (!·.shared))).map (expansion 1 make subs)) ++
          (ofCommands [greet]).routes.map (Route.shift 2) := by
  intro greet make
  have hmake : (make.isNamespace, make.hidden,
      (Entry.firstOfName ((make.subCommands.getD []).filter (!·.shared))).map (·.name)) =
      (true, false, ["model"]) := by
    simp only [make]
    cbv
  simp only [Prod.mk.injEq, make] at hmake
  obtain ⟨hnamespace, hhidden, hnames⟩ := hmake
  obtain ⟨subs, hsubs, hroutes, -⟩ := ofCommands_namespace [greet] [greet] hnamespace
  rw [hsubs, Option.getD_some, Entry.firstOfName_eq_atFirstPlaces] at hnames
  refine ⟨hnamespace, subs, hsubs, hnames, ?_⟩
  rw [hhidden, ← namespaceOptions_eq] at hroutes
  exact hroutes

end ConsoleSignature.Plan
