import ConsoleSignature.Proofs.Plan.Expansion
import ConsoleSignature.Proofs.Plan.Registered

/-!
Looking an entry of a plain command up by its name finds the one that its route registers. Flags
start with a dash, so that a name that does not is never taken for one.
-/
namespace ConsoleSignature

variable {signature : String} {handler : Handler} {c : Command} {e : Entry} {es : List Entry}
  {n : String}

namespace Entry

theorem Compiled.answersTo (h : e.Compiled) (hn : n.toList.head? ≠ some '-') :
    e.answersTo n = (e.name == n) := by
  obtain ⟨b, rfl⟩ := h
  have hflags : (ofBlock b).flags.any (·.contains n) = false := by
    rw [Option.any_eq_false]
    intro fs hfs
    rw [← Bool.not_eq_true, List.contains_iff_mem]
    intro hmem
    have hflag := ((wellFormed_of_within .self).flags fs hfs).2.1 n hmem
    exact hn hflag.1
  rw [Entry.answersTo, hflags, Bool.or_false]

theorem find?_answersTo (h : ∀ e ∈ es, e.Compiled) (hn : n.toList.head? ≠ some '-') :
    es.find? (·.answersTo n) = es.find? (·.name == n) :=
  List.find?_congr fun e he => (h e he).answersTo hn

end Entry

namespace Command

theorem compiled_of_mem_options (h : e ∈ (ofSignature signature handler).options) :
    e.Compiled := by
  unfold ofSignature at h
  split at h
  · simp [bare] at h
  · rename_i header body _
    have hmem : e ∈ Entry.ofBlocks ([' '].intercalate body) := by
      simp only [ofEntries] at h
      split at h
      · exact List.mem_of_mem_filter h
      · exact h
    obtain ⟨b, -, rfl⟩ := List.mem_map.1 hmem
    exact ⟨b, rfl⟩

end Command

/-- Under the entry's name the route registers the entry and nothing else. -/
structure Route.RegistersOnly (r : Route) (e : Entry) : Prop where
  arguments : r.arguments.filter (·.name == e.name) =
    if e.isArgument then [Plan.Argument.ofEntry e none] else []
  options : r.options.filter (·.name == e.name) =
    if e.isArgument then [] else [Plan.Flag.ofEntry e none]

namespace Plan

theorem filter_name_argumentsOf (es : List Entry) (parent : Option Entry) (n : String) :
    (argumentsOf es parent).filter (·.name == n) =
      argumentsOf (es.filter (·.name == n)) parent := by
  rw [argumentsOf, argumentsOf, List.filter_map, List.filter_comm]
  rfl

theorem filter_name_flagsOf (es : List Entry) (parent : Option Entry) (n : String) :
    (flagsOf es parent).filter (·.name == n) = flagsOf (es.filter (·.name == n)) parent := by
  rw [flagsOf, flagsOf, List.filter_map, List.filter_comm]
  rfl

/-- The route of a plain command registers the entry that looking its name up finds. -/
theorem registersOnly_commandRoute (h : e.Compiled)
    (hfound : c.options.find? (·.name == e.name) = some e) (i : Nat) :
    (commandRoute i c).RegistersOnly e := by
  have hone : (Entry.firstOfName c.options).filter (·.name == e.name) = [e] := by
    rw [Entry.filter_name_firstOfName, hfound]
    rfl
  constructor
  · have harguments : (commandRoute i c).arguments.filter (·.name == e.name) =
        argumentsOf [e] none := by
      rw [← hone, ← filter_name_argumentsOf]
      rfl
    rw [harguments, argumentsOf]
    cases hargument : e.isArgument <;> simp [h.isFlag, hargument]
  · have hoptions : (commandRoute i c).options.filter (·.name == e.name) = flagsOf [e] none := by
      rw [← hone, ← filter_name_flagsOf]
      rfl
    rw [hoptions, flagsOf]
    cases hargument : e.isArgument <;> simp [h.isFlag, hargument]

theorem ofCommands_plain (h : expands? c = none) : ofCommands [c] = ⟨[commandRoute 0 c], []⟩ := by
  simp [ofCommands, routesOf, rootOptionsOf, h]

/-- A compiled command that is no namespace has one route. It registers the first entry of each
name, arguments and options in the order of the entries; and looking up the name of an entry, unless
that starts with a dash, finds the first entry of the name, which is the one that is registered. -/
theorem option?_registered (h : (Command.ofSignature signature handler).isNamespace = false) :
    let c := Command.ofSignature signature handler
    ∃ r, ofCommands [c] = ⟨[r], []⟩ ∧
      r.arguments = ((Entry.atFirstPlaces c.options).filter (·.isArgument)).map
        (Argument.ofEntry · none) ∧
      r.options = ((Entry.atFirstPlaces c.options).filter (!·.isArgument)).map
        (Flag.ofEntry · none) ∧
      r.registered.Nodup ∧ (∀ n, n ∈ r.registered ↔ ∃ o ∈ c.options, o.name = n) ∧
      ∀ o ∈ c.options, o.name.toList.head? ≠ some '-' →
        ∃ before e after, c.options = before ++ e :: after ∧ e.name = o.name ∧
          (∀ d ∈ before, d.name ≠ o.name) ∧ c.option? o.name = some e ∧ r.RegistersOnly e := by
  intro c
  have hcompiled : ∀ e ∈ c.options, e.Compiled := fun e he => Command.compiled_of_mem_options he
  have hfirst := compiled_atFirstPlaces hcompiled
  have hplain : expands? c = none := by simp [expands?, c, h]
  have hregistered := registered_commandRoute 0 c
  refine ⟨commandRoute 0 c, ofCommands_plain hplain, ?_, ?_, ?_, ?_, ?_⟩
  · rw [← argumentsOf_compiled hfirst, ← Entry.firstOfName_eq_atFirstPlaces]
    rfl
  · rw [← flagsOf_compiled hfirst, ← Entry.firstOfName_eq_atFirstPlaces]
    rfl
  · exact hregistered.nodup_iff.2 (Entry.nodup_names_firstOfName _)
  · intro n
    rw [hregistered.mem_iff, Entry.mem_names_firstOfName, List.mem_map]
  · intro o ho hdash
    have hlookup : c.option? o.name = c.options.find? (·.name == o.name) :=
      Entry.find?_answersTo hcompiled hdash
    obtain ⟨e, he⟩ : ∃ e, c.options.find? (·.name == o.name) = some e := by
      rw [← Option.isSome_iff_exists, List.find?_isSome]
      exact ⟨o, ho, by simp⟩
    obtain ⟨hname, before, after, hat, hbefore⟩ := List.find?_eq_some_iff_append.1 he
    have hename : e.name = o.name := by simpa using hname
    refine ⟨before, e, after, hat, hename, by simpa using hbefore, hlookup.trans he, ?_⟩
    exact registersOnly_commandRoute (hcompiled e (List.mem_of_find?_eq_some he))
      (by rwa [hename]) 0

theorem option?_registered_run :
    let c := Command.ofSignature
      "run\n\x7bforce : One\x7d\n\x7b--f|force : Two\x7d\n\x7b--o|out=x : Place\x7d\n\x7bout\x7d"
      ⟨0, "", none⟩
    c.isNamespace = false ∧ c.options.map (·.name) = ["force", "force", "out", "out"] ∧
      ∃ r, ofCommands [c] = ⟨[r], []⟩ ∧ r.registered.Nodup ∧
        (∀ n, n ∈ r.registered ↔ ∃ o ∈ c.options, o.name = n) ∧
        ∃ before e after, c.options = before ++ e :: after ∧ e.name = "out" ∧
          (∀ d ∈ before, d.name ≠ "out") ∧ c.option? "out" = some e ∧ r.RegistersOnly e := by
  intro c
  have hc : (c.isNamespace, c.options.map (·.name)) =
      (false, ["force", "force", "out", "out"]) := by
    simp only [c]
    cbv
  obtain ⟨hplain, hnames⟩ := Prod.mk.inj hc
  have hmem : "out" ∈ c.options.map (·.name) := by simp [hnames]
  obtain ⟨o, ho, hname⟩ := List.mem_map.1 hmem
  obtain ⟨r, hr, -, -, hnodup, hregistered, hfound⟩ := option?_registered hplain
  have hout := hfound o ho (by rw [hname]; decide)
  rw [hname] at hout
  exact ⟨hplain, hnames, r, hr, hnodup, hregistered, hout⟩

end Plan

end ConsoleSignature
