import ConsoleSignature.Proofs.Plan.Usage
import ConsoleSignature.Render.Table

/-!
Tables whose columns stay aligned. A column is as wide as its longest name has bytes, and a name is
filled up to that width by characters: it never has more of these than bytes, so that the filling
reaches the same column in every row.
-/
namespace ConsoleSignature

open Text

variable {cs : List Command} {c : Command} {catalog : Catalog}
  {name description row s : String} {names : List String} {width column : Nat}
  {entries : List (String × String)}

theorem length_le_utf8ByteSize (s : String) : s.length ≤ s.utf8ByteSize := by
  have hchars (cs : List Char) : cs.length ≤ String.utf8Len cs := by
    induction cs with
    | nil => simp
    | cons c cs ih =>
      have := c.utf8Size_pos
      rw [String.utf8Len_cons, List.length_cons]
      omega
  have h := hchars s.toList
  rwa [← String.utf8ByteSize_ofList, String.ofList_toList, String.length_toList] at h

namespace Render

/-- The row shows the name, whole and on one line, and its description from this column on. What
stands before the name is blank, and so is what follows it, which is two characters at least. -/
def ShowsAt (column : Nat) (name description row : String) : Prop :=
  ∃ indent gap, row.toList = List.replicate indent ' ' ++ name.toList ++ List.replicate gap ' ' ++
      description.toList ++ ['\n'] ∧
    indent + name.length + gap = column ∧ 2 ≤ gap ∧ '\n' ∉ name.toList

/-- The rows show these names and descriptions in turn, all descriptions from one column on. -/
def Aligned (column : Nat) (rows : List String) (entries : List (String × String)) : Prop :=
  List.Forall₂ (fun row x => ShowsAt column x.1 x.2 row) rows entries

theorem widest_mem (names : List String) :
    widest names ∈ 0 :: names.map String.utf8ByteSize ∧
      ∀ n ∈ 0 :: names.map String.utf8ByteSize, n ≤ widest names :=
  List.max?_eq_some_iff.1 List.max?_cons'

theorem le_widest (h : s ∈ names) : s.utf8ByteSize ≤ widest names :=
  (widest_mem names).2 _ (List.mem_cons_of_mem 0 (List.mem_map_of_mem h))

theorem exists_widest (h : names ≠ []) : ∃ s ∈ names, s.utf8ByteSize = widest names := by
  obtain ⟨hmem, hle⟩ := widest_mem names
  rcases List.mem_cons.1 hmem with hzero | hmem
  · obtain ⟨s, hs⟩ := List.exists_mem_of_ne_nil names h
    exact ⟨s, hs, by have := le_widest hs; omega⟩
  · exact List.mem_map.1 hmem

theorem length_le_widest (h : s ∈ names) : s.length ≤ widest names :=
  (length_le_utf8ByteSize s).trans (le_widest h)

/-- A name that does not fit moves its description on. -/
theorem showsAt_line (h : '\n' ∉ name.toList) (width : Nat) (description : String) :
    ShowsAt (max width name.length + 2) name description (line width name description) := by
  refine ⟨0, width - name.length + 2, ?_, by omega, by omega, h⟩
  simp [line, fillTo, List.replicate_add, List.append_assoc]

theorem ShowsAt.indented (h : ShowsAt column name description row) :
    ShowsAt (column + 2) name description ("  " ++ row) := by
  obtain ⟨indent, gap, hrow, hcolumn, hgap, hname⟩ := h
  refine ⟨indent + 2, gap, ?_, by omega, hgap, hname⟩
  simp [hrow, List.replicate_succ]

theorem aligned_lines (h : ∀ x ∈ entries, '\n' ∉ x.1.toList ∧ x.1.length ≤ width) :
    Aligned (width + 2) (entries.map fun x => line width x.1 x.2) entries := by
  rw [Aligned, List.forall₂_map_left_iff, List.forall₂_same]
  intro x hx
  obtain ⟨hline, hfits⟩ := h x hx
  have hshows := showsAt_line hline width x.2
  rwa [Nat.max_eq_left hfits] at hshows

/-- Rows under a title, left out where there are none. -/
def titled (title : String) (rows : List String) : String :=
  if rows.isEmpty then "" else "\n" ++ title ++ ":\n" ++ String.join rows

theorem exists_listing (title : String) (entries : List (String × String))
    (h : ∀ x ∈ entries, '\n' ∉ x.1.toList) :
    ∃ rows column, listing title entries = titled title rows ∧ Aligned column rows entries := by
  let width := widest (entries.map Prod.fst)
  refine ⟨entries.map fun x => "  " ++ line width x.1 x.2, width + 2 + 2, ?_, ?_⟩
  · simp only [listing, titled, List.isEmpty_map]
    rfl
  · have hlines : Aligned (width + 2) (entries.map fun x => line width x.1 x.2) entries :=
      aligned_lines fun x hx => ⟨h x hx, length_le_widest (List.mem_map_of_mem hx)⟩
    rw [Aligned, List.forall₂_map_left_iff, List.forall₂_same] at hlines ⊢
    exact fun x hx => (hlines x hx).indented

end Render

open Render

section Commands

variable (hc : ∃ signature handler, c = Command.ofSignature signature handler)
include hc

theorem Command.exists_table : ∃ head options subs column column',
    c.table = head ++ "\n" ++ titled "Options" options ++ titled "Subcommands" subs ∧
      Aligned column options (c.options.map fun e => (e.label, e.description.getD "")) ∧
      Aligned column' subs
        ((c.subCommands.getD []).map fun e => (e.name, e.description.getD "")) := by
  obtain ⟨options, column, hoptions, haligned⟩ := exists_listing "Options"
    (c.options.map fun e => (e.label, e.description.getD "")) (by
      rw [List.forall_mem_map]
      exact fun e he => (oneLine_of_mem hc (.inl he)).label)
  obtain ⟨subs, column', hsubs, haligned'⟩ := exists_listing "Subcommands"
    ((c.subCommands.getD []).map fun e => (e.name, e.description.getD "")) (by
      rw [List.forall_mem_map]
      exact fun e he => (oneLine_of_mem hc (.inr he)).name)
  let start := "Command: " ++ c.base ++ "  Kind: " ++
    (if c.isNamespace then "namespace" else "command") ++ if c.hidden then "  Hidden" else ""
  refine ⟨start ++ (c.description.map fun d => "\n" ++ ("  " ++ d)).getD "", options, subs, column,
    column', ?_, haligned, haligned'⟩
  unfold table
  rw [hoptions, hsubs]
  cases c.description <;> simp [start, String.append_assoc]

theorem Command.title_fits : '\n' ∉ c.title.toList ∧ c.title.length ≤ c.base.length + 1 := by
  have hbase := newline_not_mem_base hc
  unfold Command.title
  cases c.isNamespace
  · simp [hbase]
  · simp only [if_true, String.toList_append, String.length_append, List.mem_append, not_or]
    exact ⟨⟨hbase, by decide⟩, Nat.le_refl _⟩

end Commands

theorem Catalog.exists_table
    (h : ∀ c ∈ catalog.commands, ∃ signature handler, c = Command.ofSignature signature handler) :
    ∃ head rows column, catalog.table = head ++ "\n\n" ++ String.join rows ∧
      Aligned column rows (catalog.commands.map fun c => (c.title, c.description.getD "")) := by
  refine ⟨catalog.cliName ++ "  " ++ toString catalog.commands.length ++ " commands  generated " ++
      catalog.generatedAt,
    (catalog.commands.map fun c => (c.title, c.description.getD "")).map
      fun x => line catalog.nameWidth x.1 x.2, catalog.nameWidth + 2, ?_, ?_⟩
  · rw [table, List.map_map]
    rfl
  · refine aligned_lines ?_
    rw [List.forall_mem_map]
    intro c hc
    obtain ⟨hline, hlength⟩ := Command.title_fits (h c hc)
    have hwidest : c.base.length ≤ widest (catalog.commands.map (·.base)) :=
      length_le_widest (List.mem_map_of_mem hc)
    have hsome : catalog.commands.isEmpty = false := by
      simpa using List.ne_nil_of_mem hc
    refine ⟨hline, ?_⟩
    rw [nameWidth, hsome]
    simp only [Bool.false_eq_true, if_false]
    omega

/-- The bytes of the widest usage of a route; four where there is no route. -/
structure Plan.UsageWidth (p : Plan) (width : Nat) : Prop where
  le : ∀ r ∈ p.routes, r.usage.utf8ByteSize ≤ width
  reached : p.routes ≠ [] → ∃ r ∈ p.routes, r.usage.utf8ByteSize = width
  default : p.routes = [] → width = 4

theorem Plan.usageWidth_nameWidth (p : Plan) : p.UsageWidth p.nameWidth := by
  unfold Plan.nameWidth
  split
  · rename_i hnone
    rw [List.isEmpty_iff] at hnone
    exact ⟨by simp [hnone], fun hne => absurd hnone hne, fun _ => rfl⟩
  · rename_i hsome
    rw [List.isEmpty_iff] at hsome
    refine ⟨fun r hr => le_widest (List.mem_map_of_mem hr), fun hne => ?_,
      fun hnone => absurd hnone hsome⟩
    obtain ⟨s, hs, hwidth⟩ := exists_widest (mt List.map_eq_nil_iff.1 hne)
    obtain ⟨r, hr, rfl⟩ := List.mem_map.1 hs
    exact ⟨r, hr, hwidth⟩

/-- Columns are aligned in all tables of compiled commands: in each part of a command's table, in
the table of a catalog, and in the routes of a plan. A root option of the plan is aligned with the
routes unless its token has more characters than the widest usage has bytes. -/
theorem tables_aligned
    (hcs : ∀ c ∈ cs, ∃ signature handler, c = Command.ofSignature signature handler) :
    (∀ c ∈ cs, ∃ head options subs column column',
      c.table = head ++ "\n" ++ titled "Options" options ++ titled "Subcommands" subs ∧
        Aligned column options (c.options.map fun e => (e.label, e.description.getD "")) ∧
        Aligned column' subs
          ((c.subCommands.getD []).map fun e => (e.name, e.description.getD ""))) ∧
    (∀ catalog : Catalog, catalog.commands = cs → ∃ head rows column,
      catalog.table = head ++ "\n\n" ++ String.join rows ∧
        Aligned column rows (cs.map fun c => (c.title, c.description.getD ""))) ∧
    ∃ width rows rootRows,
      (Plan.ofCommands cs).UsageWidth width ∧
      (Plan.ofCommands cs).table = String.join rows ++ String.join rootRows ∧
      Aligned (width + 2) rows ((Plan.ofCommands cs).routes.map fun r =>
        (r.usage, r.description ++ if r.hidden then "  (hidden)" else "")) ∧
      List.Forall₂ (fun row o => ∃ column, ShowsAt column o.token o.description row ∧
          (column = width + 2 ↔ o.token.length ≤ width))
        rootRows (Plan.ofCommands cs).rootOptions := by
  refine ⟨fun c hc => Command.exists_table (hcs c hc), ?_, ?_⟩
  · rintro catalog rfl
    exact Catalog.exists_table hcs
  · let plan := Plan.ofCommands cs
    obtain ⟨husages, htokens⟩ := Plan.newline_not_mem_ofCommands hcs
    refine ⟨plan.nameWidth, _, plan.rootOptions.map fun o =>
      line plan.nameWidth o.token o.description, plan.usageWidth_nameWidth, ?_,
      aligned_lines ?_, ?_⟩
    · rw [List.map_map]
      rfl
    · rw [List.forall_mem_map]
      exact fun r hr => ⟨husages r hr,
        (length_le_utf8ByteSize r.usage).trans (plan.usageWidth_nameWidth.le r hr)⟩
    · rw [List.forall₂_map_left_iff, List.forall₂_same]
      exact fun o ho => ⟨_, showsAt_line (htokens o ho) plan.nameWidth o.description, by omega⟩

/-- The flag has more characters than the usage of the only route has bytes, so that its row is not
aligned with the route. -/
theorem tables_aligned_ops :
    let ops := Command.ofSignature "#ops:\n\x7bgo : Start\x7d\n\x7b--größe : Size\x7d" ⟨0, "", none⟩
    let catalog : Catalog := ⟨Catalog.formatVersion, "artisan", "today", [ops], []⟩
    let plan := Plan.ofCommands [ops]
    (∀ c ∈ [ops], ∃ signature handler, c = Command.ofSignature signature handler) ∧
    (∃ head options subs column column',
      ops.table = head ++ "\n" ++ titled "Options" options ++ titled "Subcommands" subs ∧
        Aligned column options [("--größe", "Size")] ∧ Aligned column' subs [("go", "Start")]) ∧
    (∃ head rows column, catalog.table = head ++ "\n\n" ++ String.join rows ∧
      Aligned column rows [("ops:", "")]) ∧
    ∃ rows rootRow column, plan.UsageWidth 6 ∧
      plan.table = String.join rows ++ String.join [rootRow] ∧
      Aligned (6 + 2) rows [("ops:go", "Start  (hidden)")] ∧
      ShowsAt column "--größe" "Size" rootRow ∧ column ≠ 6 + 2 := by
  -- Under a name the command stands still; each list is evaluated from the closed signature.
  generalize hops : Command.ofSignature _ _ = ops
  intro _ catalog plan
  have hcs : ∀ c ∈ [ops], ∃ signature handler, c = Command.ofSignature signature handler := by
    intro c hc
    rw [List.mem_singleton.1 hc, ← hops]
    exact ⟨_, _, rfl⟩
  have hoptions : (ops.options.map fun e => (e.label, e.description.getD "")) =
      [("--größe", "Size")] := by
    subst hops
    cbv
  have hsubs : ((ops.subCommands.getD []).map fun e => (e.name, e.description.getD "")) =
      [("go", "Start")] := by
    subst hops
    cbv
  have htitles : ([ops].map fun c => (c.title, c.description.getD "")) = [("ops:", "")] := by
    subst hops
    cbv
  have hroutes : ((Plan.ofCommands [ops]).routes.map fun r =>
      (r.usage, r.description ++ if r.hidden then "  (hidden)" else "")) =
      [("ops:go", "Start  (hidden)")] := by
    subst hops
    cbv
  have hroot : ((Plan.ofCommands [ops]).rootOptions.map fun o => (o.token, o.description)) =
      [("--größe", "Size")] := by
    subst hops
    cbv
  obtain ⟨hcommands, hcatalogs, width, rows, rootRows, hwidth, htable, haligned, hrootRows⟩ :=
    tables_aligned hcs
  obtain ⟨route, hroute, hshown⟩ := List.map_eq_singleton_iff.1 hroutes
  have husage : route.usage = "ops:go" := congrArg Prod.fst hshown
  obtain rfl : width = 6 := by
    obtain ⟨r, hr, hbytes⟩ := hwidth.reached (by simp [hroute])
    rw [hroute, List.mem_singleton] at hr
    rw [← hbytes, hr, husage]
    rfl
  obtain ⟨option, hoption, hshown'⟩ := List.map_eq_singleton_iff.1 hroot
  have htoken : option.token = "--größe" := congrArg Prod.fst hshown'
  have hdescription : option.description = "Size" := congrArg Prod.snd hshown'
  rw [hoption] at hrootRows
  obtain ⟨rootRow, _, ⟨column, hrow, hcolumn⟩, hnil, rfl⟩ := List.forall₂_cons_right_iff.1 hrootRows
  cases hnil
  have hcommand := hcommands ops (List.mem_singleton_self _)
  have hcatalog := hcatalogs catalog rfl
  rw [hoptions, hsubs] at hcommand
  rw [htitles] at hcatalog
  rw [hroutes] at haligned
  rw [htoken] at hrow hcolumn
  rw [hdescription] at hrow
  refine ⟨hcs, hcommand, hcatalog, rows, rootRow, column, hwidth, htable, haligned, hrow, ?_⟩
  rw [ne_eq, hcolumn]
  decide

end ConsoleSignature
