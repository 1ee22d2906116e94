import ConsoleSignature.Proofs.Datum
import ConsoleSignature.Proofs.Json.Token

/-!
Documents of texts and truth values that are written as JSON and read back. The reader comes to the
end of each value with what was written, wherever the value stands.
-/
namespace ConsoleSignature.Json

open Document (FieldOrder)

variable {α β : Type} {d : Document} {n : Nat} {s s' : State} {t : Token} {ts us : List Token}

theorem foldlM_cons_of_step (h : s.step t = some s') :
    (t :: ts).foldlM State.step s = ts.foldlM State.step s' := by
  rw [List.foldlM_cons, h]
  rfl

theorem foldlM_append_of_fold (h : ts.foldlM State.step s = some s') :
    (ts ++ us).foldlM State.step s = us.foldlM State.step s' := by
  rw [List.foldlM_append, h]
  rfl

theorem foldlM_singleton_step (s : State) (t : Token) : [t].foldlM State.step s = s.step t := by
  rw [List.foldlM_cons]
  cases s.step t <;> rfl

/-- The tokens take the reader from where a value may stand to behind this one. -/
def Builds (ts : List Token) (d : Datum) : Prop :=
  ∀ stack first, ts.foldlM State.step (.value stack first) = State.deliver d stack

/-- A container is filled item by item, each of which leads from `before` to `after`, and a comma
leads on to the next. -/
theorem foldlM_intercalate {xs : List α} {tokens : α → List Token} {value : α → β}
    (before : List β → Bool → State) (after : List β → State)
    (hcomma : ∀ done, (after done).step .comma = some (before done false))
    (h : ∀ x ∈ xs, ∀ done first,
      (tokens x).foldlM State.step (before done first) = some (after (value x :: done)))
    (hxs : xs ≠ []) (done : List β) (first : Bool) :
    ([.comma].intercalate (xs.map tokens)).foldlM State.step (before done first) =
      some (after ((xs.map value).reverse ++ done)) := by
  induction xs generalizing done first with
  | nil => exact absurd rfl hxs
  | cons x xs ih =>
    rw [List.forall_mem_cons] at h
    cases xs with
    | nil => simpa using h.1 done first
    | cons y ys =>
      have hnext := ih h.2 (by simp) (value x :: done) false
      simp only [List.map_cons, List.intercalate_cons_cons, List.append_assoc] at hnext ⊢
      rw [foldlM_append_of_fold (h.1 done first), List.singleton_append,
        foldlM_cons_of_step (hcomma _), hnext]
      simp

theorem builds_list {ds : List Document} (h : ∀ d ∈ ds, Builds (tokens d) (d.datum .kept)) :
    Builds (tokens (.list ds)) ((Document.list ds).datum .kept) := by
  intro stack first
  have hopen : (State.value stack first).step .openBracket =
      some (.value (.sequence [] :: stack) true) := rfl
  rw [tokens, itemTokens_eq_map, Document.datum, Document.data_eq_map, List.cons_append,
    foldlM_cons_of_step hopen]
  cases ds with
  | nil => exact foldlM_singleton_step _ _
  | cons d ds =>
    rw [foldlM_append_of_fold (foldlM_intercalate
      (fun done first => .value (.sequence done :: stack) first)
      (fun done => .after (.sequence done :: stack)) (fun _ => rfl)
      (fun d hd done first => h d hd _ first) (by simp) [] true), foldlM_singleton_step]
    simp [State.step, State.closeBracket]

theorem builds_record {fs : List (String × Document)}
    (h : ∀ f ∈ fs, Builds (tokens f.2) (f.2.datum .kept)) :
    Builds (tokens (.record fs)) ((Document.record fs).datum .kept) := by
  intro stack first
  have hopen : (State.value stack first).step .openBrace =
      some (.key (.mapping [] :: stack) true) := rfl
  have hfield : ∀ f ∈ fs, ∀ done first,
      (.text (some f.1) :: .colon :: tokens f.2).foldlM State.step
        (.key (.mapping done :: stack) first) =
        some (.after (.mapping ((.text f.1, f.2.datum .kept) :: done) :: stack)) := by
    intro f hf done first
    have hkey : (State.key (.mapping done :: stack) first).step (.text (some f.1)) =
        some (.colon (.field done (.text f.1) :: stack)) := rfl
    have hcolon : (State.colon (.field done (.text f.1) :: stack)).step .colon =
        some (.value (.field done (.text f.1) :: stack) false) := rfl
    rw [foldlM_cons_of_step hkey, foldlM_cons_of_step hcolon, h f hf]
    rfl
  rw [tokens, fieldTokens_eq_map, Document.datum, Document.fieldData_eq_map, List.cons_append,
    foldlM_cons_of_step hopen]
  cases fs with
  | nil => exact foldlM_singleton_step _ _
  | cons f fs =>
    rw [foldlM_append_of_fold (foldlM_intercalate
      (fun done first => .key (.mapping done :: stack) first)
      (fun done => .after (.mapping done :: stack)) (fun _ => rfl)
      hfield (by simp) [] true), foldlM_singleton_step]
    simp [State.step, State.closeBrace, FieldOrder.kept]

theorem builds_tokens (h : Plain n d) : Builds (tokens d) (d.datum .kept) := by
  induction h with
  | bool n b =>
    intro stack first
    rw [tokens, Document.datum, foldlM_singleton_step]
    rfl
  | text n s =>
    intro stack first
    rw [tokens, Document.datum, foldlM_singleton_step]
    rfl
  | list h ih => exact builds_list ih
  | record h ih => exact builds_record ih

theorem limitDepths_eq_map (n : Nat) (ds : List Datum) :
    Datum.limitDepths n ds = ds.map (Datum.limitDepth n) := by
  induction ds with
  | nil => rfl
  | cons d ds ih => rw [Datum.limitDepths, ih, List.map_cons]

theorem limitFieldDepths_eq_map (n : Nat) (fs : List (Datum × Datum)) :
    Datum.limitFieldDepths n fs = fs.map fun f => (f.1.limitDepth n, f.2.limitDepth n) := by
  induction fs with
  | nil => rfl
  | cons f fs ih => rw [Datum.limitFieldDepths, ih, List.map_cons]

theorem limitDepth_datum (h : Plain n d) : (d.datum .kept).limitDepth n = d.datum .kept := by
  induction h with
  | bool n b => cases n <;> rfl
  | text n s => cases n <;> rfl
  | list h ih =>
    rw [Document.datum, Document.data_eq_map, Datum.limitDepth, limitDepths_eq_map, List.map_map]
    exact congrArg _ (List.map_congr_left ih)
  | @record n fs h ih =>
    have htext (k : String) : (Datum.text k).limitDepth n = .text k := by cases n <;> rfl
    have hkept (fs : List (Datum × Datum)) : FieldOrder.kept.arrange fs = fs := rfl
    rw [Document.datum, Document.fieldData_eq_map, hkept, Datum.limitDepth,
      limitFieldDepths_eq_map, List.map_map]
    refine congrArg _ (List.map_congr_left fun f hf => ?_)
    simp [htext, ih f hf]

/-- What is written is read back. -/
theorem read?_json (h : Plain maxDepth d) : read? d.json = some (d.datum .kept) := by
  have hscan : Token.scan? d.json.toList = some (tokens d) := by
    have hall := scans_text h 0 []
    rw [List.append_nil] at hall
    simpa [Document.json, Token.scan?] using hall
  have htokens : ofTokens? (tokens d) = some (d.datum .kept) := by
    rw [ofTokens?, builds_tokens h]
    rfl
  rw [read?, hscan, Option.bind_some, htokens, Option.map_some, limitDepth_datum h]

end ConsoleSignature.Json
