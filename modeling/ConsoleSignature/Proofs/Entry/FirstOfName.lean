import ConsoleSignature.Entry
import Mathlib.Data.List.FinRange
import Mathlib.Data.List.Nodup

/-! The first entry of each name: no name comes twice, and none is lost. -/
namespace ConsoleSignature.Entry

variable {e : Entry} {es : List Entry} {n : String}

/-- The entries at the places before which no entry has the same name, in their order. -/
def atFirstPlaces (es : List Entry) : List Entry :=
  ((List.finRange es.length).filter fun i => ∀ j < i, es[j].name ≠ es[i].name).map es.get

theorem atFirstPlaces_cons (e : Entry) (es : List Entry) :
    atFirstPlaces (e :: es) = e :: (atFirstPlaces es).filter (·.name != e.name) := by
  have hsucc (i : Fin es.length) :
      (∀ j < i.succ, (e :: es)[j].name ≠ (e :: es)[i.succ].name) ↔
        es[i].name ≠ e.name ∧ ∀ j < i, es[j].name ≠ es[i].name := by
    rw [Fin.forall_fin_succ]
    simp [eq_comm]
  simp only [atFirstPlaces, List.length_cons, List.finRange_succ]
  rw [List.filter_cons_of_pos (by simp), List.map_cons, List.filter_map, List.filter_map,
    List.map_map, List.filter_filter]
  congr 2
  apply List.filter_congr
  intro i _
  rw [Bool.eq_iff_iff]
  simpa using hsucc i

theorem firstOfName_eq_atFirstPlaces (es : List Entry) : firstOfName es = atFirstPlaces es := by
  induction es with
  | nil => rfl
  | cons e es ih => rw [firstOfName, atFirstPlaces_cons, ih]

theorem nodup_names_firstOfName (es : List Entry) :
    ((firstOfName es).map Entry.name).Nodup := by
  induction es with
  | nil => simp [firstOfName]
  | cons e es ih =>
    rw [firstOfName, List.map_cons, List.nodup_cons]
    refine ⟨by simp, ?_⟩
    exact ih.sublist (List.filter_sublist.map Entry.name)

theorem mem_names_firstOfName :
    n ∈ (firstOfName es).map Entry.name ↔ n ∈ es.map Entry.name := by
  induction es with
  | nil => rfl
  | cons e es ih =>
    simp only [firstOfName, List.map_cons, List.mem_cons, ← ih]
    by_cases hn : n = e.name
    · simp [hn]
    · simp only [hn, false_or, List.mem_map, List.mem_filter]
      refine exists_congr fun d => ⟨fun h => ⟨h.1.1, h.2⟩, ?_⟩
      rintro ⟨hd, rfl⟩
      exact ⟨⟨hd, by simpa using hn⟩, rfl⟩

/-- Before the first entry of a name none has that name. -/
theorem exists_of_mem_firstOfName (h : e ∈ firstOfName es) :
    ∃ before after, es = before ++ e :: after ∧ ∀ d ∈ before, d.name ≠ e.name := by
  induction es with
  | nil => simp [firstOfName] at h
  | cons d es ih =>
    rw [firstOfName] at h
    rcases List.mem_cons.1 h with rfl | h
    · exact ⟨[], es, rfl, by simp⟩
    · obtain ⟨hmem, hne⟩ := List.mem_filter.1 h
      obtain ⟨before, after, rfl, hbefore⟩ := ih hmem
      refine ⟨d :: before, after, rfl, ?_⟩
      intro x hx
      rcases List.mem_cons.1 hx with rfl | hx
      · intro he
        simp [he] at hne
      · exact hbefore x hx

/-- Of each name the entry is kept that looking the name up finds. -/
theorem filter_name_firstOfName (es : List Entry) (n : String) :
    (firstOfName es).filter (·.name == n) = (es.find? (·.name == n)).toList := by
  induction es with
  | nil => rfl
  | cons e es ih =>
    by_cases hn : e.name = n
    · have hnone : ((firstOfName es).filter (·.name != e.name)).filter (·.name == n) = [] := by
        rw [List.filter_filter, List.filter_eq_nil_iff]
        simp [hn]
      rw [firstOfName, List.filter_cons_of_pos (by simpa using hn), hnone,
        List.find?_cons_of_pos (by simpa using hn)]
      rfl
    · have hsame : ((firstOfName es).filter (·.name != e.name)).filter (·.name == n) =
          (firstOfName es).filter (·.name == n) := by
        rw [List.filter_filter]
        apply List.filter_congr
        intro d _
        by_cases hd : d.name = n <;> simp [hd, Ne.symm hn]
      rw [firstOfName, List.filter_cons_of_neg (by simpa using hn), hsame, ih,
        List.find?_cons_of_neg (by simpa using hn)]

end ConsoleSignature.Entry
