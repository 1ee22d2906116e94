import Mathlib.Data.List.Basic
import Mathlib.Tactic.Common

/-!
Patterns: runs of characters, each of one class, that make up a whole text. The ways to cut a text
into them stand in the order in which a search that goes back on its choices comes upon them.
-/
namespace ConsoleSignature.Text

structure Run where
  chars : Char → Bool
  least : Nat
  most : Option Nat
  /-- Whether longer runs are tried before shorter ones. -/
  greedy : Bool
  captured : Bool

variable {r : Run} {rs : List Run} {s u v : List Char} {way : List (List Char)}

namespace Run

def once (c : Char) : Run := ⟨(· == c), 1, some 1, true, false⟩

def optional (c : Char) : Run := ⟨(· == c), 0, some 1, true, false⟩

def skipped (chars : Char → Bool) : Run := ⟨chars, 0, none, true, false⟩

/-- A run that is never empty and of which the text is kept. -/
def kept (chars : Char → Bool) (greedy : Bool) : Run := ⟨chars, 1, none, greedy, true⟩

def fits (r : Run) (u : List Char) : Bool :=
  u.all r.chars && r.least ≤ u.length && r.most.all (u.length ≤ ·)

/-- The run that a text may start with, and the rest of the text. -/
def cuts (r : Run) (s : List Char) : List (List Char × List Char) :=
  let shortestFirst := ((List.range (s.length + 1)).map s.splitAt).filter fun x => r.fits x.1
  if r.greedy then shortestFirst.reverse else shortestFirst

theorem mem_cuts_iff : (u, v) ∈ r.cuts s ↔ s = u ++ v ∧ r.fits u := by
  have hmem : (u, v) ∈ ((List.range (s.length + 1)).map s.splitAt).filter (fun x => r.fits x.1) ↔
      s = u ++ v ∧ r.fits u := by
    rw [List.mem_filter, List.mem_map]
    constructor
    · rintro ⟨⟨n, -, hn⟩, hfits⟩
      rw [List.splitAt_eq, Prod.mk.injEq] at hn
      obtain ⟨rfl, rfl⟩ := hn
      exact ⟨(List.take_append_drop n s).symm, hfits⟩
    · rintro ⟨rfl, hfits⟩
      refine ⟨⟨u.length, ?_, by simp⟩, hfits⟩
      rw [List.mem_range, List.length_append]
      omega
  unfold cuts
  split
  · rw [List.mem_reverse, hmem]
  · exact hmem

theorem fits_iff : r.fits u ↔
    (∀ c ∈ u, r.chars c) ∧ r.least ≤ u.length ∧ ∀ n ∈ r.most, u.length ≤ n := by
  simp [fits, Option.all_eq_true, and_assoc]

theorem fits_once_iff {c : Char} : (once c).fits u ↔ u = [c] := by
  rw [fits_iff]
  constructor
  · rintro ⟨hchars, hleast, hmost⟩
    have hone : u.length = 1 := Nat.le_antisymm (hmost 1 rfl) hleast
    obtain ⟨d, rfl⟩ := List.length_eq_one_iff.1 hone
    have hd : d = c := by simpa [once] using hchars d
    rw [hd]
  · rintro rfl
    simp [once]

theorem fits_optional_iff {c : Char} : (optional c).fits u ↔ u = [] ∨ u = [c] := by
  rw [fits_iff]
  constructor
  · rintro ⟨hchars, -, hmost⟩
    by_cases hu : u = []
    · exact Or.inl hu
    · exact Or.inr (fits_once_iff.1 (fits_iff.2 ⟨hchars, List.length_pos_iff.2 hu, hmost⟩))
  · rintro (rfl | rfl) <;> simp [optional]

theorem fits_skipped_iff {p : Char → Bool} : (skipped p).fits u ↔ ∀ c ∈ u, p c := by
  simp [fits_iff, skipped]

theorem fits_kept_iff {p : Char → Bool} {greedy : Bool} :
    (kept p greedy).fits u ↔ u ≠ [] ∧ ∀ c ∈ u, p c := by
  rw [fits_iff, ← List.length_pos_iff]
  simp [kept, Nat.one_le_iff_ne_zero, Nat.pos_iff_ne_zero, and_comm]

end Run

/-- Each way to match a whole text, given by the runs that it keeps. -/
def ways : List Run → List Char → List (List (List Char))
  | [], s => if s = [] then [[]] else []
  | r :: rs, s => (r.cuts s).flatMap fun (u, v) =>
    (ways rs v).map fun way => if r.captured then u :: way else way

/-- The way that the search comes upon first. -/
def firstWay? (rs : List Run) (s : List Char) : Option (List (List Char)) := (ways rs s).head?

theorem mem_ways_nil_iff : way ∈ ways [] s ↔ s = [] ∧ way = [] := by
  rw [ways]
  split <;> simp_all

theorem mem_ways_of_captured (h : r.captured = true) : way ∈ ways (r :: rs) s ↔
    ∃ u v rest, s = u ++ v ∧ r.fits u ∧ rest ∈ ways rs v ∧ way = u :: rest := by
  simp only [ways, List.mem_flatMap, List.mem_map, Prod.exists, Run.mem_cuts_iff, h, if_true]
  constructor
  · rintro ⟨u, v, ⟨hs, hfits⟩, rest, hrest, rfl⟩
    exact ⟨u, v, rest, hs, hfits, hrest, rfl⟩
  · rintro ⟨u, v, rest, hs, hfits, hrest, rfl⟩
    exact ⟨u, v, ⟨hs, hfits⟩, rest, hrest, rfl⟩

theorem mem_ways_of_not_captured (h : r.captured = false) : way ∈ ways (r :: rs) s ↔
    ∃ u v, s = u ++ v ∧ r.fits u ∧ way ∈ ways rs v := by
  simp [ways, Run.mem_cuts_iff, h, and_assoc]

theorem mem_ways_kept_iff {p : Char → Bool} {greedy : Bool} : way ∈ ways (.kept p greedy :: rs) s ↔
    ∃ u v rest, s = u ++ v ∧ (u ≠ [] ∧ ∀ c ∈ u, p c) ∧ rest ∈ ways rs v ∧ way = u :: rest := by
  simp only [mem_ways_of_captured (r := .kept p greedy) rfl, Run.fits_kept_iff]

theorem mem_ways_skipped_iff {p : Char → Bool} : way ∈ ways (.skipped p :: rs) s ↔
    ∃ u v, s = u ++ v ∧ (∀ c ∈ u, p c) ∧ way ∈ ways rs v := by
  simp only [mem_ways_of_not_captured (r := .skipped p) rfl, Run.fits_skipped_iff]

theorem mem_ways_once_iff {c : Char} :
    way ∈ ways (.once c :: rs) s ↔ ∃ v, s = c :: v ∧ way ∈ ways rs v := by
  simp [mem_ways_of_not_captured (r := .once c) rfl, Run.fits_once_iff]

theorem mem_ways_optional_iff {c : Char} : way ∈ ways (.optional c :: rs) s ↔
    ∃ u v, s = u ++ v ∧ (u = [] ∨ u = [c]) ∧ way ∈ ways rs v := by
  simp only [mem_ways_of_not_captured (r := .optional c) rfl, Run.fits_optional_iff]

theorem mem_ways_of_firstWay? (h : firstWay? rs s = some way) : way ∈ ways rs s :=
  List.mem_of_head? h

theorem firstWay?_eq_none_iff : firstWay? rs s = none ↔ ∀ way, way ∉ ways rs s := by
  rw [firstWay?, List.head?_eq_none_iff, List.eq_nil_iff_forall_not_mem]

end ConsoleSignature.Text
