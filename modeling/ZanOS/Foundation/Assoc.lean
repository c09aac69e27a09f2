import Mathlib.Data.List.Basic
import Mathlib.Tactic.Common

/-!
# Association lists with a first-match rule

A table that is searched from the front, extended at the back and overwritten at the first match.
Keys may repeat; a later entry with a key that already occurs is hidden, and `List.lookup` only
ever sees the first. `assign` is the update that keeps to that rule.
-/

namespace Foundation

variable {κ ν : Type*} [BEq κ] [LawfulBEq κ] [DecidableEq κ]

/-- Overwrite the value of the first entry with key `k`. -/
def assign {κ : Type*} [DecidableEq κ] (k : κ) (v : ν) : List (κ × ν) → List (κ × ν)
  | [] => []
  | e :: l => if e.1 = k then (k, v) :: l else e :: assign k v l

theorem lookup_cons_eq_ite (k : κ) (e : κ × ν) (l : List (κ × ν)) :
    (e :: l).lookup k = if e.1 = k then some e.2 else l.lookup k := by
  obtain ⟨k', v⟩ := e
  rw [List.lookup_cons]
  by_cases h : k' = k
  · simp [h]
  · simp [h, beq_false_of_ne (Ne.symm h)]

theorem lookup_append_singleton (k k' : κ) (v : ν) (l : List (κ × ν)) :
    (l ++ [(k', v)]).lookup k
      = (l.lookup k).or (if k' = k then some v else none) := by
  induction l with
  | nil => rw [List.nil_append, lookup_cons_eq_ite]; simp
  | cons e l ih =>
    rw [List.cons_append, lookup_cons_eq_ite, lookup_cons_eq_ite, ih]
    by_cases h : e.1 = k <;> simp [h]

theorem keys_assign {κ : Type*} [DecidableEq κ] (k : κ) (v : ν) (l : List (κ × ν)) :
    (assign k v l).map Prod.fst = l.map Prod.fst := by
  induction l with
  | nil => rfl
  | cons e l ih =>
    rw [assign]
    split_ifs with h
    · rw [List.map_cons, List.map_cons, h]
    · rw [List.map_cons, List.map_cons, ih]

theorem lookup_assign (k k' : κ) (v : ν) (l : List (κ × ν)) :
    (assign k v l).lookup k' = if k' = k then (l.lookup k).map fun _ ↦ v else l.lookup k' := by
  induction l with
  | nil => simp [assign]
  | cons e l ih =>
    rw [assign]
    by_cases he : e.1 = k
    · rw [if_pos he, lookup_cons_eq_ite, lookup_cons_eq_ite, lookup_cons_eq_ite, if_pos he]
      by_cases hk : k' = k
      · rw [if_pos hk.symm, if_pos hk, Option.map_some]
      · rw [if_neg (Ne.symm hk), if_neg hk, if_neg (by rw [he]; exact Ne.symm hk)]
    · rw [if_neg he, lookup_cons_eq_ite, ih, lookup_cons_eq_ite, lookup_cons_eq_ite, if_neg he]
      by_cases hk : k' = k
      · rw [if_pos hk, if_neg (by rw [hk]; exact he), if_pos hk]
      · rw [if_neg hk, if_neg hk]

theorem isSome_lookup_iff (k : κ) (l : List (κ × ν)) :
    (l.lookup k).isSome ↔ ∃ e ∈ l, e.1 = k := by
  induction l with
  | nil => simp
  | cons e l ih =>
    rw [lookup_cons_eq_ite]
    by_cases h : e.1 = k
    · simp [h]
    · rw [if_neg h, ih]
      simp [h]

theorem exists_first_of_lookup {k : κ} {w : ν} {l : List (κ × ν)} (h : l.lookup k = some w) :
    ∃ i, l[i]? = some (k, w) ∧ ∀ e ∈ l.take i, e.1 ≠ k := by
  induction l with
  | nil => simp at h
  | cons e l ih =>
    rw [lookup_cons_eq_ite] at h
    by_cases he : e.1 = k
    · rw [if_pos he, Option.some.injEq] at h
      exact ⟨0, by rw [List.getElem?_cons_zero, ← he, ← h], by simp⟩
    · rw [if_neg he] at h
      obtain ⟨i, hget, hfirst⟩ := ih h
      refine ⟨i + 1, by rwa [List.getElem?_cons_succ], fun e' he' ↦ ?_⟩
      rw [List.take_succ_cons] at he'
      rcases List.mem_cons.mp he' with rfl | he'
      · exact he
      · exact hfirst e' he'

/-- Assigning overwrites exactly the position of the first match. -/
theorem assign_eq_set_of_first {κ : Type*} [DecidableEq κ] {k : κ} {v w : ν} {l : List (κ × ν)}
    {i : ℕ} (hget : l[i]? = some (k, w)) (hfirst : ∀ e ∈ l.take i, e.1 ≠ k) :
    assign k v l = l.set i (k, v) := by
  induction l generalizing i with
  | nil => simp at hget
  | cons e l ih =>
    rw [assign]
    cases i with
    | zero =>
      rw [List.getElem?_cons_zero, Option.some.injEq] at hget
      rw [hget, if_pos rfl, List.set_cons_zero]
    | succ i =>
      rw [List.take_succ_cons] at hfirst
      rw [if_neg (hfirst e List.mem_cons_self), List.set_cons_succ]
      congr 1
      exact ih hget fun e' he' ↦ hfirst e' (List.mem_cons_of_mem _ he')

end Foundation
