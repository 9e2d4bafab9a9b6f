import Mathlib.Tactic.Common

/-!
# Runs

A list is a sequence of maximal runs of equal elements.  `runs` lists them with
their lengths, and `run_induction` is the induction over them: a property of the
empty list that holds of a run in front of a list that starts differently, when
it holds of that list, holds of every list.
-/

namespace Runs

variable {α : Type*} [DecidableEq α]

/-- The maximal runs of a list, with their lengths. -/
def runs : List α → List (α × Nat)
  | [] => []
  | x :: xs =>
    match runs xs with
    | [] => [(x, 1)]
    | (y, n) :: rs => if x = y then (y, n + 1) :: rs else (x, 1) :: (y, n) :: rs

theorem runs_head (xs : List α) : (runs xs).head?.map Prod.fst = xs.head? := by
  cases xs with
  | nil => rfl
  | cons x xs =>
    unfold runs
    split
    · rfl
    · split
      · next h => rw [h]; rfl
      · rfl

theorem runs_cons_of_ne {x : α} {xs : List α} (h : xs.head? ≠ some x) :
    runs (x :: xs) = (x, 1) :: runs xs := by
  have hhead := runs_head xs
  rw [runs]
  cases hr : runs xs with
  | nil => rfl
  | cons r rs =>
    rw [hr] at hhead
    have hne : x ≠ r.1 := by
      rintro rfl
      exact h hhead.symm
    exact if_neg hne

/-- A run in front of a list that starts differently. -/
theorem runs_replicate_append {x : α} {n : Nat} {xs : List α} (hn : 0 < n)
    (h : xs.head? ≠ some x) : runs (List.replicate n x ++ xs) = (x, n) :: runs xs := by
  induction n with
  | zero => exact absurd hn (Nat.lt_irrefl 0)
  | succ n ih =>
    rw [List.replicate_succ, List.cons_append]
    by_cases h0 : n = 0
    · subst h0
      exact runs_cons_of_ne h
    · rw [runs, ih (Nat.pos_of_ne_zero h0)]
      exact if_pos rfl

theorem runs_eq_nil {xs : List α} : runs xs = [] ↔ xs = [] := by
  have hhead := runs_head xs
  cases xs with
  | nil => exact ⟨fun _ => rfl, fun _ => rfl⟩
  | cons x xs =>
    constructor
    · intro h
      rw [h] at hhead
      cases hhead
    · intro h
      cases h

omit [DecidableEq α] in
theorem exists_run {xs : List α} (h : xs ≠ []) : ∃ x n ys, 0 < n ∧ ys.head? ≠ some x ∧
    xs = List.replicate n x ++ ys := by
  classical
  induction xs with
  | nil => exact absurd rfl h
  | cons x xs ih =>
    by_cases hxs : xs = []
    · subst hxs
      exact ⟨x, 1, [], Nat.one_pos, by simp, rfl⟩
    · obtain ⟨y, n, ys, hn, hys, rfl⟩ := ih hxs
      by_cases hxy : x = y
      · subst hxy
        exact ⟨x, n + 1, ys, Nat.succ_pos n, hys, by rw [List.replicate_succ, List.cons_append]⟩
      · refine ⟨x, 1, List.replicate n y ++ ys, Nat.one_pos, ?_, rfl⟩
        obtain ⟨m, rfl⟩ : ∃ m, n = m + 1 := ⟨n - 1, by omega⟩
        rw [List.replicate_succ, List.cons_append, List.head?_cons]
        exact fun he => hxy (Option.some.inj he).symm

omit [DecidableEq α] in
/-- **Induction over the runs of a list.** -/
theorem run_induction {P : List α → Prop} (nil : P [])
    (run : ∀ x n ys, 0 < n → ys.head? ≠ some x → P ys → P (List.replicate n x ++ ys)) :
    ∀ xs, P xs := by
  intro xs
  induction hlen : xs.length using Nat.strongRecOn generalizing xs with
  | ind k ih =>
    by_cases h : xs = []
    · rw [h]
      exact nil
    · obtain ⟨x, n, ys, hn, hys, rfl⟩ := exists_run h
      have hlt : ys.length < k := by
        rw [List.length_append, List.length_replicate] at hlen
        omega
      exact run x n ys hn hys (ih ys.length hlt ys rfl)

/-- No run is empty. -/
theorem runs_pos (xs : List α) : ∀ r ∈ runs xs, 0 < r.2 := by
  induction xs using run_induction with
  | nil => simp [runs]
  | run x n ys hn hys ih =>
    rw [runs_replicate_append hn hys]
    intro r hr
    rcases List.mem_cons.1 hr with rfl | hr
    · exact hn
    · exact ih r hr

end Runs
