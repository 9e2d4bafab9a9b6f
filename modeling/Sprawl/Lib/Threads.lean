import Mathlib.Algebra.BigOperators.Fin
import Mathlib.Algebra.Order.BigOperators.Group.Finset
import Mathlib.Algebra.Order.Ring.Nat
import Mathlib.Data.List.FinRange
import Mathlib.Data.List.Induction
import Mathlib.Logic.Function.Basic
import Mathlib.Tactic.Common

/-!
# Interleaved threads

The program counters of `n` threads are a function on `Fin n`, a step moves one of them,
and a schedule is the list of the threads that take the steps.  `count` is the number of
threads at some places of their program; a step changes it by the places it leaves and
reaches (`count_update`), and so for any sum over the threads (`total_update`).  Threads that
all take the same step one after the other leave the others where they were (`foldl_each`).
A lock keeps all but its owner outside (`Guarded`).
A number that only some steps raise, by one, stays below a bound
along a run exactly when each of these steps is taken below the bound
(`bounded_along_iff`).
-/

namespace Threads

/-! ## Threads at a place -/

section
variable {α : Type*} {n : Nat}

/-- The number of threads at the places `p`. -/
def count (p : α → Bool) (pc : Fin n → α) : Nat := (List.finRange n).countP fun i => p (pc i)

theorem count_le (p : α → Bool) (pc : Fin n → α) : count p pc ≤ n := by
  have h := @List.countP_le_length _ (fun i => p (pc i)) (List.finRange n)
  rw [List.length_finRange] at h
  exact h

theorem count_eq_zero {p : α → Bool} {pc : Fin n → α} (h : ∀ i, p (pc i) = false) :
    count p pc = 0 := by
  unfold count
  rw [List.countP_eq_zero]
  intro i _
  rw [h i]
  exact Bool.false_ne_true

/-- The thread `i` apart, the counts before and after its step are the same. -/
theorem count_update (p : α → Bool) (pc : Fin n → α) (i : Fin n) (c : α) :
    count p (Function.update pc i c) + (if p (pc i) then 1 else 0) =
      count p pc + (if p c then 1 else 0) := by
  have hperm : (List.finRange n).Perm (i :: (List.finRange n).erase i) :=
    List.perm_cons_erase (List.mem_finRange i)
  have hothers : ((List.finRange n).erase i).countP (fun j => p (Function.update pc i c j)) =
      ((List.finRange n).erase i).countP (fun j => p (pc j)) := by
    apply List.countP_congr
    intro j hj
    have hne : j ≠ i := ((List.nodup_finRange n).mem_erase_iff.1 hj).1
    rw [Function.update_of_ne hne]
  unfold count
  rw [hperm.countP_eq, hperm.countP_eq, List.countP_cons, List.countP_cons, hothers,
    Function.update_self]
  omega

theorem count_enter {p : α → Bool} {pc : Fin n → α} {i : Fin n} {c : α} (hout : p (pc i) = false)
    (hin : p c = true) : count p (Function.update pc i c) = count p pc + 1 := by
  have h := count_update p pc i c
  rw [hout, hin] at h
  simpa using h

theorem count_stay {p : α → Bool} {pc : Fin n → α} {i : Fin n} {c : α} (h : p c = p (pc i)) :
    count p (Function.update pc i c) = count p pc := by
  have hupdate := count_update p pc i c
  rw [h] at hupdate
  omega

theorem count_leave {p : α → Bool} {pc : Fin n → α} {i : Fin n} {c : α} (hin : p (pc i) = true)
    (hout : p c = false) : count p (Function.update pc i c) + 1 = count p pc := by
  have h := count_update p pc i c
  rw [hin, hout] at h
  simpa using h

/-- What the threads have, summed. -/
def total (f : α → Nat) (pc : Fin n → α) : Nat := ∑ i, f (pc i)

/-- The thread `i` apart, the sums before and after its step are the same. -/
theorem total_update (f : α → Nat) (pc : Fin n → α) (i : Fin n) (c : α) :
    total f (Function.update pc i c) + f (pc i) = total f pc + f c := by
  have hothers : ∑ j ∈ Finset.univ.erase i, f (Function.update pc i c j) =
      ∑ j ∈ Finset.univ.erase i, f (pc j) := by
    apply Finset.sum_congr rfl
    intro j hj
    rw [Function.update_of_ne (Finset.ne_of_mem_erase hj)]
  unfold total
  rw [← Finset.add_sum_erase Finset.univ (fun j => f (Function.update pc i c j))
      (Finset.mem_univ i),
    ← Finset.add_sum_erase Finset.univ (fun j => f (pc j)) (Finset.mem_univ i), hothers]
  show f (Function.update pc i c i) + _ + _ = _
  rw [Function.update_self]
  omega

theorem total_const {f : α → Nat} {pc : Fin n → α} {k : Nat} (h : ∀ i, f (pc i) = k) :
    total f pc = n * k := by
  unfold total
  simp only [h]
  simp

theorem total_le {f : α → Nat} {pc : Fin n → α} {k : Nat} (h : ∀ i, f (pc i) ≤ k) :
    total f pc ≤ n * k := by
  calc total f pc ≤ ∑ _i : Fin n, k := Finset.sum_le_sum fun i _ => h i
    _ = n * k := by simp

theorem le_total (f : α → Nat) (pc : Fin n → α) (i : Fin n) : f (pc i) ≤ total f pc :=
  Finset.single_le_sum (fun j _ => Nat.zero_le (f (pc j))) (Finset.mem_univ i)

end

/-! ## The same step by many threads -/

section
variable {σ α : Type*} {n : Nat} {step : σ → Fin n → σ} {pc : σ → Fin n → α}

/-- Threads that move from `before` to `after`, one after the other; `P` counts them. -/
theorem foldl_each {before after : α} {P : Nat → σ → Prop}
    (hstep : ∀ k s i, P k s → pc s i = before →
      P (k + 1) (step s i) ∧ pc (step s i) = Function.update (pc s) i after)
    {threads : List (Fin n)} (hnodup : threads.Nodup) {k : Nat} {s : σ} (hP : P k s)
    (hpc : ∀ i ∈ threads, pc s i = before) :
    P (k + threads.length) (threads.foldl step s) ∧
      ∀ j, pc (threads.foldl step s) j = if j ∈ threads then after else pc s j := by
  induction threads generalizing k s with
  | nil => exact ⟨hP, fun j => (if_neg List.not_mem_nil).symm⟩
  | cons i threads ih =>
    obtain ⟨hnotMem, hnodup⟩ := List.nodup_cons.1 hnodup
    obtain ⟨hnext, hmoved⟩ := hstep k s i hP (hpc i List.mem_cons_self)
    have hothers : ∀ j ∈ threads, pc (step s i) j = before := by
      intro j hj
      have hne : j ≠ i := by
        rintro rfl
        exact hnotMem hj
      rw [hmoved, Function.update_of_ne hne]
      exact hpc j (List.mem_cons_of_mem i hj)
    obtain ⟨hend, hplaces⟩ := ih hnodup hnext hothers
    refine ⟨?_, fun j => ?_⟩
    · rw [List.length_cons, List.foldl_cons, show k + (threads.length + 1) =
        k + 1 + threads.length by omega]
      exact hend
    · rw [List.foldl_cons, hplaces j, hmoved]
      by_cases hj : j = i
      · subst hj
        rw [if_neg hnotMem, Function.update_self, if_pos List.mem_cons_self]
      · rw [Function.update_of_ne hj]
        exact if_congr (by rw [List.mem_cons, or_iff_right hj]) rfl rfl

end

/-! ## A lock -/

section
variable {α : Type*} {n : Nat} {inside : α → Bool} {owner : Option (Fin n)} {pc : Fin n → α}

/-- The threads inside are the owner of the lock. -/
def Guarded (inside : α → Bool) (owner : Option (Fin n)) (pc : Fin n → α) : Prop :=
  ∀ t, inside (pc t) = true ↔ owner = some t

/-- **At most one thread is inside.** -/
theorem Guarded.unique (h : Guarded inside owner pc) {t u : Fin n} (ht : inside (pc t) = true)
    (hu : inside (pc u) = true) : t = u := by
  rw [h t] at ht
  rw [h u, ht] at hu
  exact Option.some.inj hu

theorem Guarded.start (h : ∀ t, inside (pc t) = false) : Guarded inside none pc := by
  intro t
  rw [h t]
  exact iff_of_false Bool.false_ne_true nofun

theorem Guarded.acquire (h : Guarded inside none pc) (t : Fin n) {c : α}
    (hc : inside c = true) : Guarded inside (some t) (Function.update pc t c) := by
  intro u
  by_cases hu : u = t
  · subst hu
    rw [Function.update_self]
    exact iff_of_true hc rfl
  · rw [Function.update_of_ne hu, h u, Option.some.injEq]
    exact iff_of_false (Option.some_ne_none u).symm (fun heq => hu heq.symm)

theorem Guarded.stay (h : Guarded inside owner pc) {t : Fin n} {c : α}
    (hc : inside c = inside (pc t)) : Guarded inside owner (Function.update pc t c) := by
  intro u
  by_cases hu : u = t
  · subst hu
    rw [Function.update_self, hc]
    exact h u
  · rw [Function.update_of_ne hu]
    exact h u

theorem Guarded.release (h : Guarded inside owner pc) {t : Fin n} {c : α}
    (ht : inside (pc t) = true) (hc : inside c = false) :
    Guarded inside none (Function.update pc t c) := by
  intro u
  by_cases hu : u = t
  · subst hu
    rw [Function.update_self, hc]
    exact iff_of_false Bool.false_ne_true nofun
  · rw [Function.update_of_ne hu]
    refine iff_of_false ?_ nofun
    intro hinside
    exact hu (h.unique hinside ht)

end

/-! ## Bounds along a run -/

section
variable {σ ι : Type*} {step : σ → ι → σ} {f : σ → Nat} {raises : σ → ι → Prop}

/-- **A number that some steps raise by one is bounded by the steps that raise it.** -/
theorem bounded_along_iff (hup : ∀ s i, raises s i → f (step s i) = f s + 1)
    (hstay : ∀ s i, ¬ raises s i → f (step s i) ≤ f s) {m : Int} {s : σ} (hs : f s ≤ m)
    (schedule : List ι) :
    (∀ pre, pre <+: schedule → (f (pre.foldl step s) : Int) ≤ m) ↔
      ∀ pre i, pre ++ [i] <+: schedule → raises (pre.foldl step s) i →
        (f (pre.foldl step s) : Int) < m := by
  constructor
  · intro h pre i hpre hraises
    have hnext := h (pre ++ [i]) hpre
    rw [List.foldl_append, List.foldl_cons, List.foldl_nil, hup _ _ hraises] at hnext
    omega
  · intro h pre
    -- the last step of the prefix is the one that could pass the bound
    induction pre using List.reverseRecOn with
    | nil =>
      intro _
      exact hs
    | append_singleton pre i ih =>
      intro hpre
      have hbefore := ih ((List.prefix_append pre [i]).trans hpre)
      rw [List.foldl_append, List.foldl_cons, List.foldl_nil]
      by_cases hraises : raises (pre.foldl step s) i
      · have hlt := h pre i hpre hraises
        rw [hup _ _ hraises]
        omega
      · have hle := hstay _ _ hraises
        omega

end

end Threads
