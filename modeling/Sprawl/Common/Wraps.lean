import Sprawl.Common.Granulator
import Sprawl.Lib.Checked

/-!
# Where the granulator wraps round (`common/granulator.{h,cc}`)

`checkedNew` and `checkedStep` are the constructor and `Step` once more, over operations
that give up where the exact result is no `size_t`.  What they return is what the plain
ones return (`checkedRanges_eq`).

For `n` elements on `T` cores nothing wraps, and every range lies below `n`, exactly when

    1 ≤ n ∧ n - n % T + 127 < 2^64                                  (ranges_inside_iff)

With no elements, the default of the program, the only range ends at `1 * 0 - 1`.
-/

namespace Common

open Ranges

/-- `Granulator(num_elements)`. -/
def Granulator.checkedNew (hardwareConcurrency numElements : UInt64) : Option Granulator := do
  let g : Granulator :=
    { threshold := 128
      numElements
      numThreads := hardwareConcurrency
      grain := numElements / hardwareConcurrency
      step := 0 }
  let least ← Checked.mul g.numThreads g.threshold
  if g.numElements ≤ least then
    some { g with numThreads := 1, grain := g.numElements }
  else
    some g

/-- `Step()`. -/
def Granulator.checkedStep (g : Granulator) : Option ((UInt64 × UInt64) × Granulator) := do
  let first ← Checked.mul g.step g.grain
  let next ← Checked.add g.step 1
  let blocks ← Checked.mul next g.grain
  let last ← Checked.sub blocks 1
  let reach ← Checked.add last g.threshold
  let last ← (if reach ≥ g.numElements then Checked.sub g.numElements 1 else some last)
  let step ← Checked.add g.step 1
  return ((first, last), { g with step })

/-- The next `k` calls of `Step`. -/
def Granulator.checkedSteps : Nat → Granulator → Option (List (Nat × Nat))
  | 0, _ => some []
  | k + 1, g => do
    let s ← g.checkedStep
    let rs ← checkedSteps k s.2
    return (s.1.1.toNat, s.1.2.toNat) :: rs

/-- The constructor and the first `GetNumThreads()` calls of `Step`. -/
def checkedRanges (hardwareConcurrency numElements : UInt64) : Option (List (Nat × Nat)) := do
  let suggestion ← Granulator.checkedNew hardwareConcurrency numElements
  suggestion.checkedSteps suggestion.getNumThreads.toNat

/-! ## The same results -/

theorem checkedNew_eq {T n : UInt64} {g : Granulator} (h : Granulator.checkedNew T n = some g) :
    Granulator.new T n = g := by
  simp only [Granulator.checkedNew, Option.bind_eq_bind, Option.bind_eq_some_iff,
    Checked.mul_eq_some] at h
  obtain ⟨least, ⟨-, rfl⟩, h⟩ := h
  unfold Granulator.new
  split at h
  · rename_i hfew
    rw [if_pos hfew]
    exact Option.some.inj h
  · rename_i hmany
    rw [if_neg hmany]
    exact Option.some.inj h

theorem checkedStep_eq {g : Granulator} {r : (UInt64 × UInt64) × Granulator}
    (h : g.checkedStep = some r) : g.Step = r := by
  simp only [Granulator.checkedStep, Option.bind_eq_bind, Option.bind_eq_some_iff,
    Checked.mul_eq_some, Checked.add_eq_some, Checked.sub_eq_some] at h
  obtain ⟨first, ⟨-, rfl⟩, next, ⟨-, rfl⟩, blocks, ⟨-, rfl⟩, last, ⟨-, rfl⟩, reach, ⟨-, rfl⟩,
    last, hlast, step, ⟨-, rfl⟩, hr⟩ := h
  rw [← Option.some.inj hr]
  simp only [Granulator.Step]
  split at hlast
  · rename_i hreach
    rw [Checked.sub_eq_some] at hlast
    rw [if_pos hreach, hlast.2]
  · rename_i hreach
    rw [if_neg hreach, Option.some.inj hlast]

theorem checkedSteps_eq (k : Nat) {g : Granulator} {rs : List (Nat × Nat)}
    (h : g.checkedSteps k = some rs) : g.steps k = rs := by
  induction k generalizing g rs with
  | zero => exact Option.some.inj h
  | succ k ih =>
    simp only [Granulator.checkedSteps, Option.bind_eq_bind, Option.bind_eq_some_iff] at h
    obtain ⟨r, hstep, rest, hrest, hrs⟩ := h
    rw [← Option.some.inj hrs, ← ih hrest, ← checkedStep_eq hstep]
    rfl

/-- A run in which nothing wrapped returned the ranges of the plain one. -/
theorem checkedRanges_eq {T n : UInt64} {rs : List (Nat × Nat)}
    (h : checkedRanges T n = some rs) : ranges T n = rs := by
  simp only [checkedRanges, Option.bind_eq_bind, Option.bind_eq_some_iff] at h
  obtain ⟨g, hnew, hsteps⟩ := h
  unfold ranges
  rw [checkedNew_eq hnew]
  exact checkedSteps_eq _ hsteps

/-! ## One step -/

/-- Inside the elements, only the sum of the test can wrap. -/
theorem checkedStep_spec {g : Granulator} (hthreshold : g.threshold = 128)
    (hgrain : 1 ≤ g.grain.toNat)
    (hin : (g.step.toNat + 1) * g.grain.toNat ≤ g.numElements.toNat) :
    g.checkedStep =
      if (g.step.toNat + 1) * g.grain.toNat + 127 < 2 ^ 64 then some g.Step else none := by
  obtain ⟨hsucc, hfirst, hlast, -⟩ := Step_toNat hgrain hin
  have hn := g.numElements.toNat_lt
  have hone : (1 : UInt64).toNat = 1 := rfl
  have hmul : (g.step.toNat + 1) * g.grain.toNat =
      g.step.toNat * g.grain.toNat + g.grain.toNat := Nat.succ_mul _ _
  have hle : g.step.toNat + 1 ≤ (g.step.toNat + 1) * g.grain.toNat :=
    Nat.le_mul_of_pos_right _ hgrain
  have hprod : ((g.step + 1) * g.grain).toNat = (g.step.toNat + 1) * g.grain.toNat := by
    rw [UInt64.toNat_mul, hsucc, Nat.mod_eq_of_lt (by omega)]
  have hmul₁ : Checked.mul g.step g.grain = some (g.step * g.grain) := by
    rw [Checked.mul_eq_some]
    exact ⟨by omega, rfl⟩
  have hadd : Checked.add g.step 1 = some (g.step + 1) := by
    rw [Checked.add_eq_some, hone]
    exact ⟨by omega, rfl⟩
  have hmul₂ : Checked.mul (g.step + 1) g.grain = some ((g.step + 1) * g.grain) := by
    rw [Checked.mul_eq_some, hsucc]
    exact ⟨by omega, rfl⟩
  have hsub : Checked.sub ((g.step + 1) * g.grain) 1 = some ((g.step + 1) * g.grain - 1) := by
    rw [Checked.sub_eq_some, hprod, hone]
    exact ⟨by omega, rfl⟩
  have hend : Checked.sub g.numElements 1 = some (g.numElements - 1) := by
    rw [Checked.sub_eq_some, hone]
    exact ⟨by omega, rfl⟩
  have hreach : Checked.add ((g.step + 1) * g.grain - 1) g.threshold =
      if (g.step.toNat + 1) * g.grain.toNat + 127 < 2 ^ 64 then
        some ((g.step + 1) * g.grain - 1 + g.threshold) else none := by
    have h128 : (128 : UInt64).toNat = 128 := rfl
    have hsum : (g.step.toNat + 1) * g.grain.toNat - 1 + 128 =
        (g.step.toNat + 1) * g.grain.toNat + 127 := by omega
    rw [Checked.add, hlast, hthreshold, h128, hsum]
  unfold Granulator.checkedStep
  simp only [hmul₁, hadd, hmul₂, hsub, hreach, Option.bind_eq_bind, Option.bind_some]
  split
  · unfold Granulator.Step
    simp only [Option.bind_some]
    split
    · rw [hend]
      rfl
    · rfl
  · rfl

/-! ## All steps -/

/-- The last sum of the test is the largest. -/
theorem checkedSteps_isSome (k : Nat) {g : Granulator} (hthreshold : g.threshold = 128)
    (hgrain : 1 ≤ g.grain.toNat)
    (hin : (g.step.toNat + (k + 1)) * g.grain.toNat ≤ g.numElements.toNat) :
    (g.checkedSteps (k + 1)).isSome ↔
      (g.step.toNat + (k + 1)) * g.grain.toNat + 127 < 2 ^ 64 := by
  induction k generalizing g with
  | zero =>
    rw [Granulator.checkedSteps, checkedStep_spec hthreshold hgrain hin]
    split <;> simp_all [Granulator.checkedSteps]
  | succ k ih =>
    have hmul : (g.step.toNat + (k + 1 + 1)) * g.grain.toNat =
        (g.step.toNat + 1) * g.grain.toNat + (k + 1) * g.grain.toNat := by ring
    have hnext : (g.step.toNat + 1) * g.grain.toNat ≤ g.numElements.toNat := by omega
    obtain ⟨hsucc, -⟩ := Step_toNat hgrain hnext
    have hassoc : g.step.toNat + 1 + (k + 1) = g.step.toNat + (k + 1 + 1) := by omega
    have hrest := @ih { g with step := g.step + 1 } hthreshold hgrain
      (by simp only [hsucc, hassoc]; exact hin)
    simp only [hsucc, hassoc] at hrest
    rw [Granulator.checkedSteps, checkedStep_spec hthreshold hgrain hnext, ← hrest]
    by_cases hreach : (g.step.toNat + 1) * g.grain.toNat + 127 < 2 ^ 64
    · rw [if_pos hreach, Option.bind_eq_bind, Option.bind_some]
      show (Option.bind (Granulator.checkedSteps (k + 1) { g with step := g.step + 1 }) _).isSome ↔
        (Granulator.checkedSteps (k + 1) { g with step := g.step + 1 }).isSome
      cases Granulator.checkedSteps (k + 1) { g with step := g.step + 1 } <;> rfl
    · rw [if_neg hreach, hrest]
      refine iff_of_false Bool.false_ne_true ?_
      omega

section
variable {T n : UInt64} (hfit : T.toNat * 128 < 2 ^ 64)
include hfit

theorem checkedNew_spec : Granulator.checkedNew T n = some (Granulator.new T n) := by
  have hmul : Checked.mul T 128 = some (T * 128) := by
    rw [Checked.mul_eq_some]
    exact ⟨hfit, rfl⟩
  unfold Granulator.checkedNew Granulator.new
  simp only [hmul, Option.bind_eq_bind, Option.bind_some]
  split <;> rfl

/-- Without elements the one range ends before it starts. -/
theorem checkedRanges_zero : checkedRanges T 0 = none := by
  unfold checkedRanges
  rw [checkedNew_spec hfit, new_few hfit (Nat.zero_le _)]
  rfl

theorem checkedRanges_isSome (hT : 1 ≤ T.toNat) (hn : 1 ≤ n.toNat) :
    (checkedRanges T n).isSome ↔ n.toNat - n.toNat % T.toNat + 127 < 2 ^ 64 := by
  unfold checkedRanges
  rw [checkedNew_spec hfit]
  by_cases hfew : n.toNat ≤ 128 * T.toNat
  · have hsteps := @checkedSteps_isSome 0 (Granulator.mk 128 n 1 n 0) rfl hn (by simp)
    simp only [UInt64.toNat_zero, Nat.zero_add, Nat.one_mul] at hsteps
    rw [new_few hfit hfew]
    -- 128 * T is a multiple of 128 below 2^64: the sum has room for 127 more
    exact hsteps.trans (iff_of_true (by omega) (by omega))
  · have hmany : 128 * T.toNat < n.toNat := by omega
    have hgrain : 1 ≤ (n / T).toNat := by
      rw [UInt64.toNat_div, Nat.le_div_iff_mul_le hT]
      omega
    have hblocks := blocks_eq T n
    obtain ⟨k, hk⟩ : ∃ k, T.toNat = k + 1 := ⟨T.toNat - 1, by omega⟩
    have hsteps := @checkedSteps_isSome k (Granulator.mk 128 n T (n / T) 0) rfl hgrain
      (by simp only [← hk, UInt64.toNat_zero, Nat.zero_add, hblocks]; omega)
    simp only [← hk, UInt64.toNat_zero, Nat.zero_add, hblocks] at hsteps
    rw [new_many hfit hmany]
    exact hsteps

/-- Both ends of every range are elements. -/
theorem ranges_inside (hT : 1 ≤ T.toNat) (hn : 1 ≤ n.toNat) :
    ∀ r ∈ ranges T n, r.1 < n.toNat ∧ r.2 < n.toNat := by
  intro r hr
  by_cases hfew : n.toNat ≤ 128 * T.toNat
  · have hspan := (ranges_span_few hfit hn hfew).mem r hr
    omega
  · have hspan := (ranges_span_many hfit hT (by omega)).mem r hr
    have hend : stretched n.toNat (n.toNat - n.toNat % T.toNat) ≤ n.toNat := by
      unfold stretched
      split <;> omega
    omega

end

/-- **Nothing wraps round, and every range lies among the elements, exactly when there are
elements and the last sum of the test fits.** -/
theorem ranges_inside_iff (T n : UInt64) (hT : 1 ≤ T.toNat) (hfit : T.toNat * 128 < 2 ^ 64) :
    ((checkedRanges T n).isSome ∧ ∀ r ∈ ranges T n, r.1 < n.toNat ∧ r.2 < n.toNat) ↔
      1 ≤ n.toNat ∧ n.toNat - n.toNat % T.toNat + 127 < 2 ^ 64 := by
  by_cases hn : 1 ≤ n.toNat
  · rw [and_iff_left (ranges_inside hfit hT hn), checkedRanges_isSome hfit hT hn,
      and_iff_right hn]
  · have hzero : n = 0 := by
      rw [← UInt64.toNat_inj, UInt64.toNat_zero]
      omega
    refine iff_of_false ?_ (fun h => hn h.1)
    intro h
    rw [hzero, checkedRanges_zero hfit] at h
    exact Bool.false_ne_true h.1

/-- A thousand elements on eight cores. -/
theorem ranges_inside_iff_thousand :
    ((checkedRanges 8 1000).isSome ∧ ∀ r ∈ ranges 8 1000, r.1 < 1000 ∧ r.2 < 1000) ↔
      1 ≤ 1000 ∧ 1000 - 1000 % 8 + 127 < 2 ^ 64 :=
  ranges_inside_iff 8 1000 (by decide) (by decide)

/-- Without elements the range of the one thread is everything from 0 to 2^64 - 1. -/
theorem ranges_outside :
    ¬ ∀ T n : UInt64, 1 ≤ T.toNat → T.toNat * 128 < 2 ^ 64 →
      (checkedRanges T n).isSome ∧ ∀ r ∈ ranges T n, r.1 < n.toNat ∧ r.2 < n.toNat := by
  intro h
  have hranges : ranges 4 0 = [(0, 2 ^ 64 - 1)] := by decide
  have hinside := (h 4 0 (by decide) (by decide)).2 (0, 2 ^ 64 - 1)
  rw [hranges] at hinside
  exact Nat.not_lt_zero _ (hinside (List.mem_singleton.2 rfl)).1

end Common
