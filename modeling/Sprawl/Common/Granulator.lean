import Mathlib.Tactic.Ring
import Sprawl.Lib.Ranges

/-!
# Dividing elements among threads (`common/granulator.{h,cc}`)

The grain is the number of elements over the number of threads, rounded down, so
up to `T - 1` elements are left over.  The last `Step` takes them in when its range
ends less than `threshold_` elements before the end; more of them than that, and
they are in no range.

    Tiles n (ranges T n) ↔
      n ≤ 128 T ∨ n % T = 0 ∨ n % T < 128 ∧ n - n % T + 127 < 2^64     (ranges_tile_iff)

The last bound is the sum `to + threshold_` of the test, which wraps round behind it.
-/

namespace Common

open Ranges

structure Granulator where
  threshold : UInt64
  numElements : UInt64
  numThreads : UInt64
  grain : UInt64
  step : UInt64
deriving DecidableEq, Repr

/-- `Granulator(num_elements)`, where `std::thread::hardware_concurrency()` is not 0. -/
def Granulator.new (hardwareConcurrency numElements : UInt64) : Granulator :=
  let g : Granulator :=
    { threshold := 128
      numElements
      numThreads := hardwareConcurrency
      grain := numElements / hardwareConcurrency
      step := 0 }
  if g.numElements ≤ g.numThreads * g.threshold then
    { g with numThreads := 1, grain := g.numElements }
  else g

def Granulator.getNumThreads (g : Granulator) : UInt64 := g.numThreads

/-- `Step()`: an inclusive range. -/
def Granulator.Step (g : Granulator) : (UInt64 × UInt64) × Granulator :=
  let first := g.step * g.grain
  let last := (g.step + 1) * g.grain - 1
  let last := if last + g.threshold ≥ g.numElements then g.numElements - 1 else last
  ((first, last), { g with step := g.step + 1 })

/-- The ranges of the next `k` calls of `Step`. -/
def Granulator.steps : Nat → Granulator → List (Nat × Nat)
  | 0, _ => []
  | k + 1, g =>
    let (r, g) := g.Step
    (r.1.toNat, r.2.toNat) :: steps k g

/-- The ranges of the first `GetNumThreads()` calls, for the threads of `main`. -/
def ranges (hardwareConcurrency numElements : UInt64) : List (Nat × Nat) :=
  let suggestion := Granulator.new hardwareConcurrency numElements
  suggestion.steps suggestion.getNumThreads.toNat

/-! ## One step -/

/-- Where a range that would end before `e` ends: at `e`, or with the elements. -/
def stretched (n e : Nat) : Nat := if (e + 127) % 2 ^ 64 ≥ n then n else e

section
variable {g : Granulator} (hthreshold : g.threshold = 128) (hgrain : 1 ≤ g.grain.toNat)
include hgrain

/-- Nothing wraps round inside the elements. -/
theorem Step_toNat
    (hin : (g.step.toNat + 1) * g.grain.toNat ≤ g.numElements.toNat) :
    (g.step + 1).toNat = g.step.toNat + 1 ∧
      (g.step * g.grain).toNat = g.step.toNat * g.grain.toNat ∧
      ((g.step + 1) * g.grain - 1).toNat = (g.step.toNat + 1) * g.grain.toNat - 1 ∧
      (g.numElements - 1).toNat = g.numElements.toNat - 1 := by
  have hn := g.numElements.toNat_lt
  have hmul : (g.step.toNat + 1) * g.grain.toNat =
      g.step.toNat * g.grain.toNat + g.grain.toNat := Nat.succ_mul _ _
  have hle : g.step.toNat + 1 ≤ (g.step.toNat + 1) * g.grain.toNat :=
    Nat.le_mul_of_pos_right _ hgrain
  have hone : (1 : UInt64).toNat = 1 := rfl
  have hsucc : (g.step + 1).toNat = g.step.toNat + 1 := by
    rw [UInt64.toNat_add, hone, Nat.mod_eq_of_lt (by omega)]
  have hprod : ((g.step + 1) * g.grain).toNat = (g.step.toNat + 1) * g.grain.toNat := by
    rw [UInt64.toNat_mul, hsucc, Nat.mod_eq_of_lt (by omega)]
  refine ⟨hsucc, ?_, ?_, ?_⟩
  · rw [UInt64.toNat_mul, Nat.mod_eq_of_lt (by omega)]
  · rw [UInt64.toNat_sub_of_le _ _ (by rw [UInt64.le_iff_toNat_le, hprod, hone]; omega), hprod,
      hone]
  · rw [UInt64.toNat_sub_of_le _ _ (by rw [UInt64.le_iff_toNat_le, hone]; omega), hone]

include hthreshold

/-- A range inside the elements is a block of `grain`, its end stretched. -/
theorem Step_spec (hin : (g.step.toNat + 1) * g.grain.toNat ≤ g.numElements.toNat) :
    g.Step.1.1.toNat = g.step.toNat * g.grain.toNat ∧
      g.Step.1.2.toNat + 1 =
        stretched g.numElements.toNat ((g.step.toNat + 1) * g.grain.toNat) := by
  obtain ⟨-, hfirst, hlast, hend⟩ := Step_toNat hgrain hin
  have hmul : (g.step.toNat + 1) * g.grain.toNat =
      g.step.toNat * g.grain.toNat + g.grain.toNat := Nat.succ_mul _ _
  have htest : (g.step + 1) * g.grain - 1 + g.threshold ≥ g.numElements ↔
      ((g.step.toNat + 1) * g.grain.toNat + 127) % 2 ^ 64 ≥ g.numElements.toNat := by
    have h128 : (128 : UInt64).toNat = 128 := rfl
    have hsum : (g.step.toNat + 1) * g.grain.toNat - 1 + 128 =
        (g.step.toNat + 1) * g.grain.toNat + 127 := by omega
    rw [ge_iff_le, UInt64.le_iff_toNat_le, UInt64.toNat_add, hlast, hthreshold, h128, hsum]
  refine ⟨hfirst, ?_⟩
  unfold Granulator.Step stretched
  simp only [htest]
  split
  · rw [hend]
    omega
  · rw [hlast]
    omega

/-- One range, from the start of its block. -/
theorem Step_span (hin : (g.step.toNat + 1) * g.grain.toNat ≤ g.numElements.toNat)
    {rs : List (Nat × Nat)} {b : Nat}
    (h : Span (stretched g.numElements.toNat ((g.step.toNat + 1) * g.grain.toNat)) rs b) :
    Span (g.step.toNat * g.grain.toNat) ((g.Step.1.1.toNat, g.Step.1.2.toNat) :: rs) b := by
  obtain ⟨hfirst, hlast⟩ := Step_spec hthreshold hgrain hin
  have hmul : (g.step.toNat + 1) * g.grain.toNat =
      g.step.toNat * g.grain.toNat + g.grain.toNat := Nat.succ_mul _ _
  have hle : (g.step.toNat + 1) * g.grain.toNat ≤
      stretched g.numElements.toNat ((g.step.toNat + 1) * g.grain.toNat) := by
    unfold stretched
    split
    · exact hin
    · exact Nat.le_refl _
  rw [← hlast] at h hle
  rw [hfirst]
  exact .cons (by omega) h

end

/-! ## All steps -/

/-- The ranges of the steps that are left, up to the end of the last block, stretched. -/
theorem steps_span (k : Nat) {g : Granulator} (hthreshold : g.threshold = 128)
    (hgrain : 128 ≤ g.grain.toNat)
    (hin : (g.step.toNat + (k + 1)) * g.grain.toNat ≤ g.numElements.toNat) :
    Span (g.step.toNat * g.grain.toNat) (g.steps (k + 1))
      (stretched g.numElements.toNat ((g.step.toNat + (k + 1)) * g.grain.toNat)) := by
  have hpos : 1 ≤ g.grain.toNat := by omega
  induction k generalizing g with
  | zero => exact Step_span hthreshold hpos hin .nil
  | succ k ih =>
    have hmul : (g.step.toNat + (k + 1 + 1)) * g.grain.toNat =
        (g.step.toNat + 1) * g.grain.toNat + (k + 1) * g.grain.toNat := by ring
    have hblock : g.grain.toNat ≤ (k + 1) * g.grain.toNat :=
      Nat.le_mul_of_pos_left _ (Nat.succ_pos k)
    have hnext : (g.step.toNat + 1) * g.grain.toNat ≤ g.numElements.toNat := by omega
    obtain ⟨hsucc, -⟩ := Step_toNat hpos hnext
    have hassoc : g.step.toNat + 1 + (k + 1) = g.step.toNat + (k + 1 + 1) := by omega
    have hrest := @ih { g with step := g.step + 1 } hthreshold hgrain
      (by simp only [hsucc, hassoc]; exact hin) hpos
    simp only [hsucc, hassoc] at hrest
    -- a block with another one behind it is not stretched
    have hlt := g.numElements.toNat_lt
    have hkeep : stretched g.numElements.toNat ((g.step.toNat + 1) * g.grain.toNat) =
        (g.step.toNat + 1) * g.grain.toNat := by
      unfold stretched
      rw [if_neg]
      rw [Nat.mod_eq_of_lt (by omega)]
      omega
    exact Step_span hthreshold hpos hnext (by rw [hkeep]; exact hrest)

/-- The blocks of `T` threads leave out what is left over. -/
theorem blocks_eq (T n : UInt64) :
    T.toNat * (n / T).toNat = n.toNat - n.toNat % T.toNat := by
  have h := Nat.div_add_mod n.toNat T.toNat
  rw [UInt64.toNat_div]
  omega

section
variable {T n : UInt64} (hfit : T.toNat * 128 < 2 ^ 64)
include hfit

/-- The test of the constructor. -/
theorem le_threshold_iff : n ≤ T * 128 ↔ n.toNat ≤ 128 * T.toNat := by
  rw [UInt64.le_iff_toNat_le, UInt64.toNat_mul, Nat.mul_comm 128]
  show n.toNat ≤ T.toNat * 128 % 2 ^ 64 ↔ _
  rw [Nat.mod_eq_of_lt hfit]

theorem new_few (hfew : n.toNat ≤ 128 * T.toNat) :
    Granulator.new T n =
      { threshold := 128, numElements := n, numThreads := 1, grain := n, step := 0 } := by
  unfold Granulator.new
  exact if_pos ((le_threshold_iff hfit).2 hfew)

theorem new_many (hmany : 128 * T.toNat < n.toNat) :
    Granulator.new T n =
      { threshold := 128, numElements := n, numThreads := T, grain := n / T, step := 0 } := by
  unfold Granulator.new
  exact if_neg fun h => Nat.not_le_of_lt hmany ((le_threshold_iff hfit).1 h)

/-- Few elements are one range. -/
theorem ranges_span_few (hn : 1 ≤ n.toNat) (hfew : n.toNat ≤ 128 * T.toNat) :
    Span 0 (ranges T n) n.toNat := by
  have hend : stretched n.toNat ((0 + 1) * n.toNat) = n.toNat := by simp [stretched]
  have hspan := @Step_span (Granulator.mk 128 n 1 n 0) rfl hn (by simp) [] n.toNat
    (by simp only [UInt64.toNat_zero, hend]; exact .nil)
  simp only [UInt64.toNat_zero, Nat.zero_mul] at hspan
  unfold ranges Granulator.getNumThreads
  rw [new_few hfit hfew]
  exact hspan

/-- Many elements are `T` blocks, the last one stretched. -/
theorem ranges_span_many (hT : 1 ≤ T.toNat) (hmany : 128 * T.toNat < n.toNat) :
    Span 0 (ranges T n) (stretched n.toNat (n.toNat - n.toNat % T.toNat)) := by
  have hgrain : 128 ≤ (n / T).toNat := by
    rw [UInt64.toNat_div, Nat.le_div_iff_mul_le hT]
    omega
  have hblocks := blocks_eq T n
  obtain ⟨k, hk⟩ : ∃ k, T.toNat = k + 1 := ⟨T.toNat - 1, by omega⟩
  have hspan := @steps_span k (Granulator.mk 128 n T (n / T) 0) rfl hgrain
    (by simp only [← hk, UInt64.toNat_zero, Nat.zero_add, hblocks]; omega)
  simp only [← hk, UInt64.toNat_zero, Nat.zero_add, hblocks, Nat.zero_mul] at hspan
  unfold ranges Granulator.getNumThreads
  rw [new_many hfit hmany]
  exact hspan

end

/-- The last block reaches the end exactly when nothing is left over, or what is left over
is below the threshold and the sum of the test does not wrap round. -/
theorem stretched_eq_iff {n r : Nat} (hr : r ≤ n) (hn : 128 ≤ n) (hlt : n < 2 ^ 64) :
    stretched n (n - r) = n ↔ r = 0 ∨ r < 128 ∧ n - r + 127 < 2 ^ 64 := by
  unfold stretched
  by_cases hwrap : n - r + 127 < 2 ^ 64
  · rw [Nat.mod_eq_of_lt hwrap]
    split <;> omega
  · have hmod : (n - r + 127) % 2 ^ 64 = n - r + 127 - 2 ^ 64 := by omega
    rw [hmod, if_neg (by omega)]
    omega

/-- **The ranges cover every element once exactly when the last one takes in what is left
over.** -/
theorem ranges_tile_iff (T n : UInt64) (hT : 1 ≤ T.toNat) (hfit : T.toNat * 128 < 2 ^ 64)
    (hn : 1 ≤ n.toNat) :
    Tiles n.toNat (ranges T n) ↔
      n.toNat ≤ 128 * T.toNat ∨ n.toNat % T.toNat = 0 ∨
        n.toNat % T.toNat < 128 ∧ n.toNat - n.toNat % T.toNat + 127 < 2 ^ 64 := by
  by_cases hfew : n.toNat ≤ 128 * T.toNat
  · exact iff_of_true (ranges_span_few hfit hn hfew).tiles (.inl hfew)
  · rw [(ranges_span_many hfit hT (by omega)).tiles_iff, or_iff_right hfew]
    exact stretched_eq_iff (Nat.mod_le _ _) (by omega) n.toNat_lt

/-- On 192 threads the last range takes in the 127 elements left over of 24703. -/
theorem ranges_tile_iff_threads :
    Tiles 24703 (ranges 192 24703) ↔
      24703 ≤ 128 * 192 ∨ 24703 % 192 = 0 ∨
        24703 % 192 < 128 ∧ 24703 - 24703 % 192 + 127 < 2 ^ 64 :=
  ranges_tile_iff 192 24703 (by decide) (by decide) (by decide)

/-- On 192 threads the last 128 of 24704 elements are in no range. -/
theorem not_ranges_tile :
    ¬ ∀ T n : UInt64, 1 ≤ T.toNat → T.toNat * 128 < 2 ^ 64 → 1 ≤ n.toNat →
      Tiles n.toNat (ranges T n) := by
  intro h
  have htiles := h 192 24704 (by decide) (by decide) (by decide)
  have hspan := @ranges_span_many 192 24704 (by decide) (by decide) (by decide)
  have hend := hspan.tiles_iff.1 htiles
  revert hend
  decide

end Common
