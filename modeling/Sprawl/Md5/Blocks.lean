import Sprawl.Md5.Correct

/-!
# The block loop

The counter of the loop is a `u32`, the size of the padded message a `size_t`.  The counter
goes up to the size only when that is below 2^32; a larger message is never done with, for
the counter starts again at 0.

    EachBlockOnce (padMessage message) ↔ message.length + 72 < 2^32      (eachBlockOnce_iff)
-/

namespace Md5

open Cxx Loop

/-- The loop is in state `s` after `k` turns, the `j`-th of which has read block `j`. -/
inductive AfterBlocks (padded : List UInt8) : Nat → DigestState → Prop
  | start : AfterBlocks padded 0 {}
  | block {k : Nat} {s s' : DigestState} : AfterBlocks padded k s →
      digestBody padded s = .again s' → (∀ j (hj : j < 16), s'.x[j] = wordOf padded (64 * k) j) →
      AfterBlocks padded (k + 1) s'

/-- The loop reads each block of the message once, in order, and ends behind the last one. -/
structure EachBlockOnce (padded : List UInt8) : Prop where
  whole : 64 ∣ padded.length
  ends : ∃ s d, AfterBlocks padded (padded.length / 64) s ∧ digestBody padded s = .done (.ok d)

section
variable {padded : List UInt8}

/-- Below 2^32 the counter stands at the block to read. -/
theorem exists_afterBlocks (hfit : padded.length < 2 ^ 32) :
    ∀ k, 64 * k ≤ padded.length → ∃ s, AfterBlocks padded k s ∧ s.i.toNat = 64 * k := by
  intro k
  induction k with
  | zero => exact fun _ => ⟨{}, .start, rfl⟩
  | succ k ih =>
    intro hk
    obtain ⟨s, hafter, hi⟩ := ih (by omega)
    obtain ⟨s', hturn, hi', hwords, -⟩ := digestBody_block hfit hi hk
    exact ⟨s', .block hafter hturn hwords, hi'⟩

theorem digestBody_end {s : DigestState} (h : padded.length ≤ s.i.toNat) :
    digestBody padded s = .done (.ok #v[s.A0, s.B0, s.C0, s.D0]) := if_neg (Nat.not_lt.2 h)

/-- From 2^32 on the counter is below the size whatever it is. -/
theorem digestBody_not_done (hlong : 2 ^ 32 ≤ padded.length) (s : DigestState)
    (d : Vector UInt32 4) : digestBody padded s ≠ .done (.ok d) := by
  intro hdone
  have hi : s.i.toNat < padded.length := Nat.lt_of_lt_of_le s.i.toNat_lt hlong
  unfold digestBody at hdone
  rw [if_pos hi] at hdone
  split at hdone <;> cases hdone

/-- **The loop ends behind the last block exactly when the size fits the counter.** -/
theorem ends_iff (hwhole : 64 ∣ padded.length) :
    EachBlockOnce padded ↔ padded.length < 2 ^ 32 := by
  constructor
  · rintro ⟨-, s, d, -, hdone⟩
    by_contra hlong
    exact digestBody_not_done (Nat.le_of_not_lt hlong) s d hdone
  · intro hfit
    obtain ⟨s, hafter, hi⟩ :=
      exists_afterBlocks hfit (padded.length / 64) (Nat.mul_div_le padded.length 64)
    refine ⟨hwhole, s, _, hafter, digestBody_end ?_⟩
    rw [hi, Nat.mul_div_cancel' hwhole]

end

/-- **Each block is read once exactly when the padded message is shorter than 2^32.** -/
theorem eachBlockOnce_iff {message : List UInt8} (h : message.length + 72 < 2 ^ 64) :
    EachBlockOnce (padMessage message) ↔ message.length + 72 < 2 ^ 32 := by
  have hlen := length_padMessage h
  rw [ends_iff ⟨_, hlen⟩, hlen]
  omega

/-- A message of three blocks. -/
def threeBlocks : List UInt8 := List.replicate 130 0x61

theorem eachBlockOnce_iff_threeBlocks :
    EachBlockOnce (padMessage threeBlocks) ↔ threeBlocks.length + 72 < 2 ^ 32 :=
  eachBlockOnce_iff (by simp [threeBlocks])

/-- A message of 4 GiB. -/
def longMessage : List UInt8 := List.replicate (2 ^ 32) 0

theorem not_eachBlockOnce :
    ¬ ∀ message : List UInt8,
      message.length + 72 < 2 ^ 64 → EachBlockOnce (padMessage message) := by
  intro h
  have hsize : longMessage.length = 2 ^ 32 := List.length_replicate
  have hbound : longMessage.length + 72 < 2 ^ 64 := by omega
  have hlen := length_padMessage hbound
  have hfit := (ends_iff ⟨_, hlen⟩).1 (h longMessage hbound)
  omega

end Md5
