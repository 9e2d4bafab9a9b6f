import Mathlib.Data.UInt
import Sprawl.Lib.Checksum
import Sprawl.Lib.LittleEndian

/-!
# Hashes of bytes (`ds/hashes.cc`)

The hashes are folds over the bytes.  What each computes is its step as a number
(`djb2Step_toNat` and its like); a step loses nothing, so every change of a byte and every
exchange of two neighbours shows in the hash (`hashes_detect`), `loselose` apart, which does
not see the order.

`fletcher16` and `fletcher32` let their sums wrap around in 8 and 16 bits: they are
Fletcher's checksums for the moduli 2^8 and 2^16 (`fletcher16_eq`, `fletcher32_eq`), where
the published ones have 255 and 65535.
-/

namespace Ds

open Checksum LittleEndian

def djb2Step (hash : UInt64) (byte : UInt8) : UInt64 := ((hash <<< 5) + hash) + byte.toUInt64

def djb2 (bytes : List UInt8) : UInt64 := bytes.foldl djb2Step 5381

def sdbmStep (hash : UInt64) (byte : UInt8) : UInt64 :=
  byte.toUInt64 + (hash <<< 6) + (hash <<< 16) - hash

def sdbm (bytes : List UInt8) : UInt64 := bytes.foldl sdbmStep 0

def loseloseStep (hash : UInt64) (byte : UInt8) : UInt64 := hash + byte.toUInt64

def loselose (bytes : List UInt8) : UInt64 := bytes.foldl loseloseStep 0

def fletcher16Step (c : UInt8 × UInt8) (byte : UInt8) : UInt8 × UInt8 :=
  let c0 := c.1 + byte
  (c0, c.2 + c0)

def fletcher16Value (c : UInt8 × UInt8) : UInt16 := c.1.toUInt16 ||| (c.2.toUInt16 <<< 8)

def fletcher16 (bytes : List UInt8) : UInt16 :=
  fletcher16Value (bytes.foldl fletcher16Step (0, 0))

def fletcher32Step (c : UInt16 × UInt16) (byte : UInt8) : UInt16 × UInt16 :=
  let c0 := c.1 + byte.toUInt16
  (c0, c.2 + c0)

def fletcher32Value (c : UInt16 × UInt16) : UInt32 := c.1.toUInt32 ||| (c.2.toUInt32 <<< 16)

def fletcher32 (bytes : List UInt8) : UInt32 :=
  fletcher32Value (bytes.foldl fletcher32Step (0, 0))

/-! ## The steps as numbers -/

theorem djb2Step_toNat (hash : UInt64) (byte : UInt8) :
    (djb2Step hash byte).toNat = (33 * hash.toNat + byte.toNat) % 2 ^ 64 := by
  unfold djb2Step
  rw [UInt64.toNat_add, UInt64.toNat_add, UInt64.toNat_shiftLeft, UInt8.toNat_toUInt64]
  show (((hash.toNat <<< 5) % 2 ^ 64 + hash.toNat) % 2 ^ 64 + byte.toNat) % 2 ^ 64 = _
  rw [Nat.shiftLeft_eq]
  omega

theorem sdbmStep_toNat (hash : UInt64) (byte : UInt8) :
    (sdbmStep hash byte).toNat = (65599 * hash.toNat + byte.toNat) % 2 ^ 64 := by
  have hlt := hash.toNat_lt
  unfold sdbmStep
  rw [UInt64.toNat_sub, UInt64.toNat_add, UInt64.toNat_add, UInt64.toNat_shiftLeft,
    UInt64.toNat_shiftLeft, UInt8.toNat_toUInt64]
  show (2 ^ 64 - hash.toNat + (((byte.toNat + (hash.toNat <<< 6) % 2 ^ 64) % 2 ^ 64) +
    (hash.toNat <<< 16) % 2 ^ 64) % 2 ^ 64) % 2 ^ 64 = _
  rw [Nat.shiftLeft_eq, Nat.shiftLeft_eq]
  omega

theorem loseloseStep_toNat (hash : UInt64) (byte : UInt8) :
    (loseloseStep hash byte).toNat = (hash.toNat + byte.toNat) % 2 ^ 64 := by
  rw [loseloseStep, UInt64.toNat_add, UInt8.toNat_toUInt64]

theorem fletcher16Value_toNat (c : UInt8 × UInt8) :
    (fletcher16Value c).toNat = c.1.toNat + c.2.toNat * 2 ^ 8 := by
  have h0 : c.1.toNat < 2 ^ 8 := c.1.toNat_lt
  have h1 : c.2.toNat < 2 ^ 8 := c.2.toNat_lt
  unfold fletcher16Value
  rw [UInt16.toNat_or, UInt16.toNat_shiftLeft, UInt8.toNat_toUInt16, UInt8.toNat_toUInt16]
  show c.1.toNat ||| (c.2.toNat <<< 8) % 2 ^ 16 = _
  rw [Nat.shiftLeft_eq, Nat.mod_eq_of_lt (by omega), or_shift h0]

theorem fletcher32Value_toNat (c : UInt16 × UInt16) :
    (fletcher32Value c).toNat = c.1.toNat + c.2.toNat * 2 ^ 16 := by
  have h0 : c.1.toNat < 2 ^ 16 := c.1.toNat_lt
  have h1 : c.2.toNat < 2 ^ 16 := c.2.toNat_lt
  unfold fletcher32Value
  rw [UInt32.toNat_or, UInt32.toNat_shiftLeft, UInt16.toNat_toUInt32, UInt16.toNat_toUInt32]
  show c.1.toNat ||| (c.2.toNat <<< 16) % 2 ^ 32 = _
  rw [Nat.shiftLeft_eq, Nat.mod_eq_of_lt (by omega), or_shift h0]

theorem fletcher16Value_injective : Function.Injective fletcher16Value := by
  intro c d h
  have hvalue := congrArg UInt16.toNat h
  rw [fletcher16Value_toNat, fletcher16Value_toNat] at hvalue
  have hc : c.1.toNat < 2 ^ 8 := c.1.toNat_lt
  have hd : d.1.toNat < 2 ^ 8 := d.1.toNat_lt
  ext
  · show c.1.toNat = d.1.toNat
    omega
  · show c.2.toNat = d.2.toNat
    omega

theorem fletcher32Value_injective : Function.Injective fletcher32Value := by
  intro c d h
  have hvalue := congrArg UInt32.toNat h
  rw [fletcher32Value_toNat, fletcher32Value_toNat] at hvalue
  have hc : c.1.toNat < 2 ^ 16 := c.1.toNat_lt
  have hd : d.1.toNat < 2 ^ 16 := d.1.toNat_lt
  ext
  · show c.1.toNat = d.1.toNat
    omega
  · show c.2.toNat = d.2.toNat
    omega

/-! ## Changes that show -/

theorem byte_injective : Function.Injective UInt8.toNat := fun _ _ h => UInt8.toNat_inj.1 h

theorem word_injective : Function.Injective UInt64.toNat := fun _ _ h => UInt64.toNat_inj.1 h

theorem djb2_detects : DetectsChange djb2 ∧ DetectsSwap djb2 := by
  have hsmall : ∀ a b : UInt8, 33 * a.toNat + b.toNat < 2 ^ 64 := by
    intro a b
    have ha := a.toNat_lt
    have hb := b.toNat_lt
    omega
  exact detects_of_affine word_injective byte_injective UInt64.toNat_lt djb2Step_toNat
    (Nat.Coprime.pow_left 64 (by decide)) (by omega) hsmall 5381

theorem sdbm_detects : DetectsChange sdbm ∧ DetectsSwap sdbm := by
  have hsmall : ∀ a b : UInt8, 65599 * a.toNat + b.toNat < 2 ^ 64 := by
    intro a b
    have ha := a.toNat_lt
    have hb := b.toNat_lt
    omega
  exact detects_of_affine word_injective byte_injective UInt64.toNat_lt sdbmStep_toNat
    (Nat.Coprime.pow_left 64 (by decide)) (by omega) hsmall 0

theorem fletcher16_detects : DetectsChange fletcher16 ∧ DetectsSwap fletcher16 :=
  detects_of_sums Function.injective_id fletcher16Value_injective (0, 0)

theorem fletcher32_detects : DetectsChange fletcher32 ∧ DetectsSwap fletcher32 := by
  have hcast : Function.Injective UInt8.toUInt16 := by
    intro a b h
    have hnat := congrArg UInt16.toNat h
    rw [UInt8.toNat_toUInt16, UInt8.toNat_toUInt16] at hnat
    exact byte_injective hnat
  exact detects_of_sums hcast fletcher32Value_injective (0, 0)

/-- **Every changed byte and every two neighbours exchanged show in the hash.** -/
theorem hashes_detect :
    (DetectsChange djb2 ∧ DetectsSwap djb2) ∧ (DetectsChange sdbm ∧ DetectsSwap sdbm) ∧
      (DetectsChange fletcher16 ∧ DetectsSwap fletcher16) ∧
      (DetectsChange fletcher32 ∧ DetectsSwap fletcher32) :=
  ⟨djb2_detects, sdbm_detects, fletcher16_detects, fletcher32_detects⟩

/-- The order of the bytes does not show in `loselose`. -/
theorem loselose_perm {bytes bytes' : List UInt8} (h : bytes.Perm bytes') :
    loselose bytes = loselose bytes' := by
  have hcomm : ∀ b c (hash : UInt64),
      loseloseStep (loseloseStep hash b) c = loseloseStep (loseloseStep hash c) b := by
    intro b c hash
    apply UInt64.toNat_inj.1
    rw [loseloseStep_toNat, loseloseStep_toNat, loseloseStep_toNat, loseloseStep_toNat]
    omega
  exact h.foldl_eq' (fun b _ c _ hash => hcomm b c hash) 0

/-! ## Fletcher's checksums -/

/-- The low half and the high half of a checksum of `2 * w` bits. -/
def halves (w : Nat) (hash : Nat) : Nat × Nat := (hash % 2 ^ w, hash / 2 ^ w)

theorem halves_eq {w low : Nat} (h : low < 2 ^ w) (high : Nat) :
    halves w (low + high * 2 ^ w) = (low, high) := by
  rw [halves, Nat.add_mul_mod_self_right, Nat.mod_eq_of_lt h,
    Nat.add_mul_div_right _ _ (Nat.two_pow_pos w), Nat.div_eq_of_lt h, Nat.zero_add]

/-- **`fletcher16` is Fletcher's checksum modulo 256.** -/
theorem fletcher16_eq (bytes : List UInt8) :
    halves 8 (fletcher16 bytes).toNat = fletcher 256 (bytes.map UInt8.toNat) := by
  rw [fletcher16, fletcher16Value_toNat, halves_eq (UInt8.toNat_lt _)]
  exact @foldl_sumsStep UInt8 UInt8 _ _ UInt8.toNat id _ rfl UInt8.toNat_add bytes

theorem fletcher32_eq (bytes : List UInt8) :
    halves 16 (fletcher32 bytes).toNat = fletcher (2 ^ 16) (bytes.map UInt8.toNat) := by
  rw [fletcher32, fletcher32Value_toNat, halves_eq (UInt16.toNat_lt _)]
  have h := @foldl_sumsStep UInt8 UInt16 _ _ UInt16.toNat UInt8.toUInt16 _ rfl
    UInt16.toNat_add bytes
  simp only [UInt8.toNat_toUInt16] at h
  exact h

/-- The published checksum of the byte 0xff is zero. -/
theorem fletcher16_ne_published :
    ¬ ∀ bytes : List UInt8,
      halves 8 (fletcher16 bytes).toNat = fletcher 255 (bytes.map UInt8.toNat) := by
  intro h
  exact absurd (h [0xff]) (by decide)

/-- Where no sum reaches 255 there is no difference. -/
theorem fletcher16_published {bytes : List UInt8}
    (h : weightedSum (bytes.map UInt8.toNat) < 255) :
    halves 8 (fletcher16 bytes).toNat = fletcher 255 (bytes.map UInt8.toNat) := by
  have hle := sum_le_weightedSum (bytes.map UInt8.toNat)
  rw [fletcher16_eq, fletcher, fletcher, Nat.mod_eq_of_lt (by omega), Nat.mod_eq_of_lt (by omega),
    Nat.mod_eq_of_lt (by omega), Nat.mod_eq_of_lt h]

end Ds
