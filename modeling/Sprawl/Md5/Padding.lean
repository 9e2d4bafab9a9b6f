import Sprawl.Lib.Rfc1321
import Sprawl.Md5.Digest

/-!
# The padding

`PadMessage` finds the number of zero bytes with unsigned arithmetic on the length and puts
the length together from two masked halves.  For a message of less than 2^61 bytes nothing
wraps, and the result is

    message ++ [0x80] ++ fewer than 64 zeros ++ the 8 bytes of 8n      (padMessage_spec)

which is a whole number of blocks and says what the message was.
-/

namespace Md5

open LittleEndian

/-! ## The sizes -/

section
variable (msgSize : UInt64)

/-- The locals of `PadMessage`. -/
def numBlocks : UInt64 := ((msgSize + 8) >>> 6) + 1

def totalLen : UInt64 := (numBlocks msgSize <<< 6) - msgSize

def surplusBytes : UInt64 := totalLen msgSize - 8 - 1

/-- None of the subtractions goes below zero. -/
structure NoWrap : Prop where
  blocks : msgSize ≤ numBlocks msgSize <<< 6
  field : 8 ≤ totalLen msgSize
  mark : 1 ≤ totalLen msgSize - 8

variable {msgSize} (h : msgSize.toNat + 72 < 2 ^ 64)
include h

theorem toNat_blocks : (numBlocks msgSize <<< 6).toNat = 64 * ((msgSize.toNat + 72) / 64) := by
  unfold numBlocks
  simp only [UInt64.toNat_add, UInt64.toNat_shiftLeft, UInt64.toNat_shiftRight]
  simp
  omega

theorem toNat_totalLen :
    (totalLen msgSize).toNat = 64 * ((msgSize.toNat + 72) / 64) - msgSize.toNat := by
  have hblocks := toNat_blocks h
  unfold totalLen
  rw [UInt64.toNat_sub_of_le, hblocks]
  rw [UInt64.le_iff_toNat_le, hblocks]
  omega

theorem noWrap : NoWrap msgSize := by
  have hblocks := toNat_blocks h
  have htotal := toNat_totalLen h
  have hfield : 8 ≤ totalLen msgSize := by
    rw [UInt64.le_iff_toNat_le, htotal]
    show 8 ≤ _
    omega
  refine ⟨?_, hfield, ?_⟩
  · rw [UInt64.le_iff_toNat_le, hblocks]
    omega
  · rw [UInt64.le_iff_toNat_le, UInt64.toNat_sub_of_le _ _ hfield, htotal]
    show 1 ≤ _ - 8
    omega

theorem toNat_surplusBytes : (surplusBytes msgSize).toNat = (119 - msgSize.toNat % 64) % 64 := by
  have hwrap := noWrap h
  unfold surplusBytes
  rw [UInt64.toNat_sub_of_le _ _ hwrap.mark, UInt64.toNat_sub_of_le _ _ hwrap.field,
    toNat_totalLen h]
  show _ - 8 - 1 = _
  omega

end

/-! ## The length field -/

theorem pad_byte (w : UInt32) (k : Nat) (mask s : UInt32) (hmask : mask.toNat = 255 <<< k)
    (hs : s.toNat % 32 = k) : ((mask &&& w) >>> s).toUInt8 = UInt8.ofNat (w.toNat / 2 ^ k) := by
  rw [← UInt8.toNat_inj, UInt8.toNat_ofNat', UInt32.toNat_toUInt8, UInt32.toNat_shiftRight,
    UInt32.toNat_and, hmask, hs, Nat.and_comm, mask_shift, Nat.mod_mod]

theorem low_byte (w : UInt32) : ((0xff : UInt32) &&& w).toUInt8 = UInt8.ofNat w.toNat := by
  have hand : w.toNat &&& 255 = w.toNat % 256 := Nat.and_two_pow_sub_one_eq_mod _ 8
  rw [← UInt8.toNat_inj, UInt8.toNat_ofNat', UInt32.toNat_toUInt8, UInt32.toNat_and, Nat.and_comm]
  show (w.toNat &&& 255) % 256 = _
  rw [hand, Nat.mod_mod]

theorem shifted_low_byte (w s : UInt32) (k : Nat) (hs : s.toNat % 32 = k) :
    ((0xff : UInt32) &&& (w >>> s)).toUInt8 = UInt8.ofNat (w.toNat / 2 ^ k) := by
  rw [low_byte, UInt32.toNat_shiftRight, hs, Nat.shiftRight_eq_div_pow]

theorem ofNat_congr {a b : Nat} (h : a % 256 = b % 256) : UInt8.ofNat a = UInt8.ofNat b := by
  rw [← UInt8.toNat_inj, UInt8.toNat_ofNat', UInt8.toNat_ofNat']
  exact h

theorem toNat_lowHalf (n : UInt64) :
    ((0x00000000ffffffff : UInt64) &&& n).toUInt32.toNat = n.toNat % 2 ^ 32 := by
  have hand : 4294967295 &&& n.toNat = n.toNat % 2 ^ 32 := by
    rw [Nat.and_comm]
    exact Nat.and_two_pow_sub_one_eq_mod _ 32
  rw [UInt64.toNat_toUInt32, UInt64.toNat_and]
  show (4294967295 &&& n.toNat) % 2 ^ 32 = _
  rw [hand, Nat.mod_mod]

theorem toNat_highHalf (n : UInt64) :
    (((0xffffffff00000000 : UInt64) &&& n) >>> 32).toUInt32.toNat = n.toNat / 2 ^ 32 := by
  have hn := n.toNat_lt
  have hshift : (0xffffffff00000000 : Nat) >>> 32 = 4294967295 := by decide
  have hand : n.toNat / 2 ^ 32 &&& 4294967295 = n.toNat / 2 ^ 32 % 2 ^ 32 :=
    Nat.and_two_pow_sub_one_eq_mod _ 32
  rw [UInt64.toNat_toUInt32, UInt64.toNat_shiftRight, UInt64.toNat_and]
  show (0xffffffff00000000 &&& n.toNat) >>> 32 % 2 ^ 32 = _
  rw [Nat.shiftRight_and_distrib, hshift, Nat.shiftRight_eq_div_pow, Nat.and_comm, hand]
  omega

/-- Both halves of the bit length, written as eight bytes. -/
theorem length_bytes (n : UInt64) :
    let hi := (((0xffffffff00000000 : UInt64) &&& n) >>> 32).toUInt32
    let lo := ((0x00000000ffffffff : UInt64) &&& n).toUInt32
    [((0xff : UInt32) &&& lo).toUInt8, (((0xff00 : UInt32) &&& lo) >>> 8).toUInt8,
      (((0xff0000 : UInt32) &&& lo) >>> 16).toUInt8,
      (((0xff000000 : UInt32) &&& lo) >>> 24).toUInt8, ((0xff : UInt32) &&& hi).toUInt8,
      ((0xff : UInt32) &&& (hi >>> 8)).toUInt8, ((0xff : UInt32) &&& (hi >>> 16)).toUInt8,
      ((0xff : UInt32) &&& (hi >>> 24)).toUInt8] = toBytes 8 n.toNat := by
  intro hi lo
  have hlo : lo.toNat = n.toNat % 2 ^ 32 := toNat_lowHalf n
  have hhi : hi.toNat = n.toNat / 2 ^ 32 := toNat_highHalf n
  simp only [toBytes, List.cons.injEq, and_true]
  refine ⟨?_, ?_, ?_, ?_, ?_, ?_, ?_, ?_⟩
  · rw [low_byte, hlo]
    exact ofNat_congr (by omega)
  · rw [pad_byte lo 8 _ _ (by decide) rfl, hlo]
    exact ofNat_congr (by omega)
  · rw [pad_byte lo 16 _ _ (by decide) rfl, hlo]
    exact ofNat_congr (by omega)
  · rw [pad_byte lo 24 _ _ (by decide) rfl, hlo]
    exact ofNat_congr (by omega)
  · rw [low_byte, hhi]
    exact ofNat_congr (by omega)
  · rw [shifted_low_byte hi 8 8 rfl, hhi]
    exact ofNat_congr (by omega)
  · rw [shifted_low_byte hi 16 16 rfl, hhi]
    exact ofNat_congr (by omega)
  · rw [shifted_low_byte hi 24 24 rfl, hhi]
    exact ofNat_congr (by omega)

/-! ## The padded message -/

section
variable {message : List UInt8}

theorem toNat_msgSize (h : message.length < 2 ^ 64) :
    (UInt64.ofNat message.length).toNat = message.length :=
  UInt64.toNat_ofNat_of_lt' h

/-- The length is a whole number of blocks. -/
theorem length_padMessage (h : message.length + 72 < 2 ^ 64) :
    (padMessage message).length = 64 * ((message.length + 72) / 64) := by
  have hsize := @toNat_msgSize message (by omega)
  have hsurplus := @toNat_surplusBytes (UInt64.ofNat message.length) (by rwa [hsize])
  rw [hsize] at hsurplus
  show (message ++ [(0x80 : UInt8)] ++
    List.replicate (surplusBytes (UInt64.ofNat message.length)).toNat (0 : UInt8) ++ _).length = _
  rw [hsurplus]
  simp only [List.length_append, List.length_cons, List.length_nil, List.length_replicate]
  omega

theorem padMessage_eq (h : message.length < 2 ^ 61) :
    padMessage message = Rfc1321.pad message := by
  have hsize := @toNat_msgSize message (by omega)
  have hsurplus := @toNat_surplusBytes (UInt64.ofNat message.length) (by rw [hsize]; omega)
  have hbits : (UInt64.ofNat message.length * 8).toNat = 8 * message.length := by
    rw [UInt64.toNat_mul, hsize]
    show message.length * 8 % 18446744073709551616 = _
    omega
  rw [hsize] at hsurplus
  unfold padMessage Rfc1321.pad
  rw [← hsurplus, ← hbits, ← length_bytes]
  rfl

/-- **What `PadMessage` makes of a message of less than 2^61 bytes.** -/
theorem padMessage_spec (h : message.length < 2 ^ 61) :
    NoWrap (UInt64.ofNat message.length) ∧
      (∃ z < 64, padMessage message =
        message ++ [0x80] ++ List.replicate z 0 ++ toBytes 8 (8 * message.length)) ∧
      64 ∣ (padMessage message).length ∧
      ∀ message' : List UInt8, message'.length < 2 ^ 61 →
        padMessage message = padMessage message' → message = message' := by
  have hpad := padMessage_eq h
  refine ⟨noWrap ?_, ⟨_, Nat.mod_lt _ (by omega), hpad⟩, ?_, ?_⟩
  · rw [toNat_msgSize (by omega)]
    omega
  · rw [hpad]
    obtain ⟨k, hk⟩ := Rfc1321.length_pad message
    exact ⟨k, hk⟩
  · intro message' h' heq
    rw [hpad, padMessage_eq h'] at heq
    exact Rfc1321.pad_injective h h' heq

theorem padMessage_spec_mod55 :
    NoWrap (UInt64.ofNat (List.replicate 55 (0xa : UInt8)).length) ∧
      (∃ z < 64, padMessage (List.replicate 55 0xa) =
        List.replicate 55 0xa ++ [0x80] ++ List.replicate z 0 ++
          toBytes 8 (8 * (List.replicate 55 (0xa : UInt8)).length)) ∧
      64 ∣ (padMessage (List.replicate 55 0xa)).length ∧
      ∀ message' : List UInt8, message'.length < 2 ^ 61 →
        padMessage (List.replicate 55 0xa) = padMessage message' →
          List.replicate 55 0xa = message' :=
  padMessage_spec (by decide)

end

end Md5
