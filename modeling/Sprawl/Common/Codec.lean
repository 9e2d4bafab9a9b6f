import Sprawl.Lib.Cxx
import Sprawl.Lib.LittleEndian

/-!
# 64-bit numbers as bytes (`common/codec.cc`)

`encodeU64LE` appends the eight bytes of a number, lowest first, and `decodeU64LE`
reads eight bytes at a cursor: `decode_encode` for what `encodeU64LE` wrote, with
anything in front of it and behind it, `encode_decode` for the other way round.
-/

namespace Codec

open Cxx LittleEndian

inductive Result
  | Ok | Error
deriving DecidableEq, Repr

def encodeU64LE (x : UInt64) (vec : List UInt8) : Result × List UInt8 :=
  (.Ok, vec ++
    [ (x &&& 0xff).toUInt8,
      ((x &&& 0xff00) >>> 8).toUInt8,
      ((x &&& 0xff0000) >>> 16).toUInt8,
      ((x &&& 0xff000000) >>> 24).toUInt8,
      ((x &&& 0xff00000000) >>> 32).toUInt8,
      ((x &&& 0xff0000000000) >>> 40).toUInt8,
      ((x &&& 0xff000000000000) >>> 48).toUInt8,
      ((x &&& 0xff00000000000000) >>> 56).toUInt8 ])

/-- `DecodeU64LE` on the bytes of an object from `cursor` on. -/
def decodeU64LE (memory : List UInt8) (cursor : Nat) : Except Stop (Result × UInt64) := do
  let b0 ← readAt memory cursor
  let b1 ← readAt memory (cursor + 1)
  let b2 ← readAt memory (cursor + 2)
  let b3 ← readAt memory (cursor + 3)
  let b4 ← readAt memory (cursor + 4)
  let b5 ← readAt memory (cursor + 5)
  let b6 ← readAt memory (cursor + 6)
  let b7 ← readAt memory (cursor + 7)
  return (.Ok, b0.toUInt64 ||| b1.toUInt64 <<< 8 ||| b2.toUInt64 <<< 16 ||| b3.toUInt64 <<< 24 |||
    b4.toUInt64 <<< 32 ||| b5.toUInt64 <<< 40 ||| b6.toUInt64 <<< 48 ||| b7.toUInt64 <<< 56)

/-! ## The bytes -/

/-- A byte of the mask, shifted down. -/
theorem masked_byte {x mask : UInt64} (k : Nat) (hk : k < 64) (hmask : mask.toNat = 255 <<< k) :
    ((x &&& mask) >>> k.toUInt64).toUInt8 = UInt8.ofNat (x.toNat / 2 ^ k) := by
  have hshift : k.toUInt64.toNat % 64 = k := by
    simp [Nat.mod_eq_of_lt hk]
  rw [← UInt8.toNat_inj, UInt64.toNat_toUInt8, UInt64.toNat_shiftRight, UInt64.toNat_and, hmask,
    hshift, mask_shift, UInt8.toNat_ofNat', Nat.mod_mod]

theorem encode_eq (x : UInt64) (vec : List UInt8) :
    (encodeU64LE x vec).2 = vec ++ toBytes 8 x.toNat := by
  have h0 : (x &&& 0xff).toUInt8 = UInt8.ofNat (x.toNat / 2 ^ 0) := by
    have h := @masked_byte x 0xff 0 (by decide) rfl
    rwa [show (0 : Nat).toUInt64 = 0 from rfl, UInt64.shiftRight_zero] at h
  have h1 : ((x &&& 0xff00) >>> 8).toUInt8 = _ := masked_byte 8 (by decide) rfl
  have h2 : ((x &&& 0xff0000) >>> 16).toUInt8 = _ := masked_byte 16 (by decide) rfl
  have h3 : ((x &&& 0xff000000) >>> 24).toUInt8 = _ := masked_byte 24 (by decide) rfl
  have h4 : ((x &&& 0xff00000000) >>> 32).toUInt8 = _ := masked_byte 32 (by decide) rfl
  have h5 : ((x &&& 0xff0000000000) >>> 40).toUInt8 = _ := masked_byte 40 (by decide) rfl
  have h6 : ((x &&& 0xff000000000000) >>> 48).toUInt8 = _ := masked_byte 48 (by decide) rfl
  have h7 : ((x &&& 0xff00000000000000) >>> 56).toUInt8 = _ := masked_byte 56 (by decide) rfl
  unfold encodeU64LE
  rw [h0, h1, h2, h3, h4, h5, h6, h7]
  simp only [toBytes, Nat.div_div_eq_div_mul, Nat.pow_zero, Nat.div_one]
  rfl

/-- A byte shifted into its place. -/
theorem shifted_byte (b : UInt8) (s : UInt64) (hs : s.toNat ≤ 56) :
    (b.toUInt64 <<< s).toNat = b.toNat * 2 ^ s.toNat := by
  have hlt : b.toNat * 2 ^ s.toNat < 2 ^ 64 := shifted_lt b (by omega)
  rw [UInt64.toNat_shiftLeft, UInt8.toNat_toUInt64, Nat.mod_eq_of_lt (show s.toNat < 64 by omega),
    Nat.shiftLeft_eq, Nat.mod_eq_of_lt hlt]

theorem word_toNat (b0 b1 b2 b3 b4 b5 b6 b7 : UInt8) :
    b0.toUInt64 ||| b1.toUInt64 <<< 8 ||| b2.toUInt64 <<< 16 ||| b3.toUInt64 <<< 24 |||
        b4.toUInt64 <<< 32 ||| b5.toUInt64 <<< 40 ||| b6.toUInt64 <<< 48 ||| b7.toUInt64 <<< 56 =
      UInt64.ofNat (ofBytes [b0, b1, b2, b3, b4, b5, b6, b7]) := by
  have hlt : ofBytes [b0, b1, b2, b3, b4, b5, b6, b7] < 256 ^ 8 := ofBytes_lt _
  have h0 : b0.toUInt64.toNat = ofBytes [b0] := by simp [ofBytes]
  have s1 : (b1.toUInt64 <<< 8).toNat = b1.toNat * 2 ^ 8 := shifted_byte b1 8 (by decide)
  have s2 : (b2.toUInt64 <<< 16).toNat = b2.toNat * 2 ^ 16 := shifted_byte b2 16 (by decide)
  have s3 : (b3.toUInt64 <<< 24).toNat = b3.toNat * 2 ^ 24 := shifted_byte b3 24 (by decide)
  have s4 : (b4.toUInt64 <<< 32).toNat = b4.toNat * 2 ^ 32 := shifted_byte b4 32 (by decide)
  have s5 : (b5.toUInt64 <<< 40).toNat = b5.toNat * 2 ^ 40 := shifted_byte b5 40 (by decide)
  have s6 : (b6.toUInt64 <<< 48).toNat = b6.toNat * 2 ^ 48 := shifted_byte b6 48 (by decide)
  have s7 : (b7.toUInt64 <<< 56).toNat = b7.toNat * 2 ^ 56 := shifted_byte b7 56 (by decide)
  have htop : ∀ (bs : List UInt8) (b : UInt8) (k : Nat), k = 8 * bs.length →
      ofBytes bs ||| b.toNat * 2 ^ k = ofBytes (bs ++ [b]) := by
    intro bs b k hk
    rw [hk, or_ofBytes]
  rw [← UInt64.toNat_inj, UInt64.toNat_ofNat_of_lt' (Nat.lt_of_lt_of_eq hlt rfl)]
  simp only [UInt64.toNat_or, s1, s2, s3, s4, s5, s6, s7, h0]
  rw [htop _ _ 8 rfl, htop _ _ 16 rfl, htop _ _ 24 rfl, htop _ _ 32 rfl, htop _ _ 40 rfl,
    htop _ _ 48 rfl, htop _ _ 56 rfl]
  rfl

/-! ## Reading -/

/-- Eight bytes, wherever they stand. -/
theorem decode_bytes (pre post : List UInt8) {bs : List UInt8} (hbs : bs.length = 8) :
    decodeU64LE (pre ++ bs ++ post) pre.length = .ok (.Ok, UInt64.ofNat (ofBytes bs)) := by
  have hread : ∀ (i : Nat) b, bs[i]? = some b →
      readAt (pre ++ bs ++ post) (pre.length + i) = .ok b := by
    intro i b hb
    have hi := (List.getElem?_eq_some_iff.1 hb).1
    rw [readAt_eq_ok, List.append_assoc, List.getElem?_append_right (Nat.le_add_right _ _),
      Nat.add_sub_cancel_left, List.getElem?_append_left hi, hb]
  obtain ⟨b0, b1, b2, b3, b4, b5, b6, b7, rfl⟩ :
      ∃ b0 b1 b2 b3 b4 b5 b6 b7, bs = [b0, b1, b2, b3, b4, b5, b6, b7] := by
    match bs, hbs with
    | [b0, b1, b2, b3, b4, b5, b6, b7], _ => exact ⟨b0, b1, b2, b3, b4, b5, b6, b7, rfl⟩
  have h0 := hread 0 b0 rfl
  rw [Nat.add_zero] at h0
  unfold decodeU64LE
  simp only [h0, hread 1 b1 rfl, hread 2 b2 rfl, hread 3 b3 rfl, hread 4 b4 rfl,
    hread 5 b5 rfl, hread 6 b6 rfl, hread 7 b7 rfl, ok_bind]
  rw [← word_toNat]
  rfl

/-- Fewer than eight bytes from the cursor on. -/
theorem decode_short {memory : List UInt8} {cursor : Nat} (h : memory.length < cursor + 8) :
    decodeU64LE memory cursor = .error (.undefined .outOfBounds) := by
  unfold decodeU64LE
  iterate 7 refine readAt_bind_outOfBounds fun _ => ?_
  rw [readAt_outOfBounds (by omega)]
  rfl

/-- **What `EncodeU64LE` wrote, `DecodeU64LE` reads.** -/
theorem decode_encode (x : UInt64) (vec post : List UInt8) :
    decodeU64LE ((encodeU64LE x vec).2 ++ post) vec.length = .ok (.Ok, x) := by
  rw [encode_eq, decode_bytes vec post (length_toBytes 8 _), ofBytes_toBytes 8 _ x.toNat_lt,
    UInt64.ofNat_toNat]

/-- What `DecodeU64LE` read, `EncodeU64LE` writes back. -/
theorem encode_decode {bs : List UInt8} (hbs : bs.length = 8) (vec : List UInt8) :
    (encodeU64LE (UInt64.ofNat (ofBytes bs)) vec).2 = vec ++ bs := by
  have hlt : ofBytes bs < UInt64.size := by
    have h := ofBytes_lt bs
    rw [hbs] at h
    exact h
  rw [encode_eq, UInt64.toNat_ofNat_of_lt' hlt, ← hbs, toBytes_ofBytes]

/-- **`EncodeU64LE` and `DecodeU64LE` are inverse to each other**, in the middle of any
larger buffer: eight bytes are appended, which read back as the number, and any eight
bytes are those of the number they read as. -/
theorem encode_decode_inverse (x : UInt64) (vec post : List UInt8) :
    (∃ bs : List UInt8, bs.length = 8 ∧ encodeU64LE x vec = (.Ok, vec ++ bs)) ∧
      decodeU64LE ((encodeU64LE x vec).2 ++ post) vec.length = .ok (.Ok, x) ∧
      ∀ (pre bs rest : List UInt8), bs.length = 8 →
        ∃ y, decodeU64LE (pre ++ bs ++ rest) pre.length = .ok (.Ok, y) ∧
          encodeU64LE y vec = (.Ok, vec ++ bs) := by
  refine ⟨⟨toBytes 8 x.toNat, length_toBytes 8 _, ?_⟩, decode_encode x vec post, ?_⟩
  · exact Prod.ext rfl (encode_eq x vec)
  · intro pre bs rest hbs
    refine ⟨UInt64.ofNat (ofBytes bs), decode_bytes pre rest hbs, ?_⟩
    exact Prod.ext rfl (encode_decode hbs vec)

end Codec
