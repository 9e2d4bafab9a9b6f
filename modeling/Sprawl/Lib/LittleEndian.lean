import Mathlib.Data.Nat.Bitwise
import Mathlib.Tactic.Ring

/-!
# Little-endian bytes

`ofBytes` reads a list of bytes as a number, lowest byte first; `toBytes` writes
the lowest bytes of a number.  The rest is how programs do it with masks, shifts
and ors: `mask_shift` picks a byte out, `or_shift` puts one on top.
-/

namespace LittleEndian

/-- The number the bytes write. -/
def ofBytes : List UInt8 → Nat
  | [] => 0
  | b :: bs => b.toNat + 256 * ofBytes bs

/-- The lowest `k` bytes of a number. -/
def toBytes : Nat → Nat → List UInt8
  | 0, _ => []
  | k + 1, n => UInt8.ofNat n :: toBytes k (n / 256)

@[simp] theorem length_toBytes (k n : Nat) : (toBytes k n).length = k := by
  induction k generalizing n with
  | zero => rfl
  | succ k ih => rw [toBytes, List.length_cons, ih]

theorem ofBytes_toBytes (k n : Nat) (h : n < 256 ^ k) : ofBytes (toBytes k n) = n := by
  induction k generalizing n with
  | zero =>
    rw [Nat.pow_zero, Nat.lt_one_iff] at h
    rw [h]
    rfl
  | succ k ih =>
    have hdiv : n / 256 < 256 ^ k := by
      rw [Nat.div_lt_iff_lt_mul (by omega), ← Nat.pow_succ]
      exact h
    rw [toBytes, ofBytes, ih _ hdiv, UInt8.toNat_ofNat']
    omega

theorem toBytes_ofBytes (bs : List UInt8) : toBytes bs.length (ofBytes bs) = bs := by
  induction bs with
  | nil => rfl
  | cons b bs ih =>
    have hb := b.toNat_lt
    have hdiv : (b.toNat + 256 * ofBytes bs) / 256 = ofBytes bs := by omega
    have hlow : UInt8.ofNat (b.toNat + 256 * ofBytes bs) = b := by
      rw [← UInt8.toNat_inj, UInt8.toNat_ofNat']
      omega
    rw [List.length_cons, ofBytes, toBytes, hdiv, hlow, ih]

theorem toBytes_inj {k m n : Nat} (hm : m < 256 ^ k) (hn : n < 256 ^ k)
    (h : toBytes k m = toBytes k n) : m = n := by
  rw [← ofBytes_toBytes k m hm, h, ofBytes_toBytes k n hn]

theorem ofBytes_lt (bs : List UInt8) : ofBytes bs < 256 ^ bs.length := by
  induction bs with
  | nil => simp [ofBytes]
  | cons b bs ih =>
    have hb := b.toNat_lt
    rw [ofBytes, List.length_cons, Nat.pow_succ]
    omega

/-- A byte picked out by a mask and a shift. -/
theorem mask_shift (n k : Nat) : (n &&& (255 <<< k)) >>> k = n / 2 ^ k % 256 := by
  rw [Nat.shiftRight_and_distrib, Nat.shiftLeft_shiftRight, Nat.shiftRight_eq_div_pow]
  exact Nat.and_two_pow_sub_one_eq_mod _ 8

/-- A number put on top of the lowest `k` bits. -/
theorem or_shift {a k : Nat} (h : a < 2 ^ k) (b : Nat) : a ||| (b * 2 ^ k) = a + b * 2 ^ k := by
  rw [Nat.or_comm, ← Nat.shiftLeft_eq, ← Nat.shiftLeft_add_eq_or_of_lt h, Nat.add_comm]

/-- A byte put below a word. -/
theorem toNat_shiftLeft_or (word : UInt64) {b : UInt64} (hb : b.toNat < 256) :
    (word <<< 8 ||| b).toNat = (word.toNat * 256 + b.toNat) % 2 ^ 64 := by
  have hshift : (word <<< 8).toNat = word.toNat % 2 ^ 56 * 2 ^ 8 := by
    rw [UInt64.toNat_shiftLeft]
    show word.toNat <<< 8 % 2 ^ 64 = _
    rw [Nat.shiftLeft_eq]
    omega
  rw [UInt64.toNat_or, hshift, Nat.or_comm, or_shift (show b.toNat < 2 ^ 8 from hb)]
  omega

/-- A byte shifted within `w` bits. -/
theorem shifted_lt (b : UInt8) {k w : Nat} (h : k + 8 ≤ w) : b.toNat * 2 ^ k < 2 ^ w :=
  calc b.toNat * 2 ^ k < 2 ^ 8 * 2 ^ k :=
        Nat.mul_lt_mul_of_pos_right b.toNat_lt (Nat.two_pow_pos k)
    _ = 2 ^ (k + 8) := by rw [← Nat.pow_add, Nat.add_comm]
    _ ≤ 2 ^ w := Nat.pow_le_pow_right (by omega) h

theorem ofBytes_concat (bs : List UInt8) (b : UInt8) :
    ofBytes (bs ++ [b]) = ofBytes bs + b.toNat * 2 ^ (8 * bs.length) := by
  induction bs with
  | nil => simp [ofBytes]
  | cons c bs ih =>
    rw [List.cons_append, ofBytes, ofBytes, ih, List.length_cons]
    ring

/-- One more byte put on top. -/
theorem or_ofBytes (bs : List UInt8) (b : UInt8) :
    ofBytes bs ||| b.toNat * 2 ^ (8 * bs.length) = ofBytes (bs ++ [b]) := by
  have hlt : ofBytes bs < 2 ^ (8 * bs.length) := by
    rw [Nat.pow_mul]
    exact ofBytes_lt bs
  rw [or_shift hlt, ofBytes_concat]

end LittleEndian
