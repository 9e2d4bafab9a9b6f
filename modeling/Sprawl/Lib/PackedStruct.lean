import Mathlib.Data.List.GetD
import Sprawl.Lib.LittleEndian

/-!
# Fields of a packed struct

An object in memory is a list of bytes, a field an offset into it: one byte (`get8`,
`set8`), or a 32-bit word with its lowest byte first (`get32`, `set32`).  What is written
at one offset is read there (`get32_set32_self`), and nothing else changes
(`get32_set32_of_disjoint` and its like); members of a union are fields that overlap.

`swap32` reverses the bytes of a word (`htonl` on a little-endian host).
-/

namespace PackedStruct

/-! ## Words and bytes -/

/-- The byte `k` of a word, the lowest first. -/
def byte (v : UInt32) (k : Nat) : UInt8 := UInt8.ofNat (v.toNat / 256 ^ k)

/-- The word with the bytes `b₀`, …, `b₃`, the lowest first. -/
def word (b₀ b₁ b₂ b₃ : UInt8) : UInt32 := UInt32.ofNat (LittleEndian.ofBytes [b₀, b₁, b₂, b₃])

/-- The bytes in the other order. -/
def swap32 (v : UInt32) : UInt32 := word (byte v 3) (byte v 2) (byte v 1) (byte v 0)

theorem word_toNat (b₀ b₁ b₂ b₃ : UInt8) : (word b₀ b₁ b₂ b₃).toNat =
    b₀.toNat + 256 * b₁.toNat + 256 ^ 2 * b₂.toNat + 256 ^ 3 * b₃.toNat := by
  have h := LittleEndian.ofBytes_lt [b₀, b₁, b₂, b₃]
  simp only [LittleEndian.ofBytes, List.length_cons, List.length_nil] at h
  rw [word, UInt32.toNat_ofNat_of_lt']
  · simp only [LittleEndian.ofBytes]
    omega
  · simp only [LittleEndian.ofBytes]
    exact h

@[simp] theorem word_byte (v : UInt32) : word (byte v 0) (byte v 1) (byte v 2) (byte v 3) = v := by
  have hlt := v.toNat_lt
  rw [← UInt32.toNat_inj, word_toNat]
  simp only [byte, UInt8.toNat_ofNat']
  omega

theorem byte_word (b₀ b₁ b₂ b₃ : UInt8) : byte (word b₀ b₁ b₂ b₃) 0 = b₀ ∧
    byte (word b₀ b₁ b₂ b₃) 1 = b₁ ∧ byte (word b₀ b₁ b₂ b₃) 2 = b₂ ∧
    byte (word b₀ b₁ b₂ b₃) 3 = b₃ := by
  have h₀ := b₀.toNat_lt
  have h₁ := b₁.toNat_lt
  have h₂ := b₂.toNat_lt
  have h₃ := b₃.toNat_lt
  simp only [← UInt8.toNat_inj, byte, UInt8.toNat_ofNat', word_toNat]
  omega

@[simp] theorem swap32_swap32 (v : UInt32) : swap32 (swap32 v) = v := by
  obtain ⟨h₀, h₁, h₂, h₃⟩ := byte_word (byte v 3) (byte v 2) (byte v 1) (byte v 0)
  rw [swap32, swap32, h₀, h₁, h₂, h₃, word_byte]

/-! ## Fields -/

def get8 (m : List UInt8) (i : Nat) : UInt8 := m.getD i 0

def set8 (m : List UInt8) (i : Nat) (b : UInt8) : List UInt8 := m.set i b

def get32 (m : List UInt8) (i : Nat) : UInt32 :=
  word (get8 m i) (get8 m (i + 1)) (get8 m (i + 2)) (get8 m (i + 3))

def set32 (m : List UInt8) (i : Nat) (v : UInt32) : List UInt8 :=
  set8 (set8 (set8 (set8 m i (byte v 0)) (i + 1) (byte v 1)) (i + 2) (byte v 2)) (i + 3) (byte v 3)

@[simp] theorem length_set8 (m : List UInt8) (i : Nat) (b : UInt8) :
    (set8 m i b).length = m.length := List.length_set

@[simp] theorem length_set32 (m : List UInt8) (i : Nat) (v : UInt32) :
    (set32 m i v).length = m.length := by
  simp [set32]

theorem get8_set8_self {m : List UInt8} {i : Nat} (b : UInt8) (h : i < m.length) :
    get8 (set8 m i b) i = b := by
  simp [get8, set8, h]

theorem get8_set8_of_ne {m : List UInt8} {i j : Nat} (b : UInt8) (h : i ≠ j) :
    get8 (set8 m i b) j = get8 m j := by
  simp [get8, set8, List.getD_eq_getElem?_getD, List.getElem?_set_ne h]

theorem get8_set32_of_disjoint {m : List UInt8} {i j : Nat} (v : UInt32) (h : j < i ∨ i + 4 ≤ j) :
    get8 (set32 m i v) j = get8 m j := by
  unfold set32
  iterate 4 rw [get8_set8_of_ne _ (by omega)]

theorem get32_set8_of_disjoint {m : List UInt8} {i j : Nat} (b : UInt8) (h : i < j ∨ j + 4 ≤ i) :
    get32 (set8 m i b) j = get32 m j := by
  unfold get32
  iterate 4 rw [get8_set8_of_ne _ (by omega)]

theorem get32_set32_of_disjoint {m : List UInt8} {i j : Nat} (v : UInt32)
    (h : i + 4 ≤ j ∨ j + 4 ≤ i) : get32 (set32 m i v) j = get32 m j := by
  unfold get32
  iterate 4 rw [get8_set32_of_disjoint _ (by omega)]

theorem get32_set32_self {m : List UInt8} {i : Nat} (v : UInt32) (h : i + 4 ≤ m.length) :
    get32 (set32 m i v) i = v := by
  have h₃ : get8 (set32 m i v) (i + 3) = byte v 3 :=
    get8_set8_self _ (by simp only [length_set8]; omega)
  have h₂ : get8 (set32 m i v) (i + 2) = byte v 2 := by
    rw [set32, get8_set8_of_ne _ (by omega)]
    exact get8_set8_self _ (by simp only [length_set8]; omega)
  have h₁ : get8 (set32 m i v) (i + 1) = byte v 1 := by
    rw [set32, get8_set8_of_ne _ (by omega), get8_set8_of_ne _ (by omega)]
    exact get8_set8_self _ (by simp only [length_set8]; omega)
  have h₀ : get8 (set32 m i v) i = byte v 0 := by
    rw [set32, get8_set8_of_ne _ (by omega), get8_set8_of_ne _ (by omega),
      get8_set8_of_ne _ (by omega)]
    exact get8_set8_self _ (by omega)
  rw [get32, h₀, h₁, h₂, h₃, word_byte]

end PackedStruct
