import Sprawl.Md5.Padding

/-!
# `Digest` is MD5

The 64 lines of a block are `line 0` to `line 63` (`rounds_eq`): line `k` calls the
registers by names that turn with `k`, where the table's steps turn the registers
themselves.  So after `k` lines the table holds what the lines hold, read under the
names of line `k` (`steps_lines`).  Around it stand the words of a block
(`extractChunk_words`) and the block loop (`reach_blocks`).
-/

namespace Md5

open Cxx Loop LittleEndian

/-! ## One line -/

def regAt : Nat → Reg
  | 0 => .a
  | 1 => .b
  | 2 => .c
  | _ => .d

/-- The register in place `j` of line `k`. -/
def place (k j : Nat) : Reg := regAt ((j + 3 * (k % 4)) % 4)

def roundFn (k : Nat) : UInt32 → UInt32 → UInt32 → UInt32 :=
  match k / 16 with
  | 0 => F
  | 1 => G
  | 2 => H
  | _ => I

/-- Line `k` of a block. -/
def line (x : Vector UInt32 16) (k : Nat) : Regs → Regs :=
  apply (roundFn k) (place k 0) (place k 1) (place k 2) (place k 3)
    x[Fin.ofNat 16 (Rfc1321.wordIndex k)] (UInt32.ofNat (Rfc1321.shift k)) (kSine.getD k 0)

set_option maxRecDepth 10000 in
theorem rounds_eq (x : Vector UInt32 16) : rounds x = (List.range 64).map (line x) := rfl

theorem roundFn_toBitVec (k : Nat) (x y z : UInt32) :
    (roundFn k x y z).toBitVec = Rfc1321.f k x.toBitVec y.toBitVec z.toBitVec := by
  unfold roundFn Rfc1321.f
  match k / 16 with
  | 0 => rfl
  | 1 => rfl
  | 2 => rfl
  | _ + 3 => rfl

theorem shift_range (k : Nat) : 0 < Rfc1321.shift k ∧ Rfc1321.shift k < 32 := by
  unfold Rfc1321.shift
  split <;> decide

theorem leftRotate_toBitVec (v : UInt32) {s : Nat} (h0 : 0 < s) (h : s < 32) :
    (leftRotate v (UInt32.ofNat s)).toBitVec = v.toBitVec.rotateLeft s := by
  have hs : ((UInt32.ofNat s).toBitVec % 32 : BitVec 32).toNat = s := by
    show s % 2 ^ 32 % 32 = s
    omega
  have hs' : ((32 - UInt32.ofNat s).toBitVec % 32 : BitVec 32).toNat = 32 - s := by
    show (2 ^ 32 - s % 2 ^ 32 + 32) % 2 ^ 32 % 32 = 32 - s
    omega
  unfold leftRotate
  rw [UInt32.toBitVec_or, UInt32.toBitVec_shiftLeft, UInt32.toBitVec_shiftRight,
    BitVec.shiftLeft_eq', BitVec.ushiftRight_eq', hs, hs', BitVec.rotateLeft_def,
    Nat.mod_eq_of_lt h]

/-- What the table holds after `k` steps. -/
def chainOf (k : Nat) (regs : Regs) : Rfc1321.Chain where
  A := (regs.get (place k 0)).toBitVec
  B := (regs.get (place k 1)).toBitVec
  C := (regs.get (place k 2)).toBitVec
  D := (regs.get (place k 3)).toBitVec

/-- The table `T` and the words of a block, as the reference reads them. -/
def sineTable (i : Nat) : Rfc1321.Word := (kSine.getD i 0).toBitVec

def blockWords (x : Vector UInt32 16) (j : Nat) : Rfc1321.Word := x[Fin.ofNat 16 j].toBitVec

theorem place_succ (k : Nat) : place (k + 1) 0 = place k 3 ∧ place (k + 1) 1 = place k 0 ∧
    place (k + 1) 2 = place k 1 ∧ place (k + 1) 3 = place k 2 := by
  have h0 : (0 + 3 * ((k + 1) % 4)) % 4 = (3 + 3 * (k % 4)) % 4 := by omega
  have h1 : (1 + 3 * ((k + 1) % 4)) % 4 = (0 + 3 * (k % 4)) % 4 := by omega
  have h2 : (2 + 3 * ((k + 1) % 4)) % 4 = (1 + 3 * (k % 4)) % 4 := by omega
  have h3 : (3 + 3 * ((k + 1) % 4)) % 4 = (2 + 3 * (k % 4)) % 4 := by omega
  unfold place
  rw [h0, h1, h2, h3]
  exact ⟨rfl, rfl, rfl, rfl⟩

theorem place_ne (k : Nat) : place k 1 ≠ place k 0 ∧ place k 2 ≠ place k 0 ∧
    place k 3 ≠ place k 0 := by
  have hall : ∀ r < 4, regAt ((1 + 3 * r) % 4) ≠ regAt ((0 + 3 * r) % 4) ∧
      regAt ((2 + 3 * r) % 4) ≠ regAt ((0 + 3 * r) % 4) ∧
      regAt ((3 + 3 * r) % 4) ≠ regAt ((0 + 3 * r) % 4) := by decide
  exact hall (k % 4) (Nat.mod_lt k (by omega))

/-- A line is a step of the table. -/
theorem chainOf_line (x : Vector UInt32 16) (k : Nat) (regs : Regs) :
    chainOf (k + 1) (line x k regs) =
      Rfc1321.step sineTable (blockWords x) (chainOf k regs) k := by
  obtain ⟨h0, h1, h2, h3⟩ := place_succ k
  obtain ⟨hb, hc, hd⟩ := place_ne k
  obtain ⟨hlow, hhigh⟩ := shift_range k
  unfold chainOf line apply Rfc1321.step
  simp only [h0, h1, h2, h3, Regs.get_set, if_neg hb, if_neg hc, if_neg hd, if_true,
    UInt32.toBitVec_add, leftRotate_toBitVec _ hlow hhigh, roundFn_toBitVec]
  congr 1
  rw [BitVec.add_comm]
  congr 2
  simp only [blockWords, sineTable, BitVec.add_assoc]

theorem steps_lines (x : Vector UInt32 16) (regs : Regs) :
    chainOf 64 ((rounds x).foldl (fun regs line => line regs) regs) =
      Rfc1321.steps sineTable (blockWords x) (chainOf 0 regs) := by
  have h : ∀ k, chainOf k ((List.range k).foldl (fun regs k => line x k regs) regs) =
      (List.range k).foldl (Rfc1321.step sineTable (blockWords x)) (chainOf 0 regs) := by
    intro k
    induction k with
    | zero => rfl
    | succ k ih =>
      rw [List.range_succ, List.foldl_append, List.foldl_append, List.foldl_cons, List.foldl_nil,
        List.foldl_cons, List.foldl_nil, ← ih, chainOf_line]
  rw [rounds_eq, List.foldl_map]
  exact h 64

/-! ## The words of a block -/

/-- A byte shifted into its place in a word. -/
theorem shifted_byte (m : UInt8) (s : UInt32) (hs : s.toNat ≤ 24) :
    (m.toUInt32 <<< s).toNat = m.toNat * 2 ^ s.toNat := by
  have hlt : m.toNat * 2 ^ s.toNat < 2 ^ 32 := shifted_lt m (by omega)
  rw [UInt32.toNat_shiftLeft, UInt8.toNat_toUInt32, Nat.mod_eq_of_lt (show s.toNat < 32 by omega),
    Nat.shiftLeft_eq, Nat.mod_eq_of_lt hlt]

theorem word_toNat (m0 m1 m2 m3 : UInt8) :
    m0.toUInt32 ||| m1.toUInt32 <<< 8 ||| m2.toUInt32 <<< 16 ||| m3.toUInt32 <<< 24 =
      UInt32.ofNat (ofBytes [m0, m1, m2, m3]) := by
  have hlt : ofBytes [m0, m1, m2, m3] < 256 ^ 4 := ofBytes_lt [m0, m1, m2, m3]
  have h0 : m0.toUInt32.toNat = ofBytes [m0] := by simp [ofBytes]
  have h1 : ofBytes [m0] ||| m1.toNat * 2 ^ 8 = ofBytes [m0, m1] := or_ofBytes [m0] m1
  have h2 : ofBytes [m0, m1] ||| m2.toNat * 2 ^ 16 = ofBytes [m0, m1, m2] := or_ofBytes [m0, m1] m2
  have h3 : ofBytes [m0, m1, m2] ||| m3.toNat * 2 ^ 24 = ofBytes [m0, m1, m2, m3] :=
    or_ofBytes [m0, m1, m2] m3
  have s1 : (m1.toUInt32 <<< 8).toNat = m1.toNat * 2 ^ 8 := shifted_byte m1 8 (by decide)
  have s2 : (m2.toUInt32 <<< 16).toNat = m2.toNat * 2 ^ 16 := shifted_byte m2 16 (by decide)
  have s3 : (m3.toUInt32 <<< 24).toNat = m3.toNat * 2 ^ 24 := shifted_byte m3 24 (by decide)
  rw [← UInt32.toNat_inj, UInt32.toNat_ofNat_of_lt' (Nat.lt_of_lt_of_eq hlt rfl),
    UInt32.toNat_or, UInt32.toNat_or,
    UInt32.toNat_or, h0, s1, s2, s3, h1, h2, h3]

/-- The bytes at `i` to `i + 3`. -/
theorem take_drop_four {message : List UInt8} {i : Nat} (h : i + 4 ≤ message.length) :
    ∃ m0 m1 m2 m3, (message.drop i).take 4 = [m0, m1, m2, m3] ∧ readAt message (i + 0) = .ok m0 ∧
      readAt message (i + 1) = .ok m1 ∧ readAt message (i + 2) = .ok m2 ∧
      readAt message (i + 3) = .ok m3 := by
  have hread : ∀ j (hj : j < message.length), readAt message j = .ok message[j] := by
    intro j hj
    rw [readAt_eq_ok, List.getElem?_eq_getElem hj]
  refine ⟨_, _, _, _, ?_, hread _ (by omega), hread _ (by omega), hread _ (by omega),
    hread _ (by omega)⟩
  rw [List.drop_eq_getElem_cons (by omega), List.drop_eq_getElem_cons (by omega),
    List.drop_eq_getElem_cons (by omega), List.drop_eq_getElem_cons (by omega)]
  rfl

/-- Word `j` of the block at `start`. -/
def wordOf (message : List UInt8) (start j : Nat) : UInt32 :=
  UInt32.ofNat (ofBytes ((message.drop (start + 4 * j)).take 4))

theorem extractChunk_words {message : List UInt8} {start : Nat}
    (h : start + 64 ≤ message.length) (chunk : Vector UInt32 16) :
    ∃ x, extractChunk message start (start + 64) 0 chunk = .ok x ∧
      ∀ j (hj : j < 16), x[j] = wordOf message start j := by
  -- from turn `count` on, with the words before it in place
  have hturn : ∀ n count (chunk : Vector UInt32 16), count + n = 16 →
      (∀ j (hj : j < 16), j < count → chunk[j] = wordOf message start j) →
      ∃ x, extractChunk message (start + 4 * count) (start + 64) count chunk = .ok x ∧
        ∀ j (hj : j < 16), x[j] = wordOf message start j := by
    intro n
    induction n with
    | zero =>
      intro count chunk hcount hdone
      refine ⟨chunk, ?_, fun j hj => hdone j hj (by omega)⟩
      rw [extractChunk, if_neg (by omega)]
    | succ n ih =>
      intro count chunk hcount hdone
      obtain ⟨m0, m1, m2, m3, htake, hr0, hr1, hr2, hr3⟩ :=
        @take_drop_four message (start + 4 * count) (by omega)
      obtain ⟨x, hx, hwords⟩ := ih (count + 1)
        (chunk.set count (wordOf message start count) (by omega)) (by omega) (by
          intro j hj hlt
          rw [Vector.getElem_set]
          split
          · next he => rw [he]
          · next hne => exact hdone j hj (by omega))
      refine ⟨x, ?_, hwords⟩
      have hword : m0.toUInt32 ||| m1.toUInt32 <<< 8 ||| m2.toUInt32 <<< 16 ||| m3.toUInt32 <<< 24 =
          wordOf message start count := by
        rw [word_toNat, wordOf, htake]
      have hnext : start + 4 * count + 4 = start + 4 * (count + 1) := by omega
      rw [extractChunk, if_pos (by omega), hr0, hr1, hr2, hr3]
      simp only [ok_bind, hword, hnext]
      rw [dif_pos (by omega), hx]
  exact hturn 16 0 chunk rfl (fun j _ hj => absurd hj (Nat.not_lt_zero j))

theorem blockWords_eq {message : List UInt8} {start : Nat} {x : Vector UInt32 16}
    (h : ∀ j (hj : j < 16), x[j] = wordOf message start j) {j : Nat} (hj : j < 16) :
    blockWords x j = Rfc1321.word message start j := by
  have hmod : j % 16 = j := Nat.mod_eq_of_lt hj
  unfold blockWords
  show (x[j % 16]).toBitVec = _
  simp only [hmod, h j hj]
  rfl

/-! ## The block loop -/

/-- The registers of the loop as the reference has them. -/
def DigestState.chain (s : DigestState) : Rfc1321.Chain :=
  ⟨s.A0.toBitVec, s.B0.toBitVec, s.C0.toBitVec, s.D0.toBitVec⟩

/-- One turn is one block. -/
theorem digestBody_block {padded : List UInt8} {s : DigestState} {k : Nat}
    (hfit : padded.length < 2 ^ 32) (hi : s.i.toNat = 64 * k) (hk : 64 * (k + 1) ≤ padded.length) :
    ∃ s', digestBody padded s = .again s' ∧ s'.i.toNat = 64 * (k + 1) ∧
      (∀ j (hj : j < 16), s'.x[j] = wordOf padded (64 * k) j) ∧
      s'.chain = Rfc1321.block sineTable s.chain (Rfc1321.word padded (64 * k)) := by
  have hnext : (s.i + 64).toNat = 64 * (k + 1) := by
    rw [UInt32.toNat_add, hi]
    show (64 * k + 64) % 4294967296 = _
    omega
  have hstop : 64 * (k + 1) = 64 * k + 64 := by omega
  obtain ⟨x, hx, hwords⟩ := @extractChunk_words padded (64 * k) (by omega) s.x
  have hsteps : chainOf 64 ((rounds x).foldl (fun regs line => line regs) s.regs) =
      Rfc1321.steps sineTable (Rfc1321.word padded (64 * k)) s.chain := by
    rw [steps_lines, Rfc1321.steps_congr fun j hj => blockWords_eq hwords hj]
    rfl
  have hbody : ∃ s', digestBody padded s = .again s' ∧ s'.i = s.i + 64 ∧ s'.x = x ∧
      s'.chain = Rfc1321.block sineTable s.chain (Rfc1321.word padded (64 * k)) := by
    unfold digestBody Rfc1321.block
    rw [if_pos (by omega), hnext, hstop, hi, hx, ← hsteps]
    exact ⟨_, rfl, rfl, rfl, rfl⟩
  obtain ⟨s', hs', hi', rfl, hchain⟩ := hbody
  exact ⟨s', hs', by rw [hi', hnext], hwords, hchain⟩

theorem reach_blocks {padded : List UInt8} (hfit : padded.length < 2 ^ 32) :
    ∀ k, 64 * k ≤ padded.length → ∃ s, Reach (digestBody padded) {} s ∧ s.i.toNat = 64 * k ∧
      s.chain = (List.range k).foldl
        (fun c k => Rfc1321.block sineTable c (Rfc1321.word padded (64 * k))) .init := by
  intro k
  induction k with
  | zero => exact fun _ => ⟨{}, .refl _, rfl, rfl⟩
  | succ k ih =>
    intro hk
    obtain ⟨s, hreach, hi, hchain⟩ := ih (by omega)
    obtain ⟨s', hturn, hi', -, hchain'⟩ := digestBody_block hfit hi hk
    refine ⟨s', hreach.trans (.single hturn), hi', ?_⟩
    rw [hchain', hchain, List.range_succ, List.foldl_append]
    rfl

/-! ## The text -/

theorem hex02_byte : ∀ b < 256, hex02 (UInt32.ofNat b) = Rfc1321.hexByte (UInt8.ofNat b) := by
  decide +kernel

theorem wordToString_bytes (w : UInt32) :
    wordToString w = (toBytes 4 w.toNat).flatMap Rfc1321.hexByte := by
  have hbyte : ∀ (mask s : UInt32) (k : Nat), mask.toNat = 255 <<< k → s.toNat % 32 = k →
      hex02 ((w &&& mask) >>> s) = Rfc1321.hexByte (UInt8.ofNat (w.toNat / 2 ^ k)) := by
    intro mask s k hmask hs
    have hval : (w &&& mask) >>> s = UInt32.ofNat (w.toNat / 2 ^ k % 256) := by
      rw [← UInt32.toNat_inj, UInt32.toNat_shiftRight, UInt32.toNat_and, hmask, hs, mask_shift,
        UInt32.toNat_ofNat']
      omega
    rw [hval, hex02_byte _ (Nat.mod_lt _ (by omega)), ofNat_congr (Nat.mod_mod _ _)]
  have h0 : w &&& (0x000000ff : UInt32) = (w &&& (0x000000ff : UInt32)) >>> 0 :=
    UInt32.shiftRight_zero.symm
  unfold wordToString
  rw [h0, hbyte _ 0 0 (by decide) rfl, hbyte _ 8 8 (by decide) rfl, hbyte _ 16 16 (by decide) rfl,
    hbyte _ 24 24 (by decide) rfl]
  simp only [toBytes, List.flatMap_cons, List.flatMap_nil, List.append_nil, List.append_assoc,
    Nat.div_div_eq_div_mul, Nat.pow_zero, Nat.div_one]
  rfl

/-- **`Digest` and `DigestToString` are MD5.** -/
theorem digest_correct (message : List UInt8) (h : (padMessage message).length < 2 ^ 32) :
    ∃ d, Digest message (.ok d) ∧ digestToString d = Rfc1321.hexDigest sineTable message := by
  have hlen : message.length < 2 ^ 61 := by
    have hle : message.length ≤ (padMessage message).length := by
      unfold padMessage
      simp only [List.length_append]
      omega
    omega
  have hpad := padMessage_eq hlen
  obtain ⟨n, hn⟩ := Rfc1321.length_pad message
  rw [hpad] at h
  obtain ⟨s, hreach, hi, hchain⟩ := reach_blocks h n (by omega)
  have hdone : digestBody (Rfc1321.pad message) s = .done (.ok #v[s.A0, s.B0, s.C0, s.D0]) := by
    unfold digestBody
    rw [if_neg (by omega)]
  refine ⟨#v[s.A0, s.B0, s.C0, s.D0], ?_, ?_⟩
  · unfold Digest
    rw [hpad]
    exact hreach.returns_iff.2 (returns_of_done hdone)
  · have hdigest : Rfc1321.digest sineTable message = s.chain := by
      unfold Rfc1321.digest
      rw [hn, Nat.mul_div_cancel_left n (by omega), hchain]
    unfold digestToString Rfc1321.hexDigest Rfc1321.Chain.bytes
    rw [hdigest]
    simp only [List.flatMap_append, wordToString_bytes]
    rfl

theorem digest_correct_abc : ∃ d, Digest "abc".toUTF8.toList (.ok d) ∧
    digestToString d = Rfc1321.hexDigest sineTable "abc".toUTF8.toList :=
  digest_correct "abc".toUTF8.toList (by decide +kernel)

end Md5
