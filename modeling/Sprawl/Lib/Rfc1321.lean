import Sprawl.Lib.LittleEndian

/-!
# MD5 by the table

The digest as the 64-step definition gives it: step `i` takes the word `wordIndex i`,
the shift `shift i` and the constant `T i`, applies the function of its round and
turns the four registers; a block adds the result to the registers it started from,
and the digest folds the blocks of the padded message.
-/

namespace Rfc1321

open LittleEndian

abbrev Word := BitVec 32

/-- The four registers. -/
structure Chain where
  A : Word
  B : Word
  C : Word
  D : Word
deriving DecidableEq

def Chain.init : Chain := ⟨0x67452301, 0xefcdab89, 0x98badcfe, 0x10325476⟩

/-- The functions F, G, H and I of the rounds. -/
def f (i : Nat) (x y z : Word) : Word :=
  match i / 16 with
  | 0 => (x &&& y) ||| (~~~x &&& z)
  | 1 => (x &&& z) ||| (y &&& ~~~z)
  | 2 => x ^^^ y ^^^ z
  | _ => y ^^^ (x ||| ~~~z)

def wordIndex (i : Nat) : Nat :=
  match i / 16 with
  | 0 => i % 16
  | 1 => (5 * i + 1) % 16
  | 2 => (3 * i + 5) % 16
  | _ => 7 * i % 16

def shift (i : Nat) : Nat :=
  match i / 16, i % 4 with
  | 0, 0 => 7 | 0, 1 => 12 | 0, 2 => 17 | 0, _ => 22
  | 1, 0 => 5 | 1, 1 => 9 | 1, 2 => 14 | 1, _ => 20
  | 2, 0 => 4 | 2, 1 => 11 | 2, 2 => 16 | 2, _ => 23
  | _, 0 => 6 | _, 1 => 10 | _, 2 => 15 | _, _ => 21

def step (T X : Nat → Word) (s : Chain) (i : Nat) : Chain where
  A := s.D
  B := s.B + (s.A + f i s.B s.C s.D + X (wordIndex i) + T i).rotateLeft (shift i)
  C := s.B
  D := s.C

def steps (T X : Nat → Word) (s : Chain) : Chain := (List.range 64).foldl (step T X) s

def block (T : Nat → Word) (s : Chain) (X : Nat → Word) : Chain :=
  let r := steps T X s
  ⟨s.A + r.A, s.B + r.B, s.C + r.C, s.D + r.D⟩

/-- The message, a bit 1, bits 0 up to 64 bits short of a block, and the length in bits. -/
def pad (message : List UInt8) : List UInt8 :=
  message ++ [0x80] ++ List.replicate ((119 - message.length % 64) % 64) 0 ++
    toBytes 8 (8 * message.length)

/-- Word `j` of the block that starts at byte `start`. -/
def word (bytes : List UInt8) (start j : Nat) : Word :=
  BitVec.ofNat 32 (ofBytes ((bytes.drop (start + 4 * j)).take 4))

def digest (T : Nat → Word) (message : List UInt8) : Chain :=
  (List.range ((pad message).length / 64)).foldl
    (fun s k => block T s (word (pad message) (64 * k))) .init

def Chain.bytes (s : Chain) : List UInt8 :=
  toBytes 4 s.A.toNat ++ toBytes 4 s.B.toNat ++ toBytes 4 s.C.toNat ++ toBytes 4 s.D.toNat

/-- The lower-case hexadecimal digits of a byte. -/
def hexByte (b : UInt8) : List Char := [Nat.digitChar (b.toNat / 16), Nat.digitChar (b.toNat % 16)]

/-- The digest as text. -/
def hexDigest (T : Nat → Word) (message : List UInt8) : List Char :=
  (digest T message).bytes.flatMap hexByte

/-! ## Facts -/

theorem wordIndex_lt (i : Nat) : wordIndex i < 16 := by
  unfold wordIndex
  split <;> exact Nat.mod_lt _ (by omega)

/-- The steps read sixteen words. -/
theorem steps_congr {T X X' : Nat → Word} (h : ∀ j < 16, X j = X' j) (s : Chain) :
    steps T X s = steps T X' s := by
  have hstep : step T X = step T X' := by
    funext s i
    unfold step
    rw [h _ (wordIndex_lt i)]
  unfold steps
  rw [hstep]

theorem length_pad (message : List UInt8) : ∃ n, (pad message).length = 64 * n := by
  refine ⟨(message.length + 72) / 64, ?_⟩
  unfold pad
  simp only [List.length_append, List.length_singleton, List.length_replicate, length_toBytes]
  omega

/-- The length at the end tells where the message ends. -/
theorem pad_injective {m m' : List UInt8} (h : m.length < 2 ^ 61) (h' : m'.length < 2 ^ 61)
    (heq : pad m = pad m') : m = m' := by
  unfold pad at heq
  have hfield : toBytes 8 (8 * m.length) = toBytes 8 (8 * m'.length) :=
    (List.append_inj' heq (by rw [length_toBytes, length_toBytes])).2
  have hvalue := congrArg ofBytes hfield
  rw [ofBytes_toBytes _ _ (by omega), ofBytes_toBytes _ _ (by omega)] at hvalue
  have hlen : m.length = m'.length := by omega
  rw [List.append_assoc, List.append_assoc, List.append_assoc, List.append_assoc] at heq
  exact (List.append_inj heq hlen).1

/-! ## Blocks behind each other -/

/-- The chain behind `n` blocks from block `j`. -/
def blocks (T : Nat → Word) (bytes : List UInt8) (j n : Nat) (s : Chain) : Chain :=
  (List.range' j n).foldl (fun s k => block T s (word bytes (64 * k))) s

theorem blocks_zero (T : Nat → Word) (bytes : List UInt8) (j : Nat) (s : Chain) :
    blocks T bytes j 0 s = s := by
  unfold blocks
  rw [List.range'_zero, List.foldl_nil]

theorem blocks_add (T : Nat → Word) (bytes : List UInt8) (j n m : Nat) (s : Chain) :
    blocks T bytes j (n + m) s = blocks T bytes (j + n) m (blocks T bytes j n s) := by
  unfold blocks
  rw [← List.range'_append_1, List.foldl_append]

theorem blocks_succ (T : Nat → Word) (bytes : List UInt8) (j n : Nat) (s : Chain) :
    blocks T bytes j (n + 1) s = blocks T bytes (j + 1) n (block T s (word bytes (64 * j))) := by
  unfold blocks
  rw [List.range'_succ, List.foldl_cons]

/-- The blocks are what their words are. -/
theorem blocks_congr {T : Nat → Word} {bytes bytes' : List UInt8} {j n : Nat}
    (h : ∀ k, j ≤ k → k < j + n → ∀ i < 16, word bytes (64 * k) i = word bytes' (64 * k) i)
    (s : Chain) : blocks T bytes j n s = blocks T bytes' j n s := by
  induction n generalizing j s with
  | zero => rw [blocks_zero, blocks_zero]
  | succ n ih =>
    have hsteps : steps T (word bytes (64 * j)) s = steps T (word bytes' (64 * j)) s :=
      steps_congr (h j (Nat.le_refl j) (by omega)) s
    have hblock : block T s (word bytes (64 * j)) = block T s (word bytes' (64 * j)) := by
      unfold block
      rw [hsteps]
    rw [blocks_succ, blocks_succ, hblock]
    exact ih (fun k hk hk' => h k (by omega) (by omega)) _

/-- What is behind the blocks does not matter. -/
theorem blocks_front {T : Nat → Word} {bytes : List UInt8} {n : Nat} (h : 64 * n ≤ bytes.length)
    (more : List UInt8) (s : Chain) : blocks T (bytes ++ more) 0 n s = blocks T bytes 0 n s := by
  refine blocks_congr (fun k _ hk i hi => ?_) s
  unfold word
  rw [List.drop_append_of_le_length (by omega), List.take_append_of_le_length]
  rw [List.length_drop]
  omega

/-- What is in front of the blocks does not matter. -/
theorem blocks_back {T : Nat → Word} {bytes bytes' : List UInt8} {j : Nat}
    (h : bytes.length = 64 * j) (h' : bytes'.length = 64 * j) (more : List UInt8) (n : Nat)
    (s : Chain) : blocks T (bytes ++ more) j n s = blocks T (bytes' ++ more) j n s := by
  refine blocks_congr (fun k hk _ i _ => ?_) s
  have hdrop : ∀ front : List UInt8, front.length = 64 * j →
      (front ++ more).drop (64 * k + 4 * i) = more.drop (64 * k + 4 * i - 64 * j) := by
    intro front hfront
    rw [List.drop_append, List.drop_eq_nil_of_le (by omega), List.nil_append, hfront]
  unfold word
  rw [hdrop bytes h, hdrop bytes' h']

/-- The bytes behind a message depend on its length alone. -/
def padding (length : Nat) : List UInt8 :=
  0x80 :: (List.replicate ((119 - length % 64) % 64) 0 ++ toBytes 8 (8 * length))

theorem pad_eq_append (message : List UInt8) : pad message = message ++ padding message.length := by
  unfold pad padding
  rw [List.append_assoc, List.append_assoc]
  rfl

end Rfc1321
