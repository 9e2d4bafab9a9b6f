import Sprawl.Md5.Correct

/-!
# A digest can be extended

The registers are the whole state of the block loop, and `Digest` gives them away: the digest
of a padded message with something behind it is what the loop makes of the digest of the
message and its length, whatever the message was (`digest_extends`).
-/

namespace Md5

open Cxx Loop

/-- The loop as it stands behind `n` bytes whose digest is these words. -/
def resumed (a b c d : UInt32) (n : Nat) : DigestState :=
  { i := UInt32.ofNat n, A0 := a, B0 := b, C0 := c, D0 := d }

/-- The registers at the end. -/
def digestOf (c : Rfc1321.Chain) : Vector UInt32 4 := #v[⟨c.A⟩, ⟨c.B⟩, ⟨c.C⟩, ⟨c.D⟩]

theorem chain_resumed {a b c d : UInt32} {chain : Rfc1321.Chain}
    (h : #v[a, b, c, d] = digestOf chain) (n : Nat) : (resumed a b c d n).chain = chain := by
  unfold digestOf at h
  simp only [Vector.mk.injEq, Array.mk.injEq, List.cons.injEq, and_true] at h
  obtain ⟨rfl, rfl, rfl, rfl⟩ := h
  rfl

section
variable {padded : List UInt8} {n : Nat}

/-- From any block on, the loop folds the blocks that are left. -/
theorem returns_blocks (hfit : padded.length < 2 ^ 32) (hlen : padded.length = 64 * n) {m j : Nat}
    (hj : j + m = n) {s : DigestState} (hi : s.i.toNat = 64 * j)
    (r : Except Stop (Vector UInt32 4)) :
    Returns (digestBody padded) s r ↔
      r = .ok (digestOf (Rfc1321.blocks sineTable padded j m s.chain)) := by
  induction m generalizing j s with
  | zero =>
    refine returns_done_iff ?_
    unfold digestBody
    rw [if_neg (by omega), Rfc1321.blocks_zero]
    rfl
  | succ m ih =>
    obtain ⟨s', hturn, hi', -, hchain⟩ := @digestBody_block padded s j hfit hi (by omega)
    rw [returns_again_iff hturn, ih (by omega) hi', hchain, Rfc1321.blocks_succ]

end

/-- The digest of a message is what its own blocks fold to. -/
theorem digest_blocks {message : List UInt8} {n : Nat}
    (hfit : (padMessage message).length < 2 ^ 32) (hlen : (padMessage message).length = 64 * n)
    (r : Except Stop (Vector UInt32 4)) :
    Digest message r ↔ r = .ok (digestOf
      (Rfc1321.blocks sineTable (padMessage message) 0 n ({} : DigestState).chain)) :=
  returns_blocks hfit hlen (Nat.zero_add n) rfl r

theorem length_le_padMessage (message : List UInt8) :
    message.length ≤ (padMessage message).length := by
  unfold padMessage
  simp only [List.length_append]
  omega

/-- The bytes behind a front and its suffix depend on the length of the front alone. -/
theorem padMessage_append {front suffix : List UInt8}
    (hfit : (front ++ suffix).length < 2 ^ 61) :
    padMessage (front ++ suffix) =
      front ++ (suffix ++ Rfc1321.padding (front.length + suffix.length)) := by
  rw [padMessage_eq hfit, Rfc1321.pad_eq_append, List.append_assoc, List.length_append]

/-- **The digest of a padded message with a suffix comes from the digest of the message and its
length.** -/
theorem digest_extends {message suffix stand : List UInt8} {a b c d : UInt32}
    (hfit : (padMessage (padMessage message ++ suffix)).length < 2 ^ 32)
    (h : Digest message (.ok #v[a, b, c, d])) (hstand : stand.length = (padMessage message).length)
    (r : Except Stop (Vector UInt32 4)) :
    Digest (padMessage message ++ suffix) r ↔
      Returns (digestBody (padMessage (stand ++ suffix))) (resumed a b c d stand.length) r := by
  have hmessage := length_le_padMessage message
  have hlonger := length_le_padMessage (padMessage message ++ suffix)
  rw [List.length_append] at hlonger
  have hpad := @padMessage_append (padMessage message) suffix (by rw [List.length_append]; omega)
  have hpad' := @padMessage_append stand suffix (by rw [List.length_append]; omega)
  rw [hstand] at hpad'
  have hblocks := @length_padMessage message (by omega)
  have hblocks' := @length_padMessage (padMessage message ++ suffix)
    (by rw [List.length_append]; omega)
  rw [List.length_append] at hblocks'
  generalize hn : (message.length + 72) / 64 = n at hblocks
  generalize hn' : ((padMessage message).length + suffix.length + 72) / 64 = n' at hblocks'
  obtain ⟨m, rfl⟩ : ∃ m, n' = n + m := ⟨n' - n, by omega⟩
  -- the digest of the message
  have hd := (digest_blocks (by omega) hblocks _).1 h
  have hresume : (resumed a b c d stand.length).i.toNat = 64 * n := by
    show (UInt32.ofNat stand.length).toNat = _
    rw [UInt32.toNat_ofNat_of_lt' (by rw [hstand]; show _ < 4294967296; omega), hstand, hblocks]
  have hlen' : (padMessage (stand ++ suffix)).length = 64 * (n + m) := by
    rw [hpad', List.length_append, hstand, ← List.length_append, ← hpad, hblocks']
  have hright := returns_blocks (by omega) hlen' rfl hresume r
  have hchain : (resumed a b c d stand.length).chain =
      Rfc1321.blocks sineTable (padMessage message) 0 n ({} : DigestState).chain :=
    chain_resumed (Except.ok.inj hd) _
  -- the blocks in front are those of the message, the ones behind are the same
  have hall : Rfc1321.blocks sineTable (padMessage (padMessage message ++ suffix)) 0 (n + m)
        ({} : DigestState).chain =
      Rfc1321.blocks sineTable (padMessage (stand ++ suffix)) n m
        (resumed a b c d stand.length).chain := by
    rw [Rfc1321.blocks_add, Nat.zero_add, hchain, hpad, hpad',
      Rfc1321.blocks_front (by omega), Rfc1321.blocks_back hblocks (hstand.trans hblocks)]
  rw [digest_blocks hfit hblocks', hright, hall]

/-- "def" behind the padded "abc", without "abc". -/
theorem digest_extends_abc :
    ∃ a b c d, Digest "abc".toUTF8.toList (.ok #v[a, b, c, d]) ∧ ∀ r,
      Digest (padMessage "abc".toUTF8.toList ++ "def".toUTF8.toList) r ↔
        Returns (digestBody (padMessage (List.replicate 64 0 ++ "def".toUTF8.toList)))
          (resumed a b c d (List.replicate 64 (0 : UInt8)).length) r := by
  have hlen : (padMessage "abc".toUTF8.toList).length = 64 * 1 := by decide +kernel
  have hdigest := (digest_blocks (by omega) hlen _).2 rfl
  exact ⟨_, _, _, _, hdigest, digest_extends (by decide +kernel) hdigest (by decide +kernel)⟩

end Md5
