import Sprawl.Tvm.Pointers

/-!
# The image array

Every branch of `Encode` that emits a word stores it at `data_[len_++]`, and nothing looks at
`len_` before.  So `Encode` stays in the array as long as the rows it gets to emit no more
words than the array holds:

    StaysInside inset ↔ RoomFor inset.rows      (staysInside_iff)

Rows behind a register text that is too short do not count, for `Encode` aborts there; and a
row that lacks an operand must not be reached.
-/

namespace Tvm

open Cxx

/-- `Encode` writes inside `data_`, and returns an image no longer than that or reports an
error. -/
structure StaysInside (inset : InstructionSet) : Prop where
  writes : encode inset ≠ .error (.undefined .outOfBounds)
  result : (∃ img, encode inset = .ok img ∧ img.len ≤ kImageSize) ∨ encode inset = .error .abort

/-- Behind `len` words: up to any row that `Encode` may get to, the words fit and no operand
is lacking. -/
def RoomBehind (len : Nat) (rows : List InstructionRow) : Prop :=
  ∀ pre, pre <+: rows → (∀ r ∈ pre, ¬ StopsAtText r.reads) →
    len + pre.countP InstructionRow.emits ≤ kImageSize ∧ ∀ r ∈ pre, ¬ StopsAtNull r.reads

/-- There is room for the rows in an empty image. -/
def RoomFor (rows : List InstructionRow) : Prop := RoomBehind 0 rows

/-! ## Row by row -/

theorem roomBehind_stops {len : Nat} {row : InstructionRow} (rows : List InstructionRow)
    (hlen : len ≤ kImageSize) (h : StopsAtText row.reads) : RoomBehind len (row :: rows) := by
  intro pre hpre htext
  rcases List.prefix_cons_iff.1 hpre with rfl | ⟨pre', rfl, -⟩
  · exact ⟨hlen, by simp⟩
  · exact absurd h (htext row List.mem_cons_self)

/-- A row that `Encode` passes takes room for its word. -/
theorem roomBehind_cons_iff {len : Nat} {row : InstructionRow} (rows : List InstructionRow)
    (hlen : len ≤ kImageSize) (htext : ¬ StopsAtText row.reads) (hnull : ¬ StopsAtNull row.reads) :
    RoomBehind len (row :: rows) ↔ RoomBehind (len + if row.emits then 1 else 0) rows := by
  constructor
  · intro h pre hpre hstop
    have hcons := h (row :: pre) (List.prefix_cons_iff.2 (.inr ⟨pre, rfl, hpre⟩))
      (List.forall_mem_cons.2 ⟨htext, hstop⟩)
    rw [countP_emits_cons] at hcons
    exact ⟨hcons.1, (List.forall_mem_cons.1 hcons.2).2⟩
  · intro h pre hpre hstop
    rcases List.prefix_cons_iff.1 hpre with rfl | ⟨pre', rfl, hpre'⟩
    · exact ⟨hlen, by simp⟩
    · obtain ⟨hfit, hread⟩ := h pre' hpre' (List.forall_mem_cons.1 hstop).2
      rw [countP_emits_cons]
      exact ⟨hfit, List.forall_mem_cons.2 ⟨hnull, hread⟩⟩

/-- **The loop returns an image that fits, or aborts, exactly when there is room.** -/
theorem encodeRows_fits_iff (rows : List InstructionRow) {img : Image}
    (himg : img.len ≤ kImageSize) :
    ((∃ img', encodeRows img rows = .ok img' ∧ img'.len ≤ kImageSize) ∨
        encodeRows img rows = .error .abort) ↔ RoomBehind img.len rows := by
  induction rows generalizing img with
  | nil =>
    refine iff_of_true (.inl ⟨img, rfl, himg⟩) ?_
    intro pre hpre _
    obtain rfl := List.prefix_nil.1 hpre
    exact ⟨himg, by simp⟩
  | cons row rows ih =>
    cases encodeStep row rows himg with
    | text htext _ hrun => exact iff_of_true (.inr hrun) (roomBehind_stops rows himg htext)
    | null htext hnull hrun =>
      refine iff_of_false ?_ fun h => ?_
      · rw [hrun]
        rintro (⟨_, h, -⟩ | h) <;> cases h
      · obtain ⟨-, hread⟩ := h [row] (List.prefix_cons_iff.2 (.inr ⟨[], rfl, List.nil_prefix⟩))
          (by simpa using htext)
        exact hread row List.mem_cons_self hnull
    | full htext hnull hfull hrun =>
      rw [roomBehind_cons_iff rows himg htext hnull]
      refine iff_of_false ?_ fun h => ?_
      · rw [hrun]
        rintro (⟨_, h, -⟩ | h) <;> cases h
      · exact Nat.not_le_of_lt hfull (h [] List.nil_prefix (by simp)).1
    | next htext hnull img' hlen hle hrun =>
      rw [roomBehind_cons_iff rows himg htext hnull, ← hlen, ← ih hle, hrun]

theorem encode_fits_iff (inset : InstructionSet) :
    ((∃ img, encode inset = .ok img ∧ img.len ≤ kImageSize) ∨ encode inset = .error .abort) ↔
      RoomFor inset.rows :=
  encodeRows_fits_iff inset.rows (Nat.zero_le _)

/-- **`Encode` stays in the image array exactly when the rows it gets to have room there.** -/
theorem staysInside_iff (inset : InstructionSet) : StaysInside inset ↔ RoomFor inset.rows := by
  rw [← encode_fits_iff]
  refine ⟨StaysInside.result, fun h => ⟨?_, h⟩⟩
  intro hout
  rw [hout] at h
  rcases h with ⟨_, h, -⟩ | h <;> cases h

/-- One `HALT` more than the array holds. -/
def haltsInset : InstructionSet where
  rows := List.replicate 65536 (opRow none ⟨"HALT".toList, 1, 0⟩ [])
  symtab := []

theorem not_staysInside : ¬ ∀ inset, StaysInside inset := by
  intro h
  have hroom := (encode_fits_iff haltsInset).1 (h haltsInset).result
  have hcount := (hroom haltsInset.rows List.prefix_rfl ?_).1
  · have hall : haltsInset.rows.countP InstructionRow.emits = 65536 :=
      List.countP_replicate.trans (if_pos (by decide))
    rw [Nat.zero_add, hall] at hcount
    exact absurd hcount (by decide)
  · intro r hr
    rw [List.eq_of_mem_replicate hr]
    exact id

end Tvm
