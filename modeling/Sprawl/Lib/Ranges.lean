import Mathlib.Data.List.Chain
import Mathlib.Tactic.Common

/-!
# Inclusive ranges of indices

A pair `(from, to)` stands for the indices `from, …, to`.  Ranges tile the first
`n` indices when each starts behind the one before it and together they list
every index once (`Tiles`).

`Span a rs b` is the form that goes through an induction: the ranges follow one
another from `a` up to, but not including, `b`.

* `Span.tiles`: ranges that span from 0 tile.
* `Tiles.unique`: ranges tile at most one number of indices.
-/

namespace Ranges

/-- The indices of `for (i = from; i <= to; ++i)`. -/
def indices (r : Nat × Nat) : List Nat := List.range' r.1 (r.2 + 1 - r.1)

/-- The ranges are consecutive and cover every index below `n` exactly once. -/
structure Tiles (n : Nat) (rs : List (Nat × Nat)) : Prop where
  consecutive : rs.IsChain fun r s => s.1 = r.2 + 1
  cover : rs.flatMap indices = List.range n

/-- One range behind the other, from `a` up to `b`. -/
inductive Span : Nat → List (Nat × Nat) → Nat → Prop
  | nil {a} : Span a [] a
  | cons {a t rs b} : a ≤ t → Span (t + 1) rs b → Span a ((a, t) :: rs) b

theorem Span.le {a b : Nat} {rs : List (Nat × Nat)} (h : Span a rs b) : a ≤ b := by
  induction h with
  | nil => exact Nat.le_refl _
  | cons hle _ ih => omega

theorem Span.mem {a b : Nat} {rs : List (Nat × Nat)} (h : Span a rs b) :
    ∀ r ∈ rs, a ≤ r.1 ∧ r.1 ≤ r.2 ∧ r.2 < b := by
  induction h with
  | nil => simp
  | cons hle hs ih =>
    intro r hr
    have hb := hs.le
    rcases List.mem_cons.1 hr with rfl | hr
    · omega
    · have hrest := ih r hr
      omega

theorem Span.head {a b : Nat} {rs : List (Nat × Nat)} (h : Span a rs b) :
    ∀ r ∈ rs.head?, r.1 = a := by
  cases h with
  | nil => simp
  | cons hle _ => simp

theorem Span.consecutive {a b : Nat} {rs : List (Nat × Nat)} (h : Span a rs b) :
    rs.IsChain fun r s => s.1 = r.2 + 1 := by
  induction h with
  | nil => exact .nil
  | cons _ hs ih => exact List.IsChain.cons ih fun s hm => hs.head s hm

theorem Span.cover {a b : Nat} {rs : List (Nat × Nat)} (h : Span a rs b) :
    rs.flatMap indices = List.range' a (b - a) := by
  induction h with
  | nil => simp
  | @cons a t rs b hle hs ih =>
    have hb := hs.le
    have hlen : b - a = (t + 1 - a) + (b - (t + 1)) := by omega
    have hnext : a + (t + 1 - a) = t + 1 := by omega
    rw [List.flatMap_cons, ih, indices, hlen, ← List.range'_append_1, hnext]

theorem Span.tiles {n : Nat} {rs : List (Nat × Nat)} (h : Span 0 rs n) : Tiles n rs where
  consecutive := h.consecutive
  cover := by rw [h.cover, Nat.sub_zero, List.range_eq_range']

theorem Tiles.unique {m n : Nat} {rs : List (Nat × Nat)} (hm : Tiles m rs) (hn : Tiles n rs) :
    m = n := by
  have h := congrArg List.length (hm.cover.symm.trans hn.cover)
  rwa [List.length_range, List.length_range] at h

/-- Ranges that span from 0 tile as many indices as they reach, and no other number. -/
theorem Span.tiles_iff {m n : Nat} {rs : List (Nat × Nat)} (h : Span 0 rs m) :
    Tiles n rs ↔ m = n :=
  ⟨fun hn => h.tiles.unique hn, fun he => he ▸ h.tiles⟩

end Ranges
