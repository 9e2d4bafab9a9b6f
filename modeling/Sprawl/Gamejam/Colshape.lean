import Sprawl.Lib.Cxx

/-!
# Colliding rectangles (`gamejam/colshape.h`, `gamejam/colshape.cc`)

A rectangle is its corner nearest to the origin and its extent; `W()` and `H()` add the
two, which overflows where the far edge is out of range.  `CollidesWith` compares near
with far corners in both axes.

    a.collidesWith b = .ok (a.near ≤ b.far ∧ b.near ≤ a.far)            (collidesWith_eq)

for rectangles that are `Proper`, in the order of both coordinates.  Two closed intervals
of a lattice meet under just that condition (`nonempty_Icc_inter_Icc`), so the rectangles
collide when they have a point in common (`collidesWith_iff`).
-/

namespace Gamejam

open Cxx

/-- `typedef std::int64_t Dim;` -/
abbrev Dim := Int64

structure Colshape where
  x : Dim
  y : Dim
  w : Dim
  h : Dim
deriving DecidableEq

/-- `a + b` on signed integers. -/
def addDim (a b : Dim) : Except Stop Dim :=
  if -2 ^ 63 ≤ a.toInt + b.toInt ∧ a.toInt + b.toInt < 2 ^ 63 then .ok (a + b)
  else .error (.undefined .signedOverflow)

/-- `x_ + w_` -/
def Colshape.W (c : Colshape) : Except Stop Dim := addDim c.x c.w

/-- `y_ + h_` -/
def Colshape.H (c : Colshape) : Except Stop Dim := addDim c.y c.h

/-- `t.CollidesWith(o)` -/
def Colshape.collidesWith (t o : Colshape) : Except Stop Bool := do
  let tX := t.x
  let tY := t.y
  let tW ← t.W
  let tH ← t.H
  let oX := o.x
  let oY := o.y
  let oW ← o.W
  let oH ← o.H
  if tX > oW ∨ oX > tW then return false
  if tY > oH ∨ oY > tH then return false
  return true

/-! ## Rectangles of the plane -/

/-- The corner `(x, y)`. -/
def Colshape.near (c : Colshape) : ℤ × ℤ := (c.x.toInt, c.y.toInt)

def Colshape.extent (c : Colshape) : ℤ × ℤ := (c.w.toInt, c.h.toInt)

/-- The corner across. -/
def Colshape.far (c : Colshape) : ℤ × ℤ := c.near + c.extent

/-- The points of the closed rectangle. -/
def Colshape.points (c : Colshape) : Set (ℤ × ℤ) := Set.Icc c.near c.far

/-- No negative width or height, and the far edges are in range. -/
structure Colshape.Proper (c : Colshape) : Prop where
  extent_nonneg : 0 ≤ c.extent
  far_lt : c.far.1 < 2 ^ 63 ∧ c.far.2 < 2 ^ 63

instance decidableProper (c : Colshape) : Decidable c.Proper :=
  decidable_of_iff ((0 ≤ c.w.toInt ∧ 0 ≤ c.h.toInt) ∧ c.far.1 < 2 ^ 63 ∧ c.far.2 < 2 ^ 63)
    ⟨fun h => ⟨h.1, h.2⟩, fun h => ⟨h.1, h.2⟩⟩

/-- `c'` is `c`, moved by `v`. -/
structure Moved (v : ℤ × ℤ) (c c' : Colshape) : Prop where
  near : c'.near = c.near + v
  extent : c'.extent = c.extent

theorem Moved.far {v : ℤ × ℤ} {c c' : Colshape} (h : Moved v c c') : c'.far = c.far + v := by
  unfold Colshape.far
  rw [h.near, h.extent, add_right_comm]

/-- Two closed intervals of a lattice meet when each starts below the end of the other. -/
theorem nonempty_Icc_inter_Icc {α : Type*} [Lattice α] {a b c d : α} (hab : a ≤ b) (hcd : c ≤ d) :
    (Set.Icc a b ∩ Set.Icc c d).Nonempty ↔ a ≤ d ∧ c ≤ b := by
  rw [Set.Icc_inter_Icc, Set.nonempty_Icc, sup_le_iff, le_inf_iff, le_inf_iff]
  constructor
  · rintro ⟨⟨-, had⟩, hcb, -⟩
    exact ⟨had, hcb⟩
  · rintro ⟨had, hcb⟩
    exact ⟨⟨hab, had⟩, hcb, hcd⟩

/-! ## What the code computes -/

theorem addDim_eq {a b : Dim} (hb : 0 ≤ b.toInt) (h : a.toInt + b.toInt < 2 ^ 63) :
    ∃ s, addDim a b = .ok s ∧ s.toInt = a.toInt + b.toInt := by
  have ha := a.le_toInt
  refine ⟨a + b, if_pos ⟨by omega, h⟩, ?_⟩
  rw [Int64.toInt_add]
  exact Int.bmod_eq_of_le (by omega) (by omega)

theorem Colshape.Proper.near_le_far {c : Colshape} (h : c.Proper) : c.near ≤ c.far :=
  le_add_of_nonneg_right h.extent_nonneg

/-- The comparisons of `CollidesWith` are those of the corners. -/
theorem collidesWith_eq {a b : Colshape} (ha : a.Proper) (hb : b.Proper) :
    a.collidesWith b = .ok (decide (a.near ≤ b.far ∧ b.near ≤ a.far)) := by
  obtain ⟨aW, haW, haW'⟩ := addDim_eq ha.extent_nonneg.1 ha.far_lt.1
  obtain ⟨aH, haH, haH'⟩ := addDim_eq ha.extent_nonneg.2 ha.far_lt.2
  obtain ⟨bW, hbW, hbW'⟩ := addDim_eq hb.extent_nonneg.1 hb.far_lt.1
  obtain ⟨bH, hbH, hbH'⟩ := addDim_eq hb.extent_nonneg.2 hb.far_lt.2
  have hcorners : (a.near ≤ b.far ∧ b.near ≤ a.far) ↔
      ¬ (a.x > bW ∨ b.x > aW) ∧ ¬ (a.y > bH ∨ b.y > aH) := by
    simp only [gt_iff_lt, Int64.lt_iff_toInt_lt, haW', haH', hbW', hbH', not_or, not_lt]
    show (_ ∧ _) ∧ (_ ∧ _) ↔ _
    exact and_and_and_comm
  unfold Colshape.collidesWith Colshape.W Colshape.H
  rw [haW, haH, hbW, hbH]
  simp only [ok_bind]
  by_cases hx : a.x > bW ∨ b.x > aW
  · rw [if_pos hx, decide_eq_false fun h => (hcorners.1 h).1 hx]
    rfl
  · rw [if_neg hx]
    by_cases hy : a.y > bH ∨ b.y > aH
    · rw [if_pos hy, decide_eq_false fun h => (hcorners.1 h).2 hy]
      rfl
    · rw [if_neg hy, decide_eq_true (hcorners.2 ⟨hx, hy⟩)]
      rfl

/-- **Rectangles collide exactly when they have a point in common**, so every one with
itself, in either order, and wherever the two are moved. -/
theorem collidesWith_iff {a b : Colshape} (ha : a.Proper) (hb : b.Proper) :
    (∃ r, a.collidesWith b = .ok r ∧ (r = true ↔ ∃ p, p ∈ a.points ∧ p ∈ b.points)) ∧
      a.collidesWith a = .ok true ∧
      a.collidesWith b = b.collidesWith a ∧
      ∀ v a' b', Moved v a a' → Moved v b b' → a'.Proper → b'.Proper →
        a'.collidesWith b' = a.collidesWith b := by
  refine ⟨⟨_, collidesWith_eq ha hb, ?_⟩, ?_, ?_, fun v a' b' hmove hmove' ha' hb' => ?_⟩
  · rw [decide_eq_true_iff]
    exact (nonempty_Icc_inter_Icc ha.near_le_far hb.near_le_far).symm
  · rw [collidesWith_eq ha ha, decide_eq_true ⟨ha.near_le_far, ha.near_le_far⟩]
  · rw [collidesWith_eq ha hb, collidesWith_eq hb ha]
    simp only [and_comm]
  · rw [collidesWith_eq ha' hb', collidesWith_eq ha hb, hmove.near, hmove.far, hmove'.near,
      hmove'.far]
    simp only [add_le_add_iff_right]

/-- Touching corners, at the edge of the range. -/
theorem collidesWith_iff_corner :
    (∃ r, Colshape.collidesWith ⟨0, 0, 10, 10⟩ ⟨10, 10, 2 ^ 63 - 11, 0⟩ = .ok r ∧ (r = true ↔
        ∃ p, p ∈ Colshape.points ⟨0, 0, 10, 10⟩ ∧ p ∈ Colshape.points ⟨10, 10, 2 ^ 63 - 11, 0⟩)) ∧
      Colshape.collidesWith ⟨0, 0, 10, 10⟩ ⟨0, 0, 10, 10⟩ = .ok true ∧
      Colshape.collidesWith ⟨0, 0, 10, 10⟩ ⟨10, 10, 2 ^ 63 - 11, 0⟩ =
        Colshape.collidesWith ⟨10, 10, 2 ^ 63 - 11, 0⟩ ⟨0, 0, 10, 10⟩ ∧
      ∀ v a' b', Moved v ⟨0, 0, 10, 10⟩ a' → Moved v ⟨10, 10, 2 ^ 63 - 11, 0⟩ b' → a'.Proper →
        b'.Proper → a'.collidesWith b' =
          Colshape.collidesWith ⟨0, 0, 10, 10⟩ ⟨10, 10, 2 ^ 63 - 11, 0⟩ :=
  collidesWith_iff (by decide +kernel) (by decide +kernel)

end Gamejam
