import Mathlib.Algebra.BigOperators.Group.List.Basic
import Mathlib.Data.Nat.ModEq
import Mathlib.Logic.Function.Basic
import Mathlib.Tactic.Ring

/-!
# Checksums that are folds

A checksum reads its elements one after the other into a state (`foldl step`) and reads the
value off the last state (`out`).  Where a step loses nothing (it is injective in the state
and in the element) and `out` loses nothing, replacing one element changes the value
(`detectsChange_foldl`); where two steps do not commute, exchanging two neighbours does
(`detectsSwap_foldl`).  Two kinds of steps are such: multiplying by a factor and adding the
element (`detects_of_affine`), and the two sums of Fletcher (`detects_of_sums`).

`fletcher m` is Fletcher's checksum for a modulus `m`: the sum of the elements and the sum of
the elements weighted by their distance from the end.  Two sums that wrap around at `m`
compute it (`foldl_sumsStep`).
-/

namespace Checksum

section
variable {σ α ρ : Type*}

/-- Another element in one place makes another value. -/
def DetectsChange (hash : List α → ρ) : Prop :=
  ∀ (pre post : List α) (a b : α), a ≠ b → hash (pre ++ a :: post) ≠ hash (pre ++ b :: post)

/-- Two different neighbours that are exchanged make another value. -/
def DetectsSwap (hash : List α → ρ) : Prop :=
  ∀ (pre post : List α) (a b : α), a ≠ b →
    hash (pre ++ a :: b :: post) ≠ hash (pre ++ b :: a :: post)

variable {step : σ → α → σ} {out : σ → ρ}

/-- Different states stay different. -/
theorem foldl_injective (hstep : ∀ a, Function.Injective fun s => step s a) (xs : List α) :
    Function.Injective fun s => xs.foldl step s := by
  induction xs with
  | nil => exact Function.injective_id
  | cons x xs ih =>
    intro s t h
    exact hstep x (ih h)

theorem detectsChange_foldl (hstep : ∀ a, Function.Injective fun s => step s a)
    (helem : ∀ s, Function.Injective (step s)) (hout : Function.Injective out) (s : σ) :
    DetectsChange fun xs => out (xs.foldl step s) := by
  intro pre post a b hne h
  have hstate := hout h
  simp only [List.foldl_append, List.foldl_cons] at hstate
  exact hne (helem _ (foldl_injective hstep post hstate))

theorem detectsSwap_foldl (hstep : ∀ a, Function.Injective fun s => step s a)
    (hswap : ∀ s a b, a ≠ b → step (step s a) b ≠ step (step s b) a)
    (hout : Function.Injective out) (s : σ) : DetectsSwap fun xs => out (xs.foldl step s) := by
  intro pre post a b hne h
  have hstate := hout h
  simp only [List.foldl_append, List.foldl_cons] at hstate
  exact hswap _ a b hne (foldl_injective hstep post hstate)

/-- `h = m * h + x`, modulo `q`. -/
theorem detects_of_affine {step : σ → α → σ} {state : σ → Nat} {elem : α → Nat} {m q : Nat}
    (hstate : Function.Injective state) (helem : Function.Injective elem)
    (hlt : ∀ s, state s < q) (hstep : ∀ s a, state (step s a) = (m * state s + elem a) % q)
    (hcoprime : Nat.Coprime q m) (hm : 1 < m) (hsmall : ∀ a b, m * elem a + elem b < q) (s : σ) :
    DetectsChange (fun xs => xs.foldl step s) ∧ DetectsSwap fun xs => xs.foldl step s := by
  have hmod : ∀ {s t a b}, step s a = step t b →
      m * state s + elem a ≡ m * state t + elem b [MOD q] := by
    intro s t a b h
    have heq := congrArg state h
    rwa [hstep, hstep] at heq
  have hinj : ∀ a, Function.Injective fun s => step s a := by
    intro a s t h
    have hmul : m * state s ≡ m * state t [MOD q] := Nat.ModEq.add_right_cancel' _ (hmod h)
    have heq := Nat.ModEq.cancel_left_of_coprime hcoprime hmul
    exact hstate (heq.eq_of_lt_of_lt (hlt s) (hlt t))
  constructor
  · refine detectsChange_foldl hinj (fun s a b h => helem ?_) Function.injective_id s
    have heq := Nat.ModEq.add_left_cancel' _ (hmod h)
    have ha := hsmall b a
    have hb := hsmall a b
    exact heq.eq_of_lt_of_lt (by omega) (by omega)
  · refine detectsSwap_foldl hinj (fun s a b hne h => hne (helem ?_)) Function.injective_id s
    have hsteps : ∀ a b, m * state (step s a) + elem b ≡
        m * (m * state s) + (m * elem a + elem b) [MOD q] := by
      intro a b
      rw [hstep, ← Nat.add_assoc, ← Nat.mul_add]
      exact ((Nat.mod_modEq _ _).mul_left m).add_right _
    have heq := Nat.ModEq.add_left_cancel' _
      ((hsteps a b).symm.trans ((hmod h).trans (hsteps b a)))
    have hsum := heq.eq_of_lt_of_lt (hsmall a b) (hsmall b a)
    obtain ⟨k, rfl⟩ : ∃ k, m = k + 2 := ⟨m - 2, by omega⟩
    have hfactor : (k + 1) * elem a = (k + 1) * elem b := by
      rw [Nat.add_mul, Nat.add_mul] at hsum ⊢
      omega
    exact Nat.eq_of_mul_eq_mul_left (Nat.succ_pos k) hfactor

/-- An element on top of a sum and of the sum of the sums. -/
def sumsStep {G : Type*} [Add G] (cast : α → G) (c : G × G) (x : α) : G × G :=
  let c0 := c.1 + cast x
  (c0, c.2 + c0)

theorem detects_of_sums {G : Type*} [AddCommGroup G] {cast : α → G} {out : G × G → ρ}
    (hcast : Function.Injective cast) (hout : Function.Injective out) (c : G × G) :
    DetectsChange (fun xs => out (xs.foldl (sumsStep cast) c)) ∧
      DetectsSwap fun xs => out (xs.foldl (sumsStep cast) c) := by
  have hstep : ∀ x, Function.Injective fun c => sumsStep cast c x := by
    intro x c d h
    obtain ⟨h0, h1⟩ := Prod.ext_iff.1 h
    have hfst : c.1 = d.1 := add_right_cancel h0
    refine Prod.ext hfst ?_
    simp only [sumsStep, hfst] at h1
    exact add_right_cancel h1
  constructor
  · refine detectsChange_foldl hstep (fun c x y h => hcast ?_) hout c
    exact add_left_cancel (Prod.ext_iff.1 h).1
  · refine detectsSwap_foldl hstep (fun c x y hne h => hne (hcast ?_)) hout c
    have h1 : c.2 + (c.1 + cast x) + (c.1 + cast x + cast y) =
        c.2 + (c.1 + cast y) + (c.1 + cast y + cast x) := (Prod.ext_iff.1 h).2
    rw [add_right_comm c.1 (cast x)] at h1
    exact add_left_cancel (add_left_cancel (add_right_cancel h1))

end

/-! ## Fletcher's checksum -/

/-- The elements, each weighted by how many there are from it on. -/
def weightedSum (xs : List Nat) : Nat := (xs.mapIdx fun i x => (xs.length - i) * x).sum

def fletcher (m : Nat) (xs : List Nat) : Nat × Nat := (xs.sum % m, weightedSum xs % m)

/-- One element on top of the two sums. -/
def runningSums (m : Nat) (c : Nat × Nat) (x : Nat) : Nat × Nat :=
  let c0 := (c.1 + x) % m
  (c0, (c.2 + c0) % m)

@[simp] theorem weightedSum_nil : weightedSum [] = 0 := rfl

@[simp] theorem weightedSum_cons (x : Nat) (xs : List Nat) :
    weightedSum (x :: xs) = (xs.length + 1) * x + weightedSum xs := by
  unfold weightedSum
  rw [List.mapIdx_cons, List.sum_cons]
  congr 2
  apply List.mapIdx_eq_mapIdx_iff.2
  intro i hi
  show (xs.length + 1 - (i + 1)) * xs[i] = (xs.length - i) * xs[i]
  rw [Nat.add_sub_add_right]

theorem sum_le_weightedSum (xs : List Nat) : xs.sum ≤ weightedSum xs := by
  induction xs with
  | nil => exact Nat.le_refl 0
  | cons x xs ih =>
    have hx : 1 * x ≤ (xs.length + 1) * x := Nat.mul_le_mul_right x (by omega)
    rw [List.sum_cons, weightedSum_cons]
    omega

theorem foldl_runningSums (m : Nat) (xs : List Nat) (c0 c1 : Nat) :
    xs.foldl (runningSums m) (c0 % m, c1 % m) =
      ((c0 + xs.sum) % m, (c1 + xs.length * c0 + weightedSum xs) % m) := by
  induction xs generalizing c0 c1 with
  | nil => simp
  | cons x xs ih =>
    have hstep : runningSums m (c0 % m, c1 % m) x = ((c0 + x) % m, (c1 + (c0 + x)) % m) := by
      simp only [runningSums, Nat.mod_add_mod, Nat.add_mod_mod]
    rw [List.foldl_cons, hstep, ih, List.sum_cons, weightedSum_cons, List.length_cons]
    refine Prod.ext ?_ ?_
    · show (c0 + x + xs.sum) % m = _
      rw [Nat.add_assoc]
    · show (c1 + (c0 + x) + xs.length * (c0 + x) + weightedSum xs) % m = _
      congr 1
      ring

/-- Sums that wrap around at `m` are the sums modulo `m`. -/
theorem foldl_sumsStep {α G : Type*} [Add G] [Zero G] {val : G → Nat} {cast : α → G} {m : Nat}
    (hzero : val 0 = 0) (hadd : ∀ x y, val (x + y) = (val x + val y) % m) (xs : List α) :
    (val (xs.foldl (sumsStep cast) (0, 0)).1, val (xs.foldl (sumsStep cast) (0, 0)).2) =
      fletcher m (xs.map fun x => val (cast x)) := by
  have hstep : ∀ (c : G × G) (x : α), runningSums m (val c.1, val c.2) (val (cast x)) =
      (val (sumsStep cast c x).1, val (sumsStep cast c x).2) := by
    intro c x
    simp only [runningSums, sumsStep, hadd]
  have hfold : xs.foldl (fun c x => runningSums m c (val (cast x))) (val (0 : G), val (0 : G)) =
      (val (xs.foldl (sumsStep cast) (0, 0)).1, val (xs.foldl (sumsStep cast) (0, 0)).2) :=
    @List.foldl_hom _ _ _ (fun c : G × G => (val c.1, val c.2)) (sumsStep cast)
      (fun c x => runningSums m c (val (cast x))) xs (0, 0) hstep
  have hsums := foldl_runningSums m (xs.map fun x => val (cast x)) 0 0
  rw [Nat.zero_mod, Nat.zero_add, Nat.mul_zero, Nat.add_zero, Nat.zero_add] at hsums
  rw [← hfold, hzero, fletcher, ← hsums, List.foldl_map]

end Checksum
