import Mathlib.Algebra.BigOperators.Group.List.Basic
import Sprawl.Ds.BigInt

/-!
# The laws of `+`

A `BigInt` keeps its leading zeros, so two with one value need not be the same.  Addition is
commutative and associative all the same, on the digits, and the `BigInt` of the empty
string is its zero: the numerals are a commutative monoid, and an expression is the sum of
its strings there, in any order and grouping (`add_laws`).
-/

namespace Ds

open Cxx Positional

/-- A `BigInt` whose cells are digits. -/
structure Numeral where
  val : BigInt
  digit : ∀ d ∈ val.digits, 0 ≤ d ∧ d ≤ 9

theorem Numeral.ext {a b : Numeral} (h : a.val = b.val) : a = b := by
  cases a
  cases b
  cases h
  rfl

/-- The digits as numbers, the lowest first. -/
theorem Numeral.exists_digits (a : Numeral) :
    ∃ ds, (∀ d ∈ ds, d < 10) ∧ a.val = ofDigitList ds := by
  have hcell : ∀ d : Int8, 0 ≤ d ∧ d ≤ 9 →
      d.toInt.toNat < 10 ∧ Int8.ofNat d.toInt.toNat = d := by
    rintro d ⟨hlow, hhigh⟩
    rw [Int8.le_iff_toInt_le] at hlow hhigh
    have hlow' : 0 ≤ d.toInt := hlow
    have hhigh' : d.toInt ≤ 9 := hhigh
    refine ⟨by omega, ?_⟩
    show Int8.ofInt ((d.toInt.toNat : Nat) : Int) = d
    rw [Int.toNat_of_nonneg hlow', Int8.ofInt_toInt]
  refine ⟨(a.val.digits.map fun d => d.toInt.toNat).reverse, ?_, ?_⟩
  · intro m hm
    obtain ⟨d, hd, rfl⟩ := List.mem_map.1 (List.mem_reverse.1 hm)
    exact (hcell d (a.digit d hd)).1
  · have hcells : (a.val.digits.map fun d => d.toInt.toNat).map Int8.ofNat = a.val.digits := by
      rw [List.map_map]
      refine (List.map_congr_left fun d hd => ?_).trans (List.map_id _)
      exact (hcell d (a.digit d hd)).2
    unfold ofDigitList
    rw [List.map_reverse, List.reverse_reverse, hcells]

/-! ## The monoid -/

instance : Add Numeral where
  add a b :=
    { val := a.val.add b.val
      digit := by
        obtain ⟨xs, hx, ha⟩ := a.exists_digits
        obtain ⟨ys, hy, hb⟩ := b.exists_digits
        rw [ha, hb, add_ofDigits hx hy]
        exact digit_ofDigitList (sum_lt hx hy (by decide)) }

instance : Zero Numeral where
  zero := { val := { digits := [] }, digit := by simp }

theorem Numeral.val_add (a b : Numeral) : (a + b).val = a.val.add b.val := rfl

theorem Numeral.add_comm (a b : Numeral) : a + b = b + a := by
  apply Numeral.ext
  obtain ⟨xs, hx, ha⟩ := a.exists_digits
  obtain ⟨ys, hy, hb⟩ := b.exists_digits
  rw [val_add, val_add, ha, hb, add_ofDigits hx hy, add_ofDigits hy hx, sum_comm (by decide) hx hy]

theorem Numeral.add_assoc (a b c : Numeral) : a + b + c = a + (b + c) := by
  apply Numeral.ext
  obtain ⟨xs, hx, ha⟩ := a.exists_digits
  obtain ⟨ys, hy, hb⟩ := b.exists_digits
  obtain ⟨zs, hz, hc⟩ := c.exists_digits
  rw [val_add, val_add, val_add, val_add, ha, hb, hc, add_ofDigits hx hy, add_ofDigits hy hz,
    add_ofDigits (sum_lt hx hy (by decide)) hz, add_ofDigits hx (sum_lt hy hz (by decide)),
    sum_assoc (by decide) hx hy hz]

theorem Numeral.add_zero (a : Numeral) : a + 0 = a := by
  apply Numeral.ext
  obtain ⟨xs, hx, ha⟩ := a.exists_digits
  have hzero : (0 : Numeral).val = ofDigitList [] := rfl
  rw [val_add, ha, hzero, add_ofDigits hx (by simp), sum_nil (by decide) hx]

instance : AddCommMonoid Numeral where
  add_assoc := Numeral.add_assoc
  add_comm := Numeral.add_comm
  add_zero := Numeral.add_zero
  zero_add a := (Numeral.add_comm 0 a).trans (Numeral.add_zero a)
  nsmul := nsmulRec

/-! ## Expressions are sums -/

/-- The number a string is read as. -/
def DigitString.numeral (str : DigitString) : Numeral where
  val := { digits := str.chars.map fun c => Int8.ofNat c.toNat - 0x30 }
  digit := by
    have hcell : ∀ c ∈ Ds.numeric,
        0 ≤ Int8.ofNat c.toNat - 0x30 ∧ Int8.ofNat c.toNat - 0x30 ≤ 9 := by
      decide
    intro d hd
    obtain ⟨c, hc, rfl⟩ := List.mem_map.1 hd
    exact hcell c (str.numeric c hc)

theorem ofString_numeral (str : DigitString) : BigInt.ofString str.chars = .ok str.numeral.val :=
  if_pos str.numeric

/-- The strings of an expression, from left to right. -/
def Expr.leaves : Expr → List DigitString
  | literal str => [str]
  | plus l r => l.leaves ++ r.leaves

/-- **An expression is the sum of its strings.** -/
theorem Expr.eval_sum (e : Expr) :
    e.eval = .ok ((e.leaves.map DigitString.numeral).sum).val := by
  induction e with
  | literal str =>
    rw [Expr.leaves, List.map_singleton, List.sum_singleton]
    exact ofString_numeral str
  | plus l r ihl ihr =>
    rw [Expr.eval, ihl, ihr, Expr.leaves, List.map_append, List.sum_append, Numeral.val_add]

/-- **`+` is commutative and associative, the empty string is its zero, and the order and
the grouping of a sum of digit strings do not matter.** -/
theorem add_laws :
    (∀ a b : Numeral, a.val.add b.val = b.val.add a.val) ∧
      (∀ a b c : Numeral, (a.val.add b.val).add c.val = a.val.add (b.val.add c.val)) ∧
      (∃ zero, BigInt.ofString [] = .ok zero ∧
        ∀ a : Numeral, zero.add a.val = a.val ∧ a.val.add zero = a.val) ∧
      ∀ e e' : Expr, e.leaves.Perm e'.leaves →
        ∃ n, e.eval = .ok n ∧ e'.eval = .ok n ∧
          e.eval.map BigInt.toString = e'.eval.map BigInt.toString := by
  refine ⟨?_, ?_, ⟨{ digits := [] }, rfl, ?_⟩, ?_⟩
  · intro a b
    rw [← Numeral.val_add, ← Numeral.val_add, add_comm]
  · intro a b c
    rw [← Numeral.val_add, ← Numeral.val_add, ← Numeral.val_add, ← Numeral.val_add, add_assoc]
  · intro a
    have hzero : (0 : Numeral).val = { digits := [] } := rfl
    rw [← hzero, ← Numeral.val_add, ← Numeral.val_add, zero_add, add_zero]
    exact ⟨rfl, rfl⟩
  · intro e e' hperm
    have hsum : (e.leaves.map DigitString.numeral).sum = (e'.leaves.map DigitString.numeral).sum :=
      (hperm.map _).sum_eq
    have heval : e.eval = e'.eval := by rw [e.eval_sum, e'.eval_sum, hsum]
    exact ⟨_, e.eval_sum, heval ▸ e.eval_sum, congrArg (Except.map BigInt.toString) heval⟩

end Ds
