import Mathlib.Data.Nat.Digits.Defs
import Mathlib.Tactic.Ring

/-!
# Column addition

Numbers as lists of digits, the lowest first (`Nat.ofDigits`).  `columns` adds digit by
digit without a carry, `carryOver` goes through the columns once and resolves all carries;
together they are `add` (`ofDigits_add`), whose length is that of the longer number, and
one more when the sum does not fit (`length_add`).

`sum` puts the longer number first.  Leading zeros stay, so the value does not determine the
digits; but the value and the length do, and the length says only what fits
(`length_sum_le_iff`).  So `sum` is commutative and associative on the digits.
-/

namespace Positional

/-- The sum of each column; the first number is not the shorter one. -/
def columns : List Nat → List Nat → List Nat
  | [], _ => []
  | x :: xs, [] => x :: columns xs []
  | x :: xs, y :: ys => (x + y) :: columns xs ys

/-- The digits that remain, and the carry out of the last column. -/
def carryOver (b : Nat) (carry : Nat) : List Nat → List Nat × Nat
  | [] => ([], carry)
  | d :: ds =>
    if b ≤ d + carry then
      let rest := carryOver b 1 ds
      ((d + carry - b) :: rest.1, rest.2)
    else
      let rest := carryOver b 0 ds
      ((d + carry) :: rest.1, rest.2)

def add (b : Nat) (xs ys : List Nat) : List Nat :=
  let sum := carryOver b 0 (columns xs ys)
  if sum.2 = 1 then sum.1 ++ [1] else sum.1

variable {b : Nat} {xs ys : List Nat}

theorem length_columns : (columns xs ys).length = xs.length := by
  induction xs generalizing ys with
  | nil => rfl
  | cons x xs ih => cases ys <;> simp [columns, ih]

theorem columns_nil : columns xs [] = xs := by
  induction xs with
  | nil => rfl
  | cons x xs ih => rw [columns, ih]

theorem ofDigits_columns (h : ys.length ≤ xs.length) :
    Nat.ofDigits b (columns xs ys) = Nat.ofDigits b xs + Nat.ofDigits b ys := by
  induction xs generalizing ys with
  | nil =>
    rw [List.length_nil, Nat.le_zero, List.length_eq_zero_iff] at h
    rw [h]
    rfl
  | cons x xs ih =>
    cases ys with
    | nil => rw [columns_nil, Nat.ofDigits_nil, Nat.add_zero]
    | cons y ys =>
      rw [columns, Nat.ofDigits_cons, Nat.ofDigits_cons, Nat.ofDigits_cons,
        ih (Nat.le_of_succ_le_succ h)]
      ring

/-- A column of two digits. -/
theorem columns_le (hx : ∀ d ∈ xs, d < b) (hy : ∀ d ∈ ys, d < b) :
    ∀ d ∈ columns xs ys, d + 2 ≤ 2 * b := by
  induction xs generalizing ys with
  | nil => simp [columns]
  | cons x xs ih =>
    obtain ⟨hx₀, hx⟩ := List.forall_mem_cons.1 hx
    cases ys with
    | nil =>
      rw [columns, List.forall_mem_cons]
      exact ⟨by omega, ih hx hy⟩
    | cons y ys =>
      obtain ⟨hy₀, hy⟩ := List.forall_mem_cons.1 hy
      rw [columns, List.forall_mem_cons]
      exact ⟨by omega, ih hx hy⟩

theorem length_carryOver (carry : Nat) (ds : List Nat) :
    (carryOver b carry ds).1.length = ds.length := by
  induction ds generalizing carry with
  | nil => rfl
  | cons d ds ih =>
    unfold carryOver
    split <;> simp [ih]

/-- What one pass over the columns keeps: the value, and digits that are digits. -/
theorem carryOver_spec {carry : Nat} {ds : List Nat} (hds : ∀ d ∈ ds, d + 2 ≤ 2 * b)
    (hcarry : carry ≤ 1) :
    (carryOver b carry ds).2 ≤ 1 ∧ (∀ d ∈ (carryOver b carry ds).1, d < b) ∧
      Nat.ofDigits b (carryOver b carry ds).1 + b ^ ds.length * (carryOver b carry ds).2 =
        Nat.ofDigits b ds + carry := by
  induction ds generalizing carry with
  | nil =>
    refine ⟨hcarry, by simp [carryOver], ?_⟩
    simp [carryOver]
  | cons d ds ih =>
    obtain ⟨hd, hds⟩ := List.forall_mem_cons.1 hds
    unfold carryOver
    by_cases hover : b ≤ d + carry
    · obtain ⟨hle, hlt, hvalue⟩ := ih hds (Nat.le_refl 1)
      rw [if_pos hover]
      refine ⟨hle, List.forall_mem_cons.2 ⟨by omega, hlt⟩, ?_⟩
      simp only [Nat.ofDigits_cons, List.length_cons, pow_succ]
      have hcolumn : d + carry - b + b = d + carry := by omega
      calc (d + carry - b) + b * Nat.ofDigits b (carryOver b 1 ds).1 +
            b ^ ds.length * b * (carryOver b 1 ds).2
          = (d + carry - b) + b * (Nat.ofDigits b (carryOver b 1 ds).1 +
            b ^ ds.length * (carryOver b 1 ds).2) := by ring
        _ = (d + carry - b) + b * (Nat.ofDigits b ds + 1) := by rw [hvalue]
        _ = (d + carry - b) + b + b * Nat.ofDigits b ds := by ring
        _ = d + b * Nat.ofDigits b ds + carry := by rw [hcolumn]; ring
    · obtain ⟨hle, hlt, hvalue⟩ := ih hds (Nat.zero_le 1)
      rw [if_neg hover]
      refine ⟨hle, List.forall_mem_cons.2 ⟨by omega, hlt⟩, ?_⟩
      simp only [Nat.ofDigits_cons, List.length_cons, pow_succ]
      calc (d + carry) + b * Nat.ofDigits b (carryOver b 0 ds).1 +
            b ^ ds.length * b * (carryOver b 0 ds).2
          = (d + carry) + b * (Nat.ofDigits b (carryOver b 0 ds).1 +
            b ^ ds.length * (carryOver b 0 ds).2) := by ring
        _ = (d + carry) + b * Nat.ofDigits b ds := by rw [hvalue, Nat.add_zero]
        _ = d + b * Nat.ofDigits b ds + carry := by ring

section
variable (hx : ∀ d ∈ xs, d < b) (hy : ∀ d ∈ ys, d < b)
include hx hy

theorem add_lt (hb : 1 < b) : ∀ d ∈ add b xs ys, d < b := by
  obtain ⟨-, hlt, -⟩ := carryOver_spec (columns_le hx hy) (Nat.zero_le 1)
  unfold add
  simp only
  split
  · rw [List.forall_mem_append]
    exact ⟨hlt, by simpa using hb⟩
  · exact hlt

/-- **Column addition adds.** -/
theorem ofDigits_add (hlen : ys.length ≤ xs.length) :
    Nat.ofDigits b (add b xs ys) = Nat.ofDigits b xs + Nat.ofDigits b ys := by
  obtain ⟨hle, -, hvalue⟩ := carryOver_spec (columns_le hx hy) (Nat.zero_le 1)
  rw [ofDigits_columns hlen, Nat.add_zero] at hvalue
  unfold add
  simp only
  split
  · next hcarry =>
    rw [Nat.ofDigits_append, length_carryOver, ← hvalue, hcarry, Nat.ofDigits_singleton]
  · next hcarry =>
    have hzero : (carryOver b 0 (columns xs ys)).2 = 0 := by omega
    rw [← hvalue, hzero, Nat.mul_zero, Nat.add_zero]

theorem length_add (hb : 1 < b) (hlen : ys.length ≤ xs.length) :
    (add b xs ys).length =
      xs.length + if b ^ xs.length ≤ Nat.ofDigits b xs + Nat.ofDigits b ys then 1 else 0 := by
  obtain ⟨hle, hlt, hvalue⟩ := carryOver_spec (columns_le hx hy) (Nat.zero_le 1)
  rw [ofDigits_columns hlen, Nat.add_zero, length_columns] at hvalue
  have hfits : Nat.ofDigits b (carryOver b 0 (columns xs ys)).1 < b ^ xs.length := by
    have h := Nat.ofDigits_lt_base_pow_length hb hlt
    rwa [length_carryOver, length_columns] at h
  unfold add
  simp only
  split
  · next hcarry =>
    rw [hcarry, Nat.mul_one] at hvalue
    rw [if_pos (by omega), List.length_append, length_carryOver, length_columns]
    rfl
  · next hcarry =>
    have hzero : (carryOver b 0 (columns xs ys)).2 = 0 := by omega
    rw [hzero, Nat.mul_zero, Nat.add_zero] at hvalue
    rw [if_neg (by omega), length_carryOver, length_columns, Nat.add_zero]

end

/-! ## The longer number first -/

def sum (b : Nat) (xs ys : List Nat) : List Nat :=
  if ys.length ≥ xs.length then add b ys xs else add b xs ys

section
variable (hx : ∀ d ∈ xs, d < b) (hy : ∀ d ∈ ys, d < b)
include hx hy

theorem sum_lt (hb : 1 < b) : ∀ d ∈ sum b xs ys, d < b := by
  unfold sum
  split
  · exact add_lt hy hx hb
  · exact add_lt hx hy hb

theorem ofDigits_sum :
    Nat.ofDigits b (sum b xs ys) = Nat.ofDigits b xs + Nat.ofDigits b ys := by
  unfold sum
  split
  · next hlen => rw [ofDigits_add hy hx hlen, Nat.add_comm]
  · next hlen => exact ofDigits_add hx hy (Nat.le_of_not_le hlen)

theorem length_sum (hb : 1 < b) :
    (sum b xs ys).length = max xs.length ys.length +
      if b ^ max xs.length ys.length ≤ Nat.ofDigits b xs + Nat.ofDigits b ys then 1 else 0 := by
  unfold sum
  split
  · next hlen =>
    rw [Nat.max_eq_right hlen, Nat.add_comm (Nat.ofDigits b xs)]
    exact length_add hy hx hb hlen
  · next hlen =>
    rw [Nat.max_eq_left (Nat.le_of_not_le hlen)]
    exact length_add hx hy hb (Nat.le_of_not_le hlen)

/-- **The sum has at most `k` digits exactly when both numbers have, and the value fits.** -/
theorem length_sum_le_iff (hb : 1 < b) (k : Nat) :
    (sum b xs ys).length ≤ k ↔ xs.length ≤ k ∧ ys.length ≤ k ∧
      Nat.ofDigits b xs + Nat.ofDigits b ys < b ^ k := by
  rw [length_sum hx hy hb]
  have hpos : 0 < b := by omega
  have hxfits := Nat.ofDigits_lt_base_pow_length hb hx
  have hyfits := Nat.ofDigits_lt_base_pow_length hb hy
  have hxmax : b ^ xs.length ≤ b ^ max xs.length ys.length :=
    Nat.pow_le_pow_right hpos (Nat.le_max_left _ _)
  have hymax : b ^ ys.length ≤ b ^ max xs.length ys.length :=
    Nat.pow_le_pow_right hpos (Nat.le_max_right _ _)
  split
  · next hcarry =>
    constructor
    · intro hk
      have hsucc : b ^ max xs.length ys.length * 2 ≤ b ^ (max xs.length ys.length + 1) := by
        rw [Nat.pow_succ]
        exact Nat.mul_le_mul_left _ hb
      have hle := Nat.pow_le_pow_right hpos hk
      omega
    · rintro ⟨hxk, hyk, hfit⟩
      have hlt : max xs.length ys.length < k :=
        (Nat.pow_lt_pow_iff_right hb).1 (Nat.lt_of_le_of_lt hcarry hfit)
      omega
  · next hfit =>
    constructor
    · intro hk
      have hle : b ^ max xs.length ys.length ≤ b ^ k := Nat.pow_le_pow_right hpos (by omega)
      omega
    · rintro ⟨hxk, hyk, -⟩
      omega

end

/-- Numbers of one value that fit in the same places have the same digits. -/
theorem eq_of_fits (hb : 1 < b) (hx : ∀ d ∈ xs, d < b) (hy : ∀ d ∈ ys, d < b)
    (hvalue : Nat.ofDigits b xs = Nat.ofDigits b ys)
    (hfits : ∀ k, xs.length ≤ k ↔ ys.length ≤ k) : xs = ys :=
  Nat.ofDigits_inj_of_len_eq hb (eq_of_forall_ge_iff hfits) hx hy hvalue

section
variable {zs : List Nat} (hb : 1 < b) (hx : ∀ d ∈ xs, d < b) (hy : ∀ d ∈ ys, d < b)
include hb hx

theorem sum_nil : sum b xs [] = xs := by
  have hnil : ∀ d ∈ ([] : List Nat), d < b := by simp
  refine eq_of_fits hb (sum_lt hx hnil hb) hx ?_ fun k => ?_
  · rw [ofDigits_sum hx hnil, Nat.ofDigits_nil, Nat.add_zero]
  · rw [length_sum_le_iff hx hnil hb, Nat.ofDigits_nil, Nat.add_zero]
    constructor
    · exact And.left
    · intro hk
      refine ⟨hk, Nat.zero_le k, ?_⟩
      calc Nat.ofDigits b xs < b ^ xs.length := Nat.ofDigits_lt_base_pow_length hb hx
        _ ≤ b ^ k := Nat.pow_le_pow_right (by omega) hk

include hy

theorem sum_comm : sum b xs ys = sum b ys xs := by
  refine eq_of_fits hb (sum_lt hx hy hb) (sum_lt hy hx hb) ?_ fun k => ?_
  · rw [ofDigits_sum hx hy, ofDigits_sum hy hx, Nat.add_comm]
  · rw [length_sum_le_iff hx hy hb, length_sum_le_iff hy hx hb, Nat.add_comm]
    tauto

/-- **Column addition is associative on the digits, leading zeros included.** -/
theorem sum_assoc (hz : ∀ d ∈ zs, d < b) :
    sum b (sum b xs ys) zs = sum b xs (sum b ys zs) := by
  have hxy := sum_lt hx hy hb
  have hyz := sum_lt hy hz hb
  refine eq_of_fits hb (sum_lt hxy hz hb) (sum_lt hx hyz hb) ?_ fun k => ?_
  · rw [ofDigits_sum hxy hz, ofDigits_sum hx hyz, ofDigits_sum hx hy, ofDigits_sum hy hz,
      Nat.add_assoc]
  · rw [length_sum_le_iff hxy hz hb, length_sum_le_iff hx hyz hb, length_sum_le_iff hx hy hb,
      length_sum_le_iff hy hz hb, ofDigits_sum hx hy, ofDigits_sum hy hz]
    constructor
    · rintro ⟨⟨hxk, hyk, -⟩, hzk, hfit⟩
      exact ⟨hxk, ⟨hyk, hzk, by omega⟩, by omega⟩
    · rintro ⟨hxk, ⟨hyk, hzk, -⟩, hfit⟩
      exact ⟨⟨hxk, hyk, by omega⟩, hzk, by omega⟩

end

end Positional
