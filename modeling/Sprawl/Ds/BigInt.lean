import Sprawl.Lib.Cxx
import Sprawl.Lib.Positional

/-!
# Numbers of any length (`ds/bigint.cc`)

A `BigInt` is a deque of digits, the highest first, in cells of eight bits.  `+` goes
through both from the back, adds column by column, and resolves the carries in a second
pass: on digits that is `Positional.add` (`add_ofDigits`), no cell ever overflows.

`Expr.correct` is about every expression built by `+` from digit strings.
-/

namespace Ds

open Cxx Positional

structure BigInt where
  digits : List Int8
deriving DecidableEq

/-- `"0123456789"`. -/
def numeric : List Char := "0123456789".toList

/-- The constructor from a string; `domain_error` when it is not numeric. -/
def BigInt.ofString (str : List Char) : Except Stop BigInt :=
  if ∀ c ∈ str, c ∈ numeric then
    .ok { digits := str.map fun c => Int8.ofNat c.toNat - 0x30 }
  else .error .exception

/-- The first loop of `operator+`, with both iterators: pushes the column sums in front. -/
def addColumns (ret : List Int8) : List Int8 → List Int8 → List Int8
  | [], _ => ret
  | big :: bigger, [] => addColumns ((big + 0) :: ret) bigger []
  | big :: bigger, small :: smaller => addColumns ((big + small) :: ret) bigger smaller

/-- The second loop, from the back: the digits it leaves, last first, and the carry. -/
def applyCarry (carry : Int8) : List Int8 → List Int8 × Int8
  | [] => ([], carry)
  | d :: ds =>
    let d := d + carry
    if 10 ≤ d then
      let rest := applyCarry 1 ds
      ((d - 10) :: rest.1, rest.2)
    else
      let rest := applyCarry 0 ds
      (d :: rest.1, rest.2)

/-- `operator+`. -/
def BigInt.add (this other : BigInt) : BigInt :=
  let smaller := if other.digits.length < this.digits.length then other else this
  let bigger := if other.digits.length ≥ this.digits.length then other else this
  let ret := addColumns [] bigger.digits.reverse smaller.digits.reverse
  let carried := applyCarry 0 ret.reverse
  if carried.2 = 1 then { digits := carried.2 :: carried.1.reverse }
  else { digits := carried.1.reverse }

/-- `ToString`. -/
def BigInt.toString (n : BigInt) : List Char :=
  n.digits.flatMap fun d => (ToString.toString d.toInt).toList

/-! ## Digits in cells -/

/-- The number whose digits are `ds`, the lowest first. -/
def ofDigitList (ds : List Nat) : BigInt := { digits := (ds.map Int8.ofNat).reverse }

theorem addColumns_ofNat (ret : List Int8) (xs ys : List Nat) :
    addColumns ret (xs.map Int8.ofNat) (ys.map Int8.ofNat) =
      ((columns xs ys).map Int8.ofNat).reverse ++ ret := by
  induction xs generalizing ys ret with
  | nil => simp [addColumns, columns]
  | cons x xs ih =>
    cases ys with
    | nil =>
      have h := ih ((Int8.ofNat x + 0) :: ret) []
      rw [List.map_nil] at h
      rw [List.map_cons, List.map_nil, addColumns, h, columns, List.map_cons, List.reverse_cons,
        List.append_assoc, List.singleton_append, Int8.add_zero]
    | cons y ys =>
      rw [List.map_cons, List.map_cons, addColumns, ih, columns, List.map_cons, List.reverse_cons,
        List.append_assoc, List.singleton_append, Int8.ofNat_add]

/-- One cell of the second loop. -/
theorem cell_facts {n : Nat} (h : n < 20) :
    ((10 : Int8) ≤ Int8.ofNat n ↔ 10 ≤ n) ∧ (10 ≤ n → Int8.ofNat n - 10 = Int8.ofNat (n - 10)) := by
  interval_cases n <;> decide

theorem applyCarry_ofNat {carry : Nat} {ds : List Nat} (hds : ∀ d ∈ ds, d + 2 ≤ 2 * 10)
    (hcarry : carry ≤ 1) :
    applyCarry (Int8.ofNat carry) (ds.map Int8.ofNat) =
      ((carryOver 10 carry ds).1.map Int8.ofNat, Int8.ofNat (carryOver 10 carry ds).2) := by
  induction ds generalizing carry with
  | nil => rfl
  | cons d ds ih =>
    obtain ⟨hd, hds⟩ := List.forall_mem_cons.1 hds
    obtain ⟨hge, hsub⟩ := @cell_facts (d + carry) (by omega)
    have h1 := ih hds (Nat.le_refl 1)
    have h0 := ih hds (Nat.zero_le 1)
    rw [List.map_cons, applyCarry, carryOver]
    simp only [← Int8.ofNat_add]
    by_cases hover : 10 ≤ d + carry
    · rw [if_pos (hge.2 hover), if_pos hover, hsub hover]
      show (_ :: (applyCarry (Int8.ofNat 1) _).1, (applyCarry (Int8.ofNat 1) _).2) = _
      rw [h1]
      rfl
    · rw [if_neg (fun h => hover (hge.1 h)), if_neg hover]
      show (_ :: (applyCarry (Int8.ofNat 0) _).1, (applyCarry (Int8.ofNat 0) _).2) = _
      rw [h0]
      rfl

@[simp] theorem length_ofDigitList (ds : List Nat) :
    (ofDigitList ds).digits.length = ds.length := by
  simp [ofDigitList]

@[simp] theorem reverse_ofDigitList (ds : List Nat) :
    (ofDigitList ds).digits.reverse = ds.map Int8.ofNat := List.reverse_reverse _

theorem digit_ofDigitList {ds : List Nat} (hds : ∀ d ∈ ds, d < 10) :
    ∀ d ∈ (ofDigitList ds).digits, 0 ≤ d ∧ d ≤ 9 := by
  have hcell : ∀ d < 10, 0 ≤ Int8.ofNat d ∧ Int8.ofNat d ≤ 9 := by decide
  intro d hd
  obtain ⟨m, hm, rfl⟩ := List.mem_map.1 (List.mem_reverse.1 hd)
  exact hcell m (hds m hm)

/-- The two loops on the longer and the shorter number. -/
theorem carried_ofDigits {xs ys : List Nat} (hx : ∀ d ∈ xs, d < 10) (hy : ∀ d ∈ ys, d < 10) :
    (let carried := applyCarry 0
      (addColumns [] (xs.map Int8.ofNat) (ys.map Int8.ofNat)).reverse
     if carried.2 = 1 then ({ digits := carried.2 :: carried.1.reverse } : BigInt)
     else { digits := carried.1.reverse }) = ofDigitList (Positional.add 10 xs ys) := by
  have hcarry : applyCarry 0 ((columns xs ys).map Int8.ofNat) =
      ((carryOver 10 0 (columns xs ys)).1.map Int8.ofNat,
        Int8.ofNat (carryOver 10 0 (columns xs ys)).2) :=
    applyCarry_ofNat (columns_le hx hy) (Nat.zero_le 1)
  obtain ⟨hle, -, -⟩ := carryOver_spec (columns_le hx hy) (Nat.zero_le 1)
  have hone : Int8.ofNat (carryOver 10 0 (columns xs ys)).2 = 1 ↔
      (carryOver 10 0 (columns xs ys)).2 = 1 := by
    interval_cases (carryOver 10 0 (columns xs ys)).2 <;> decide
  simp only [addColumns_ofNat, List.append_nil, List.reverse_reverse, hcarry]
  unfold Positional.add
  by_cases hc : (carryOver 10 0 (columns xs ys)).2 = 1
  · simp only [hc]
    simp [ofDigitList]
  · simp only [hc, if_neg (mt hone.1 hc)]
    simp [ofDigitList]

theorem add_ofDigits {xs ys : List Nat} (hx : ∀ d ∈ xs, d < 10) (hy : ∀ d ∈ ys, d < 10) :
    (ofDigitList xs).add (ofDigitList ys) = ofDigitList (Positional.sum 10 xs ys) := by
  unfold BigInt.add Positional.sum
  simp only [length_ofDigitList]
  by_cases hlen : ys.length ≥ xs.length
  · rw [if_pos hlen, if_pos hlen, if_neg (Nat.not_lt.2 hlen), reverse_ofDigitList,
      reverse_ofDigitList]
    exact carried_ofDigits hy hx
  · rw [if_neg hlen, if_neg hlen, if_pos (Nat.lt_of_not_le hlen), reverse_ofDigitList,
      reverse_ofDigitList]
    exact carried_ofDigits hx hy

theorem toString_ofDigits {ds : List Nat} (hds : ∀ d ∈ ds, d < 10) :
    (ofDigitList ds).toString = ds.reverse.map Nat.digitChar := by
  have hdigit : ∀ d < 10, (ToString.toString (Int8.ofNat d).toInt).toList = [Nat.digitChar d] := by
    decide
  unfold BigInt.toString ofDigitList
  simp only
  rw [← List.map_reverse, List.flatMap_map]
  induction ds with
  | nil => rfl
  | cons d ds ih =>
    obtain ⟨hd, hds⟩ := List.forall_mem_cons.1 hds
    rw [List.reverse_cons, List.flatMap_append, ih hds, List.map_append, List.flatMap_singleton,
      hdigit d hd, List.map_singleton]

/-- The value of the text is the value of the digits. -/
theorem ofDigitChars_digits {ds : List Nat} (hds : ∀ d ∈ ds, d < 10) :
    Nat.ofDigitChars 10 (ds.reverse.map Nat.digitChar) 0 = Nat.ofDigits 10 ds := by
  induction ds with
  | nil => rfl
  | cons d ds ih =>
    obtain ⟨hd, hds⟩ := List.forall_mem_cons.1 hds
    rw [List.reverse_cons, List.map_append, Nat.ofDigitChars_append, ih hds, List.map_singleton,
      Nat.ofDigitChars_cons_digitChar_of_lt_ten hd, Nat.ofDigitChars_nil, Nat.ofDigits_cons,
      Nat.add_comm]

/-! ## Expressions -/

/-- A string of digits. -/
structure DigitString where
  chars : List Char
  numeric : ∀ c ∈ chars, c ∈ numeric

/-- What is built from digit strings by `+`. -/
inductive Expr
  | literal (str : DigitString)
  | plus (l r : Expr)

def Expr.eval : Expr → Except Stop BigInt
  | literal str => BigInt.ofString str.chars
  | plus l r =>
    match l.eval, r.eval with
    | .ok l, .ok r => .ok (l.add r)
    | .error e, _ => .error e
    | _, .error e => .error e

/-- The sum of the values of the strings. -/
def Expr.total : Expr → Nat
  | literal str => Nat.ofDigitChars 10 str.chars 0
  | plus l r => l.total + r.total

theorem ofString_digits (str : DigitString) :
    ∃ ds, BigInt.ofString str.chars = .ok (ofDigitList ds) ∧ (∀ d ∈ ds, d < 10) ∧
      Nat.ofDigits 10 ds = Nat.ofDigitChars 10 str.chars 0 := by
  have hfacts : ∀ c ∈ numeric, Int8.ofNat c.toNat - 0x30 = Int8.ofNat (c.toNat - 48) ∧
      c.toNat - 48 < 10 ∧ Nat.digitChar (c.toNat - 48) = c := by
    decide
  have hlt : ∀ d ∈ (str.chars.map fun c => c.toNat - 48).reverse, d < 10 := by
    intro d hd
    obtain ⟨c, hc, rfl⟩ := List.mem_map.1 (List.mem_reverse.1 hd)
    exact (hfacts c (str.numeric c hc)).2.1
  refine ⟨(str.chars.map fun c => c.toNat - 48).reverse, ?_, hlt, ?_⟩
  · rw [BigInt.ofString, if_pos str.numeric, ofDigitList, List.map_reverse, List.reverse_reverse,
      List.map_map]
    congr 2
    exact List.map_congr_left fun c hc => (hfacts c (str.numeric c hc)).1
  · have hchars : (str.chars.map fun c => c.toNat - 48).map Nat.digitChar = str.chars := by
      rw [List.map_map]
      refine (List.map_congr_left fun c hc => ?_).trans (List.map_id _)
      exact (hfacts c (str.numeric c hc)).2.2
    rw [← ofDigitChars_digits hlt, List.reverse_reverse, hchars]

/-- What `+` does to two numbers given by their digits. -/
theorem add_spec {xs ys : List Nat} (hx : ∀ d ∈ xs, d < 10) (hy : ∀ d ∈ ys, d < 10) :
    ∃ ds, (ofDigitList xs).add (ofDigitList ys) = ofDigitList ds ∧ (∀ d ∈ ds, d < 10) ∧
      Nat.ofDigits 10 ds = Nat.ofDigits 10 xs + Nat.ofDigits 10 ys ∧
      ds.length = max xs.length ys.length +
        if 10 ^ max xs.length ys.length ≤ Nat.ofDigits 10 xs + Nat.ofDigits 10 ys then 1 else 0 :=
  ⟨_, add_ofDigits hx hy, sum_lt hx hy (by decide), ofDigits_sum hx hy,
    length_sum hx hy (by decide)⟩

theorem Expr.eval_digits (e : Expr) :
    ∃ ds, e.eval = .ok (ofDigitList ds) ∧ (∀ d ∈ ds, d < 10) ∧ Nat.ofDigits 10 ds = e.total := by
  induction e with
  | literal str => exact ofString_digits str
  | plus l r ihl ihr =>
    obtain ⟨xs, hl, hx, hxs⟩ := ihl
    obtain ⟨ys, hr, hy, hys⟩ := ihr
    obtain ⟨ds, hadd, hlt, hvalue, -⟩ := add_spec hx hy
    refine ⟨ds, ?_, hlt, by rw [hvalue, hxs, hys, Expr.total]⟩
    rw [Expr.eval, hl, hr]
    exact congrArg Except.ok hadd

/-- **Every expression gives the sum of its strings, digit by digit.** -/
theorem Expr.correct (e : Expr) :
    ∃ n, e.eval = .ok n ∧ (∀ d ∈ n.digits, 0 ≤ d ∧ d ≤ 9) ∧
      Nat.ofDigitChars 10 n.toString 0 = e.total ∧
      ∀ l r, e = .plus l r → ∃ a b, l.eval = .ok a ∧ r.eval = .ok b ∧
        n.digits.length = max a.digits.length b.digits.length +
          if 10 ^ max a.digits.length b.digits.length ≤ l.total + r.total then 1 else 0 := by
  obtain ⟨ds, heval, hlt, hvalue⟩ := e.eval_digits
  refine ⟨ofDigitList ds, heval, digit_ofDigitList hlt, ?_, ?_⟩
  · rw [toString_ofDigits hlt, ofDigitChars_digits hlt, hvalue]
  · rintro l r rfl
    obtain ⟨xs, hl, hx, hxs⟩ := l.eval_digits
    obtain ⟨ys, hr, hy, hys⟩ := r.eval_digits
    obtain ⟨sum, hadd, hsum, -, hlen⟩ := add_spec hx hy
    refine ⟨ofDigitList xs, ofDigitList ys, hl, hr, ?_⟩
    rw [Expr.eval, hl, hr] at heval
    have hsame : ofDigitList sum = ofDigitList ds := hadd.symm.trans (Except.ok.inj heval)
    rw [← hsame, length_ofDigitList, length_ofDigitList, length_ofDigitList, hlen, hxs, hys]

end Ds
