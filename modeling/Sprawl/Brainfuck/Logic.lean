import Sprawl.Brainfuck.Sequence
import Sprawl.Lib.Programs

/-!
# A program logic for the interpreter

The reference semantics is an instance of programs of atoms and loops (`exec_iff_runs`), so
its triples are those of `Programs.Triple`.

    Triple machine (· = .fresh) p.code (Q of the object p leaves)
      ↔ Run of a text of p ends in an object with Q                    (triple_iff_run)

The rules are used on `+…+[->+…+<]>.`, which writes the product of the lengths of its two
rows of `+` (`run_product`).
-/

namespace Bfi

open Cxx Loop Programs

/-! ## The semantics as an instance -/

def Prog.code : Prog → Code Atom
  | .nil => .nil
  | .atom a rest => .atom a rest.code
  | .loop body rest => .loop body.code rest.code

/-- The ring of cells, as a machine for atoms and loops. -/
def machine (n : Nat) [NeZero n] : Machine Atom (Config n) where
  act a t := t.apply a
  guard t := t.cell ≠ 0

section
variable {n : Nat} [NeZero n]

theorem exec_iff_runs {p : Prog} {t t' : Config n} :
    Exec p t t' ↔ Runs (machine n) p.code t t' := by
  constructor
  · intro h
    induction h with
    | nil t => exact .nil t
    | atom _ ih => exact .atom ih
    | loopDone hzero _ ih => exact .loopDone (fun h => h hzero) ih
    | loopAgain hne _ _ ihb ihl => exact .loopAgain hne ihb ihl
  · intro h
    generalize hc : p.code = c at h
    induction h generalizing p with
    | nil t =>
      cases p with
      | nil => exact .nil t
      | atom _ _ => cases hc
      | loop _ _ => cases hc
    | atom _ ih =>
      cases p with
      | nil => cases hc
      | atom a rest =>
        cases hc
        exact .atom (ih rfl)
      | loop _ _ => cases hc
    | loopDone hg _ ih =>
      cases p with
      | nil => cases hc
      | atom _ _ => cases hc
      | loop body rest =>
        cases hc
        exact .loopDone (not_not.1 hg) (ih rfl)
    | loopAgain hg _ _ ihb ihl =>
      cases p with
      | nil => cases hc
      | atom _ _ => cases hc
      | loop body rest =>
        cases hc
        exact .loopAgain hg (ihb rfl) (@ihl (.loop body rest) rfl)

end

/-! ## The interpreter -/

section
variable (mode : OutputMode) (cin : List Char) {str : Sized Char} {p : Prog}

/-- `Run` ends with what the program leaves, and only with that. -/
theorem run_fresh_iff (hp : parse str.elems = some p) (hcomma : ',' ∉ str.elems)
    (r : Except Stop (Brainfuck kMaxCells)) : Run ((fresh mode cin).fromString str) r ↔
      ∃ t, Exec p .fresh t ∧ r = .ok (((fresh mode cin).fromString str).finished t) := by
  constructor
  · intro hrun
    have hat : At ((fresh mode cin).fromString str).mCode.elems 0 str.elems := at_zero [] str.elems
    obtain ⟨k, hk⟩ := hrun
    rw [on_start] at hk
    obtain ⟨t, k', hexec, -, hk'⟩ :=
      exec_of_iterate (by decide) hcomma k (spells_of_parse hp) hat hk
    rw [Nat.zero_add] at hk'
    exact ⟨t, hexec, returns_end.1 ⟨k', hk'⟩⟩
  · rintro ⟨t, hexec, rfl⟩
    exact run_fresh hp hcomma hexec

/-- **The logic proves what the interpreter does, and all of it.** -/
theorem triple_iff_run (hp : parse str.elems = some p) (hcomma : ',' ∉ str.elems)
    (Q : Brainfuck kMaxCells → Prop) :
    Triple (machine kMaxCells) (fun t => t = .fresh) p.code
        (fun t => Q (((fresh mode cin).fromString str).finished t)) ↔
      ∃ bf, Run ((fresh mode cin).fromString str) (.ok bf) ∧ Q bf := by
  rw [triple_iff]
  constructor
  · intro h
    obtain ⟨t, hrun, hQ⟩ := h .fresh rfl
    exact ⟨_, (run_fresh_iff mode cin hp hcomma _).2 ⟨t, exec_iff_runs.2 hrun, rfl⟩, hQ⟩
  · rintro ⟨bf, hrun, hQ⟩ t rfl
    obtain ⟨t, hexec, heq⟩ := (run_fresh_iff mode cin hp hcomma _).1 hrun
    cases heq
    exact ⟨t, exec_iff_runs.1 hexec, hQ⟩

end

/-- `+[-].`: a zero is written. -/
theorem triple_iff_run_loop : Triple (machine kMaxCells) (fun t => t = .fresh)
    (Prog.atom .incr (.loop (.atom .decr .nil) (.atom .output .nil))).code (fun t =>
      (((fresh .text []).fromString ⟨"+[-].".toList, by decide⟩).finished t).mOutputStream =
        ['0']) := by
  refine (triple_iff_run .text [] (by decide) (by decide) fun bf => bf.mOutputStream = ['0']).2 ?_
  have hexec : Exec (.atom .incr (.loop (.atom .decr .nil) (.atom .output .nil))) .fresh
      (((Config.fresh.apply .incr).apply .decr).apply .output) :=
    .atom (.loopAgain (by decide) (.atom (.nil _)) (.loopDone (by decide) (.atom (.nil _))))
  exact ⟨_, run_fresh (by decide) (by decide) hexec, by decide⟩

/-! ## A product -/

/-- `k` times `+`. -/
def pluses : Nat → Prog → Prog
  | 0, rest => rest
  | k + 1, rest => .atom .incr (pluses k rest)

/-- `+…+[->+…+<]>.` with `a` and `b` times `+`. -/
def product (a b : Nat) : Prog :=
  pluses a (.loop (.atom .decr (.atom .right (pluses b (.atom .left .nil))))
    (.atom .right (.atom .output .nil)))

/-- `x` and `y` on the first two cells, the cursor on the first. -/
def work (x y : UInt8) : Config kMaxCells :=
  { cells := Function.update (Function.update (fun _ => 0) 0 x) 1 y, cursor := 0 }

theorem setCell_add (t : Config kMaxCells) (v w : UInt8) :
    (t.setCell v).setCell ((t.setCell v).cell + w) = t.setCell (v + w) := by
  unfold Config.setCell Config.cell
  simp

theorem triple_pluses {R Q : Config kMaxCells → Prop} {rest : Prog} (k : Nat)
    (h : Triple (machine kMaxCells) R rest.code Q) :
    Triple (machine kMaxCells) (fun t => R (t.setCell (t.cell + UInt8.ofNat k)))
      (pluses k rest).code
      Q := by
  induction k with
  | zero =>
    refine .of_pre (fun t ht => ?_) h
    have hset : t.setCell (t.cell + UInt8.ofNat 0) = t := by
      unfold Config.setCell Config.cell
      simp
    rwa [hset] at ht
  | succ k ih =>
    refine .of_pre (fun t ht => ?_) (.atom ih)
    show R ((t.setCell (t.cell + 1)).setCell ((t.setCell (t.cell + 1)).cell + UInt8.ofNat k))
    have hadd : t.cell + 1 + UInt8.ofNat k = t.cell + UInt8.ofNat (k + 1) := by
      rw [UInt8.add_assoc, UInt8.ofNat_add, UInt8.add_comm (UInt8.ofNat k)]
      rfl
    rw [setCell_add, hadd]
    exact ht

section
variable (x y v : UInt8)

theorem fin_one_ne_zero : (1 : Fin kMaxCells) ≠ 0 := by decide

theorem cell_work : (work x y).cell = x := by
  show Function.update (Function.update (fun _ : Fin kMaxCells => (0 : UInt8)) 0 x) 1 y 0 = x
  rw [Function.update_of_ne fin_one_ne_zero.symm, Function.update_self]

theorem setCell_work : (work x y).setCell v = work v y := by
  unfold work Config.setCell
  show Config.mk _ _ _ = _
  rw [Function.update_comm fin_one_ne_zero, Function.update_idem]

/-- The body of the loop, behind its `-`. -/
theorem body_work : ((((work x y).apply .right).setCell
    (((work x y).apply .right).cell + v)).apply .left) = work x (y + v) := by
  have hright : (0 : Fin kMaxCells) + 1 = 1 := by decide
  have hleft : (1 : Fin kMaxCells) - 1 = 0 := by decide
  unfold work Config.setCell Config.cell Config.apply
  simp only [hright, hleft, Function.update_self, Function.update_idem]

end

theorem ofNat_mod (k : Nat) : UInt8.ofNat (k % 256) = UInt8.ofNat k := UInt8.ofNat_mod_size

/-- `j` turns to go: `j` on the first cell, the finished part of the product on the second. -/
def ToGo (a b j : Nat) (t : Config kMaxCells) : Prop :=
  j ≤ a % 256 ∧ t = work (UInt8.ofNat j) (UInt8.ofNat ((a % 256 - j) * b))

section
variable (a b : Nat)

theorem triple_product_body (j : Nat) :
    Triple (machine kMaxCells) (fun t => (machine kMaxCells).guard t ∧ ToGo a b j t)
      (Prog.atom .decr (.atom .right (pluses b (.atom .left .nil)))).code
      (fun t => ∃ i < j, ToGo a b i t) := by
  refine .of_pre ?_ (.atom (.atom (triple_pluses b (.atom (.nil _)))))
  rintro t ⟨hguard, hle, rfl⟩
  obtain ⟨i, rfl⟩ : ∃ i, j = i + 1 := by
    cases j with
    | zero => exact absurd (cell_work _ _) hguard
    | succ i => exact ⟨i, rfl⟩
  refine ⟨i, Nat.lt_succ_self i, by omega, ?_⟩
  have hpred : UInt8.ofNat (i + 1) - 1 = UInt8.ofNat i := by
    rw [UInt8.ofNat_add]
    exact UInt8.add_sub_cancel _ _
  have hmul : (a % 256 - (i + 1)) * b + b = (a % 256 - i) * b := by
    rw [← Nat.succ_mul]
    congr 1
    omega
  show ((((work _ _).setCell _).apply .right).setCell
    ((((work _ _).setCell _).apply .right).cell + _)).apply .left = _
  rw [setCell_work, cell_work, hpred, body_work, ← UInt8.ofNat_add, hmul]

theorem triple_product_end :
    Triple (machine kMaxCells) (fun t => ¬ (machine kMaxCells).guard t ∧ ∃ j, ToGo a b j t)
      (Prog.atom .right (.atom .output .nil)).code (fun t => t.output = [UInt8.ofNat (a * b)]) := by
  refine .of_pre ?_ (.atom (.atom (.nil _)))
  rintro t ⟨hguard, j, hle, rfl⟩
  have hzero : j = 0 := by
    have hcell : UInt8.ofNat j = 0 := by
      rw [← cell_work (UInt8.ofNat j)]
      exact not_not.1 hguard
    have hlt := Nat.mod_lt a (show 0 < 256 by decide)
    have hnat := congrArg UInt8.toNat hcell
    rw [UInt8.toNat_ofNat', Nat.mod_eq_of_lt (by omega)] at hnat
    exact hnat
  subst hzero
  have hval : UInt8.ofNat (a % 256 * b) = UInt8.ofNat (a * b) := by
    rw [UInt8.ofNat_mul, UInt8.ofNat_mul, ofNat_mod]
  have hright : (0 : Fin kMaxCells) + 1 = 1 := by decide
  unfold work machine Config.apply Config.cell
  simp only [hright, Function.update_self, Nat.sub_zero, hval, List.nil_append]

/-- **The product is written.** -/
theorem triple_product : Triple (machine kMaxCells) (fun t => t = .fresh) (product a b).code
    (fun t => t.output = [UInt8.ofNat (a * b)]) := by
  refine .of_pre ?_ (triple_pluses a (.loop (triple_product_body a b) (triple_product_end a b)))
  rintro t rfl
  have hfresh : Config.fresh = work 0 0 := by
    unfold Config.fresh work
    congr 1
    simp
  refine ⟨a % 256, Nat.le_refl _, ?_⟩
  rw [hfresh, setCell_work, cell_work, UInt8.zero_add, Nat.sub_self, Nat.zero_mul, ofNat_mod]
  rfl

end

/-- `Run` of any text of it writes the product. -/
theorem run_product (mode : OutputMode) (cin : List Char) {str : Sized Char} {a b : Nat}
    (hp : parse str.elems = some (product a b)) (hcomma : ',' ∉ str.elems) :
    ∃ bf, Run ((fresh mode cin).fromString str) (.ok bf) ∧
      bf.mOutputStream = render mode (UInt8.ofNat (a * b)) := by
  obtain ⟨t, hrun, hout⟩ := (triple_product a b).runs .fresh rfl
  refine ⟨_, (run_fresh_iff mode cin hp hcomma _).2 ⟨t, exec_iff_runs.2 hrun, rfl⟩, ?_⟩
  show [] ++ t.output.flatMap (render mode) = _
  rw [hout, List.nil_append, List.flatMap_singleton]

end Bfi
