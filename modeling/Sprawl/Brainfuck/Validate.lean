import Sprawl.Lib.Brackets
import Sprawl.Brainfuck.Refinement

/-!
# `Validate`

`Validate` counts: it says success when the text has as many `[` as `]`.  The jumps stay
inside the code exactly when the brackets are nested, which is more: a `]` may stand before
its `[`.

    Validates code ↔ the counts differ, or no prefix has more ] than [      (validates_iff)

where `Validates` says that success means nested, and nested means that the jumps stay
inside.
-/

namespace Bfi

open Cxx Loop Brackets

/-! ## The code -/

/-- The `switch` of `Validate`; the counter is a `size_t`. -/
def validateStep (cursor : Nat) (c : Char) : Nat :=
  if c = '[' then incr cursor else if c = ']' then decr cursor else cursor

/-- `Validate()`. -/
def Brainfuck.validate {n : Nat} (bf : Brainfuck n) : Status :=
  if bf.mCode.elems.foldl validateStep 0 = 0 then .success else .error

/-- `JumpLBrack` at a `[` and `JumpRBrack` at a `]` return, with any cells: every read of
theirs is inside the code or at its end. -/
def JumpsInside (code : Sized Char) : Prop :=
  ∀ bf : Brainfuck kMaxCells, bf.mCode = code → bf.mCellPos < kMaxCells →
    (code.elems[bf.mCodePos]? = some '[' → ∃ bf', bf.jumpLBrack = .ok bf') ∧
      (code.elems[bf.mCodePos]? = some ']' → ∃ bf', bf.jumpRBrack = .ok bf')

/-- Success means that the brackets are nested, and this that the jumps stay inside. -/
structure Validates (code : Sized Char) : Prop where
  success_iff : (load code).validate = .success ↔ nested 0 code.elems = true
  inside_iff : nested 0 code.elems = true ↔ JumpsInside code

/-! ## Weights -/

def bracket (c : Char) : Int := if c = '[' then 1 else if c = ']' then -1 else 0

theorem bracket_range (c : Char) : -1 ≤ bracket c ∧ bracket c ≤ 1 := by
  unfold bracket
  split_ifs <;> omega

theorem bracket_eq_one {c : Char} : bracket c = 1 ↔ c = '[' := by
  unfold bracket
  split_ifs <;> simp_all

theorem bracket_eq_neg_one {c : Char} : bracket c = -1 ↔ c = ']' := by
  unfold bracket
  split_ifs with h1 h2
  · subst h1
    decide
  · simp [h2]
  · simp [h2]

theorem depth_bracket (s : List Char) : depth bracket s = s.count '[' - s.count ']' := by
  induction s with
  | nil => rfl
  | cons c s ih =>
    rw [depth_cons, ih, List.count_cons, List.count_cons, bracket]
    split_ifs <;> simp_all <;> omega

theorem above_nonneg {w : Char → Int} {k : Int} {s : List Char} (h : Above w k s) : 0 ≤ k := by
  simpa using h [] List.nil_prefix

/-- Nested brackets are balanced ones. -/
theorem nested_iff_above (d : Nat) (s : List Char) :
    nested d s = true ↔ Above bracket d s ∧ (d : Int) + depth bracket s = 0 := by
  induction s generalizing d with
  | nil =>
    rw [above_nil, depth_nil]
    simp [nested]
  | cons c s ih =>
    rw [above_cons, depth_cons]
    have hnonneg : (0 : Int) ≤ d := Int.natCast_nonneg d
    by_cases hopen : c = '['
    · subst hopen
      rw [nested_open, ih, show bracket '[' = 1 from rfl, Int.natCast_succ, ← Int.add_assoc,
        and_iff_right hnonneg]
    · by_cases hclose : c = ']'
      · subst hclose
        rw [show bracket ']' = -1 from rfl, ← Int.add_assoc]
        cases d with
        | zero =>
          refine iff_of_false Bool.false_ne_true fun h => ?_
          exact absurd (above_nonneg h.1.2) (by decide)
        | succ d =>
          have hd : ((d + 1 : Nat) : Int) + -1 = d := by omega
          rw [nested_close, ih, hd, and_iff_right hnonneg]
      · have hzero : bracket c = 0 := by rw [bracket, if_neg hopen, if_neg hclose]
        rw [nested_other hopen hclose, ih, hzero, Int.add_zero, Int.zero_add,
          and_iff_right hnonneg]

/-- The two facts of a count that starts at 0. -/
theorem above_zero_iff {w : Char → Int} {s : List Char} :
    Above w (0 : Nat) s ∧ ((0 : Nat) : Int) + depth w s = 0 ↔ Balanced w s :=
  ⟨fun h => ⟨h.1, by simpa using h.2⟩, fun h => ⟨h.above, by simpa using h.depth_eq⟩⟩

theorem nested_iff_balanced (s : List Char) : nested 0 s = true ↔ Balanced bracket s :=
  (nested_iff_above 0 s).trans above_zero_iff

/-! ## The counter -/

theorem validateStep_eq {k : Nat} (hk : k < 2 ^ 64) (c : Char) :
    (validateStep k c : Int) = (k + bracket c) % 2 ^ 64 := by
  unfold validateStep bracket incr decr
  split_ifs <;> omega

/-- The counter is the depth of the text, modulo 2^64. -/
theorem foldl_validateStep (s : List Char) {k : Nat} (hk : k < 2 ^ 64) :
    ((s.foldl validateStep k : Nat) : Int) = (k + depth bracket s) % 2 ^ 64 := by
  induction s generalizing k with
  | nil =>
    rw [depth_nil, List.foldl_nil]
    omega
  | cons c s ih =>
    have hstep := validateStep_eq hk c
    rw [List.foldl_cons, depth_cons, ih (by omega), hstep]
    omega

/-- Success means that there are as many of both. -/
theorem validate_iff (code : Sized Char) :
    (load code).validate = .success ↔ depth bracket code.elems = 0 := by
  have hcursor := foldl_validateStep code.elems (show 0 < 2 ^ 64 by omega)
  have hopen : code.elems.count '[' ≤ code.elems.length := List.count_le_length
  have hclose : code.elems.count ']' ≤ code.elems.length := List.count_le_length
  have hsize := code.size_lt
  have hdepth := depth_bracket code.elems
  show (if code.elems.foldl validateStep 0 = 0 then Status.success else .error) = .success ↔ _
  constructor
  · intro h
    split at h
    · omega
    · cases h
  · intro h
    rw [if_pos]
    omega

/-! ## The scans -/

theorem readCode_behind (code : Sized Char) {i : Nat} (h : code.elems.length < i) :
    readCode code i = .error (.undefined .outOfBounds) := by
  have hnone : (code.elems ++ ['\x00'])[i]? = none := by
    rw [List.getElem?_eq_none_iff, List.length_append, List.length_singleton]
    omega
  unfold readCode readAt
  rw [hnone]

section
variable {code : Sized Char} {k : Nat}

/-- The terminating NUL is read, and then the next place. -/
theorem scanRight_last {pos : Nat} (h : pos + 1 = code.elems.length) :
    scanRight code (k + 1) pos = .error (.undefined .outOfBounds) := by
  have hsize := code.size_lt
  have hpos : incr pos = code.elems.length := by
    rw [incr_of_lt (by omega), h]
  have hbehind : code.elems.length < incr code.elems.length := by
    rw [incr_of_lt (by omega)]
    omega
  rw [scanRight_eq (Nat.succ_ne_zero k), hpos, readCode_end, ok_bind]
  -- a NUL leaves `skip` as it is
  show scanRight code (k + 1) code.elems.length = _
  rw [scanRight_eq (Nat.succ_ne_zero k), readCode_behind code hbehind]
  rfl

theorem skipRight_eq (c : Char) (k : Nat) :
    ((skipRight c (k + 1) : Nat) : Int) = k + 1 + bracket c := by
  unfold skipRight bracket
  split_ifs <;> simp_all

theorem skipLeft_eq (c : Char) (k : Nat) :
    ((skipLeft c (k + 1) : Nat) : Int) = k + 1 + -bracket c := by
  unfold skipLeft bracket
  split_ifs <;> simp_all

/-- **The forward scan ends inside the code exactly when the text behind the bracket closes
it; otherwise it leaves the code.** -/
theorem scanRight_cases {pre s : List Char} (hcode : code.elems = pre ++ s) {pos : Nat}
    (hpos : pos + 1 = pre.length) :
    Above bracket k s ∧ scanRight code (k + 1) pos = .error (.undefined .outOfBounds) ∨
      ¬ Above bracket k s ∧
        ∃ j, scanRight code (k + 1) pos = .ok j ∧ pos < j ∧ j < code.elems.length := by
  induction s generalizing pre pos k with
  | nil =>
    refine .inl ⟨above_nil.2 (Int.natCast_nonneg k), scanRight_last ?_⟩
    rw [hcode, List.append_nil, hpos]
  | cons c s ih =>
    have hread : code.elems[pos + 1]? = some c := by
      rw [hcode, hpos]
      simp
    have hstep := scanRight_step hread (Nat.succ_ne_zero k)
    have hskip := skipRight_eq c k
    rw [hstep, above_cons, and_iff_right (Int.natCast_nonneg k)]
    cases hk : skipRight c (k + 1) with
    | zero =>
      refine .inr ⟨fun h => ?_, pos + 1, scanRight_zero _, Nat.lt_succ_self _, (pos_lt hread).1⟩
      have hnonneg := above_nonneg h
      omega
    | succ k' =>
      have hnext : (k : Int) + bracket c = k' := by omega
      have hlen : pos + 1 + 1 = (pre ++ [c]).length := by
        rw [List.length_append, hpos, List.length_singleton]
      rw [hnext]
      rcases ih (show code.elems = (pre ++ [c]) ++ s by rw [hcode]; simp) hlen with
        hout | ⟨hnot, j, hj, hlt, hin⟩
      · exact .inl hout
      · exact .inr ⟨hnot, j, hj, by omega, hin⟩

/-- **The backward scan, the same with the text in front of the bracket.** -/
theorem scanLeft_cases {r post : List Char} (hcode : code.elems = r.reverse ++ post) :
    Above (fun c => -bracket c) k r ∧
        scanLeft code (k + 1) (decr r.length) = .error (.undefined .outOfBounds) ∨
      ¬ Above (fun c => -bracket c) k r ∧
        ∃ i, scanLeft code (k + 1) (decr r.length) = .ok (decr i) ∧ i < r.length := by
  induction r generalizing post k with
  | nil =>
    have hsize := code.size_lt
    -- the position wraps below zero
    have hbehind : code.elems.length < decr 0 := by
      unfold decr
      omega
    refine .inl ⟨above_nil.2 (Int.natCast_nonneg k), ?_⟩
    rw [List.length_nil, scanLeft_eq (Nat.succ_ne_zero k), readCode_behind code hbehind]
    rfl
  | cons c r ih =>
    have hread : code.elems[r.length]? = some c := by
      rw [hcode, ← List.length_reverse]
      simp
    have hstep := scanLeft_step hread (Nat.succ_ne_zero k)
    have hskip := skipLeft_eq c k
    rw [List.length_cons, decr_succ (pos_lt hread).2, hstep, above_cons,
      and_iff_right (Int.natCast_nonneg k)]
    cases hk : skipLeft c (k + 1) with
    | zero =>
      refine .inr ⟨fun h => ?_, r.length, scanLeft_zero _, Nat.lt_succ_self _⟩
      have hnonneg := above_nonneg h
      omega
    | succ k' =>
      have hnext : (k : Int) + -bracket c = k' := by omega
      rw [hnext]
      rcases ih (show code.elems = r.reverse ++ c :: post by rw [hcode]; simp) with
        hout | ⟨hnot, i, hi, hlt⟩
      · exact .inl hout
      · exact .inr ⟨hnot, i, hi, by omega⟩

end

/-! ## Partners -/

/-- The bracket at `i` is closed behind it. -/
def ClosedBehind (code : List Char) (i : Nat) : Prop := Closed bracket (code.drop (i + 1))

/-- The bracket at `i` closes one in front of it. -/
def OpenedBefore (code : List Char) (i : Nat) : Prop :=
  Closed (fun c => -bracket c) (code.take i).reverse

theorem bracket_ge (c : Char) : -1 ≤ bracket c := (bracket_range c).1

theorem neg_bracket_ge (c : Char) : -1 ≤ -bracket c := by
  have h := bracket_range c
  omega

section
variable {code : Sized Char} {i : Nat}

/-- From a bracket the forward scan finds the partner, or leaves the code. -/
theorem scanRight_at (hi : i < code.elems.length) :
    ClosedBehind code.elems i ∧ (∃ j, scanRight code 1 i = .ok j ∧ j < code.elems.length) ∨
      ¬ ClosedBehind code.elems i ∧ scanRight code 1 i = .error (.undefined .outOfBounds) := by
  have hcases := @scanRight_cases code 0 _ _ (List.take_append_drop (i + 1) code.elems).symm i
    (by rw [List.length_take]; omega)
  unfold ClosedBehind
  rw [closed_iff bracket_ge, not_not]
  rcases hcases with hout | ⟨hnot, j, hj, -, hin⟩
  · exact .inr hout
  · exact .inl ⟨hnot, j, hj, hin⟩

theorem scanLeft_at (hi : i < code.elems.length) :
    OpenedBefore code.elems i ∧
        (∃ j, scanLeft code 1 (decr i) = .ok (decr j) ∧ j < code.elems.length) ∨
      ¬ OpenedBefore code.elems i ∧
        scanLeft code 1 (decr i) = .error (.undefined .outOfBounds) := by
  have hcases := @scanLeft_cases code 0 (code.elems.take i).reverse (code.elems.drop i) (by simp)
  have hlen : (code.elems.take i).reverse.length = i := by
    rw [List.length_reverse, List.length_take]
    omega
  rw [hlen] at hcases
  unfold OpenedBefore
  rw [closed_iff neg_bracket_ge, not_not]
  rcases hcases with hout | ⟨hnot, j, hj, hlt⟩
  · exact .inr hout
  · exact .inl ⟨hnot, j, hj, by omega⟩

theorem scanRight_closed (hi : i < code.elems.length) (h : ClosedBehind code.elems i) :
    ∃ j, scanRight code 1 i = .ok j ∧ j < code.elems.length := by
  rcases scanRight_at hi with ⟨-, hscan⟩ | ⟨hnot, -⟩
  · exact hscan
  · exact absurd h hnot

theorem scanRight_not_closed (hi : i < code.elems.length) (h : ¬ ClosedBehind code.elems i) :
    scanRight code 1 i = .error (.undefined .outOfBounds) := by
  rcases scanRight_at hi with ⟨hclosed, -⟩ | ⟨-, hscan⟩
  · exact absurd hclosed h
  · exact hscan

theorem scanLeft_opened (hi : i < code.elems.length) (h : OpenedBefore code.elems i) :
    ∃ j, scanLeft code 1 (decr i) = .ok (decr j) ∧ j < code.elems.length := by
  rcases scanLeft_at hi with ⟨-, hscan⟩ | ⟨hnot, -⟩
  · exact hscan
  · exact absurd h hnot

theorem scanLeft_not_opened (hi : i < code.elems.length) (h : ¬ OpenedBefore code.elems i) :
    scanLeft code 1 (decr i) = .error (.undefined .outOfBounds) := by
  rcases scanLeft_at hi with ⟨hopened, -⟩ | ⟨-, hscan⟩
  · exact absurd hopened h
  · exact hscan

end

theorem split_at {code : List Char} {i : Nat} {c : Char} (h : code[i]? = some c) :
    code = code.take i ++ c :: code.drop (i + 1) := by
  obtain ⟨hlt, rfl⟩ := List.getElem?_eq_some_iff.1 h
  rw [← List.drop_eq_getElem_cons hlt, List.take_append_drop]

/-- **Brackets are nested exactly when each has its partner.** -/
theorem nested_iff_partners (code : List Char) :
    nested 0 code = true ↔ (∀ i, code[i]? = some '[' → ClosedBehind code i) ∧
      ∀ i, code[i]? = some ']' → OpenedBefore code i := by
  rw [nested_iff_balanced, balanced_iff_matched bracket_range]
  constructor
  · rintro ⟨hopen, hclose⟩
    exact ⟨fun i hi => hopen _ _ _ (split_at hi) rfl, fun i hi => hclose _ _ _ (split_at hi) rfl⟩
  · rintro ⟨hopen, hclose⟩
    refine ⟨?_, ?_⟩
    · rintro pre c post rfl hc
      obtain rfl := bracket_eq_one.1 hc
      have hpost := hopen pre.length (by simp)
      unfold ClosedBehind at hpost
      rwa [List.drop_append, List.drop_eq_nil_of_le (by omega), Nat.add_sub_cancel_left] at hpost
    · rintro pre c post rfl hc
      obtain rfl := bracket_eq_neg_one.1 hc
      have hpre := hclose pre.length (by simp)
      unfold OpenedBefore at hpre
      rwa [List.take_left] at hpre

/-! ## The jumps -/

section
variable {n : Nat} {bf : Brainfuck n}

theorem cell_of_lt (h : bf.mCellPos < n) : bf.cell = .ok bf.mCells[bf.mCellPos] := by
  unfold Brainfuck.cell
  rw [readAt_eq_ok]
  simp [h]

theorem jumpLBrack_nonzero {v : UInt8} (hcell : bf.cell = .ok v) (hv : v ≠ 0) :
    bf.jumpLBrack = .ok bf := by
  unfold Brainfuck.jumpLBrack
  rw [hcell, ok_bind]
  simp only [if_pos hv]
  rfl

theorem jumpLBrack_zero (hcell : bf.cell = .ok 0) :
    bf.jumpLBrack =
      (scanRight bf.mCode 1 bf.mCodePos).map fun pos => { bf with mCodePos := pos } := by
  unfold Brainfuck.jumpLBrack
  rw [hcell, ok_bind]
  simp only [ne_eq, not_true_eq_false, if_false]
  cases scanRight bf.mCode 1 bf.mCodePos <;> rfl

theorem jumpRBrack_eq :
    bf.jumpRBrack =
      (scanLeft bf.mCode 1 (decr bf.mCodePos)).map fun pos => { bf with mCodePos := pos } := by
  unfold Brainfuck.jumpRBrack
  cases scanLeft bf.mCode 1 (decr bf.mCodePos) <;> rfl

end

/-- A fresh object in front of the character at `i`. -/
def loadAt (code : Sized Char) (i : Nat) : Brainfuck kMaxCells := { load code with mCodePos := i }

theorem loadAt_cell (code : Sized Char) (i : Nat) : (loadAt code i).cell = .ok 0 := by
  rw [cell_of_lt (show (loadAt code i).mCellPos < kMaxCells from NeZero.pos _)]
  simp [loadAt, load, Brainfuck.fromString]

/-- **The jumps stay inside the code exactly when the brackets are nested.** -/
theorem nested_iff_jumpsInside (code : Sized Char) :
    nested 0 code.elems = true ↔ JumpsInside code := by
  rw [nested_iff_partners]
  constructor
  · rintro ⟨hopen, hclose⟩ bf rfl hcell
    refine ⟨fun hi => ?_, fun hi => ?_⟩
    · by_cases hzero : bf.mCells[bf.mCellPos] = 0
      · obtain ⟨j, hj, -⟩ := scanRight_closed (pos_lt hi).1 (hopen _ hi)
        rw [jumpLBrack_zero (by rw [cell_of_lt hcell, hzero]), hj]
        exact ⟨_, rfl⟩
      · exact ⟨bf, jumpLBrack_nonzero (cell_of_lt hcell) hzero⟩
    · obtain ⟨j, hj, -⟩ := scanLeft_opened (pos_lt hi).1 (hclose _ hi)
      rw [jumpRBrack_eq, hj]
      exact ⟨_, rfl⟩
  · intro hinside
    have hpos : ∀ i, (loadAt code i).mCellPos < kMaxCells := fun _ => NeZero.pos _
    have hcode : ∀ i, (loadAt code i).mCode = code := fun _ => rfl
    have hat : ∀ i, (loadAt code i).mCodePos = i := fun _ => rfl
    refine ⟨fun i hi => ?_, fun i hi => ?_⟩
    · obtain ⟨bf', hjump⟩ := (hinside (loadAt code i) rfl (hpos i)).1 hi
      by_contra hnot
      -- on a fresh tape the jump is made
      rw [jumpLBrack_zero (loadAt_cell code i), hcode, hat,
        scanRight_not_closed (pos_lt hi).1 hnot] at hjump
      cases hjump
    · obtain ⟨bf', hjump⟩ := (hinside (loadAt code i) rfl (hpos i)).2 hi
      by_contra hnot
      rw [jumpRBrack_eq, hcode, hat, scanLeft_not_opened (pos_lt hi).1 hnot] at hjump
      cases hjump

/-! ## What `Validate` sees -/

/-- No prefix has more `]` than `[`. -/
def ClosesInOrder (code : List Char) : Prop := ∀ p, p <+: code → p.count ']' ≤ p.count '['

theorem closesInOrder_iff (code : List Char) : ClosesInOrder code ↔ Above bracket 0 code := by
  refine forall₂_congr fun p _ => ?_
  rw [depth_bracket]
  omega

/-- **`Validate` is right exactly when the counts differ or every `]` comes after its `[`.** -/
theorem validates_iff (code : Sized Char) :
    Validates code ↔ code.elems.count '[' ≠ code.elems.count ']' ∨ ClosesInOrder code.elems := by
  have hdepth := depth_bracket code.elems
  rw [closesInOrder_iff]
  constructor
  · rintro ⟨hsuccess, -⟩
    by_cases hcount : code.elems.count '[' = code.elems.count ']'
    · have hnested := hsuccess.1 ((validate_iff code).2 (by omega))
      exact .inr ((nested_iff_balanced _).1 hnested).above
    · exact .inl hcount
  · intro h
    refine ⟨?_, nested_iff_jumpsInside code⟩
    rw [validate_iff, nested_iff_balanced]
    constructor
    · intro hzero
      rcases h with hcount | habove
      · omega
      · exact ⟨habove, hzero⟩
    · exact Balanced.depth_eq

/-- A loop that is closed before it is opened. -/
def crossed : Sized Char := ⟨"][".toList, by decide⟩

theorem not_validates : ¬ ∀ code, Validates code := by
  intro h
  have hsuccess : (load crossed).validate = .success := by
    rw [validate_iff]
    rfl
  exact absurd ((h crossed).success_iff.1 hsuccess) (by decide)

end Bfi
