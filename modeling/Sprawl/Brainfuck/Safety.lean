import Sprawl.Brainfuck.Validate

/-!
# Reads inside the code and the cells

`main` runs a file without `Validate`, and the scans have no bound of their own: a bracket
without a partner sends them out of the code, but only when the run gets to it, and a `[`
only on a zero cell.

    Safe str cin ↔ every state reached is Guarded      (safe_iff)

`dispatch_acts` says once what a character does to the object (`Acts`); the invariant of the
run (`Inside`) and the facts about its output rest on it.
-/

namespace Bfi

open Cxx Loop Brackets

/-- The object when `Run` enters its loop. -/
def start (str : Sized Char) (mode : OutputMode) (cin : List Char) : Brainfuck kMaxCells :=
  { load str with mStatus := .executing, mOutputMode := mode, cin }

/-- No turn of `Run` reads `mCode` or `mCells` out of bounds; `main` writes text. -/
def Safe (str : Sized Char) (cin : List Char) : Prop :=
  ∀ bf e, Reach runBody (start str .text cin) bf → runBody bf ≠ .done (.error e)

section
variable {n : Nat} (bf : Brainfuck n)

/-- The object does not stand at a bracket that jumps and has no partner. -/
structure Guarded : Prop where
  opening : bf.mCode.elems[bf.mCodePos]? = some '[' → bf.cell = .ok 0 →
    ClosedBehind bf.mCode.elems bf.mCodePos
  closing : bf.mCode.elems[bf.mCodePos]? = some ']' → OpenedBefore bf.mCode.elems bf.mCodePos

/-- What the `switch` does on a character. -/
inductive Acts : Char → Brainfuck n → Prop
  | change {c : Char} {v : UInt8} (h : bf.mCellPos < n) : c = '+' ∨ c = '-' →
      Acts c { bf with mCells := bf.mCells.set bf.mCellPos v }
  | output {v : UInt8} : bf.cell = .ok v →
      Acts '.' { bf with mOutputStream := bf.mOutputStream ++ render bf.mOutputMode v }
  | input : Acts ',' bf.inputChar
  | jump {c : Char} {pos : Nat} : c = '[' ∨ c = ']' → Acts c { bf with mCodePos := pos }
  | move {c : Char} {pos : Nat} : c = '>' ∨ c = '<' → pos < n → Acts c { bf with mCellPos := pos }
  | comment {c : Char} : IsComment c → Acts c bf

end

/-! ## One character -/

section
variable {n : Nat} {bf : Brainfuck n}

theorem setCell_of_lt (h : bf.mCellPos < n) (v : UInt8) :
    bf.setCell v = .ok { bf with mCells := bf.mCells.set bf.mCellPos v } := dif_pos h

theorem moveCursor_right (hn : n < 2 ^ 63) (h : bf.mCellPos < n) :
    ∃ pos, bf.moveCursor .right = { bf with mCellPos := pos } ∧ pos < n := by
  unfold Brainfuck.moveCursor
  by_cases hlast : bf.mCellPos = n - 1
  · exact ⟨0, if_pos hlast, by omega⟩
  · refine ⟨incr bf.mCellPos, if_neg hlast, ?_⟩
    rw [incr_of_lt (by omega)]
    omega

theorem moveCursor_left (hn : n < 2 ^ 63) (h : bf.mCellPos < n) :
    ∃ pos, bf.moveCursor .left = { bf with mCellPos := pos } ∧ pos < n := by
  unfold Brainfuck.moveCursor
  by_cases hfirst : bf.mCellPos = 0
  · exact ⟨n - 1, if_pos hfirst, by omega⟩
  · obtain ⟨i, hi⟩ : ∃ i, bf.mCellPos = i + 1 := ⟨bf.mCellPos - 1, by omega⟩
    refine ⟨decr bf.mCellPos, if_neg hfirst, ?_⟩
    rw [hi, decr_succ (by omega)]
    omega

theorem jumpLBrack_acts (hcell : bf.mCellPos < n) (hread : bf.mCode.elems[bf.mCodePos]? = some '[')
    (hg : Guarded bf) : ∃ bf', bf.jumpLBrack = .ok bf' ∧ Acts bf '[' bf' := by
  by_cases hzero : bf.mCells[bf.mCellPos] = 0
  · have hcell0 : bf.cell = .ok 0 := by rw [cell_of_lt hcell, hzero]
    obtain ⟨j, hj, -⟩ := scanRight_closed (pos_lt hread).1 (hg.opening hread hcell0)
    rw [jumpLBrack_zero hcell0, hj]
    exact ⟨_, rfl, .jump (.inl rfl)⟩
  · rw [jumpLBrack_nonzero (cell_of_lt hcell) hzero]
    exact ⟨bf, rfl, .jump (.inl rfl)⟩

theorem jumpRBrack_acts (hread : bf.mCode.elems[bf.mCodePos]? = some ']') (hg : Guarded bf) :
    ∃ bf', bf.jumpRBrack = .ok bf' ∧ Acts bf ']' bf' := by
  obtain ⟨j, hj, -⟩ := scanLeft_opened (pos_lt hread).1 (hg.closing hread)
  rw [jumpRBrack_eq, hj]
  exact ⟨_, rfl, .jump (.inr rfl)⟩

/-- **What a character does.** -/
theorem dispatch_acts (hn : n < 2 ^ 63) (hcell : bf.mCellPos < n) {c : Char}
    (hread : readCode bf.mCode bf.mCodePos = .ok c) (hg : Guarded bf) :
    ∃ bf', bf.dispatch c = .ok bf' ∧ Acts bf c bf' := by
  -- a bracket that is read is one of the text, not the terminating NUL
  have htext : c ≠ '\x00' → bf.mCode.elems[bf.mCodePos]? = some c := by
    intro hne
    have hle := readCode_le hread
    rcases Nat.lt_or_eq_of_le hle with hlt | heq
    · unfold readCode at hread
      rwa [readAt_eq_ok, List.getElem?_append_left hlt] at hread
    · rw [heq, readCode_end] at hread
      cases hread
      exact absurd rfl hne
  have hval := cell_of_lt hcell
  unfold Brainfuck.dispatch
  split
  · unfold Brainfuck.incrCell
    rw [hval, ok_bind, setCell_of_lt hcell]
    exact ⟨_, rfl, .change hcell (.inl rfl)⟩
  · unfold Brainfuck.decrCell
    rw [hval, ok_bind, setCell_of_lt hcell]
    exact ⟨_, rfl, .change hcell (.inr rfl)⟩
  · unfold Brainfuck.outputChar
    rw [hval, ok_bind]
    exact ⟨_, rfl, .output hval⟩
  · exact ⟨_, rfl, .input⟩
  · exact jumpLBrack_acts hcell (htext (by decide)) hg
  · exact jumpRBrack_acts (htext (by decide)) hg
  · obtain ⟨pos, hmove, hpos⟩ := moveCursor_right hn hcell
    rw [hmove]
    exact ⟨_, rfl, .move (.inl rfl) hpos⟩
  · obtain ⟨pos, hmove, hpos⟩ := moveCursor_left hn hcell
    rw [hmove]
    exact ⟨_, rfl, .move (.inr rfl) hpos⟩
  · next h1 h2 h3 h4 h5 h6 h7 h8 =>
    refine ⟨_, rfl, .comment ⟨?_, h5, h6, h4⟩⟩
    unfold atomOf
    split
    · exact absurd rfl h1
    · exact absurd rfl h2
    · exact absurd rfl h3
    · exact absurd rfl h7
    · exact absurd rfl h8
    · rfl

/-- A character goes to the output, whether or not there is one. -/
theorem inputChar_eq (bf : Brainfuck n) : ∃ cin c, bf.inputChar =
    { bf with cin, mOutputStream := bf.mOutputStream ++ [c] } := by
  unfold Brainfuck.inputChar
  split
  · exact ⟨_, _, rfl⟩
  · exact ⟨_, _, rfl⟩

/-- What every character leaves as it is. -/
theorem Acts.frame {c : Char} {bf' : Brainfuck n} (h : Acts bf c bf') :
    bf'.mCode = bf.mCode ∧ bf'.mStatus = bf.mStatus ∧ bf'.mOutputMode = bf.mOutputMode := by
  cases h with
  | input =>
    obtain ⟨cin, c, hinput⟩ := inputChar_eq bf
    rw [hinput]
    exact ⟨rfl, rfl, rfl⟩
  | _ => exact ⟨rfl, rfl, rfl⟩

/-- The cursor stays on the cells. -/
theorem Acts.cellPos_lt {c : Char} {bf' : Brainfuck n} (h : Acts bf c bf')
    (hcell : bf.mCellPos < n) :
    bf'.mCellPos < n := by
  cases h with
  | input =>
    obtain ⟨cin, c, hinput⟩ := inputChar_eq bf
    rw [hinput]
    exact hcell
  | move _ hmove => exact hmove
  | _ => exact hcell

/-! ## One turn -/

/-- The object runs `str` with its cursor on the cells and its position in the code. -/
structure Inside (str : Sized Char) (bf : Brainfuck n) : Prop where
  code_eq : bf.mCode = str
  cell_lt : bf.mCellPos < n
  pos_le : bf.mStatus = .executing → bf.mCodePos ≤ str.elems.length

theorem readCode_ok {code : Sized Char} {i : Nat} (h : i ≤ code.elems.length) :
    ∃ c, readCode code i = .ok c := by
  have hlt : i < (code.elems ++ ['\x00']).length := by
    rw [List.length_append, List.length_singleton]
    omega
  exact ⟨_, readAt_eq_ok.2 (List.getElem?_eq_getElem hlt)⟩

variable {str : Sized Char}

/-- **A turn that is guarded does what its character says.** -/
theorem runBody_acts (hn : n < 2 ^ 63) (h : Inside str bf) (hexec : bf.mStatus = .executing)
    (hg : Guarded bf) : ∃ c bf', readCode bf.mCode bf.mCodePos = .ok c ∧ Acts bf c bf' ∧
      runBody bf = .again bf'.advance := by
  obtain ⟨c, hread⟩ := readCode_ok (h.pos_le hexec)
  rw [← h.code_eq] at hread
  obtain ⟨bf', hdispatch, hacts⟩ := dispatch_acts hn h.cell_lt hread hg
  refine ⟨c, bf', hread, hacts, ?_⟩
  have hstep : bf.step = .ok bf'.advance := by
    unfold Brainfuck.step
    rw [hread, ok_bind, hdispatch, ok_bind]
    rfl
  unfold runBody
  rw [if_pos hexec, hstep]

theorem advance_inside {bf' : Brainfuck n} (hcode : bf'.mCode = str) (hcell : bf'.mCellPos < n) :
    Inside str bf'.advance := by
  unfold Brainfuck.advance
  by_cases hend : incr bf'.mCodePos > bf'.mCode.elems.length
  · simp only [if_pos hend]
    exact ⟨hcode, hcell, fun h => by cases h⟩
  · simp only [if_neg hend]
    refine ⟨hcode, hcell, fun _ => ?_⟩
    rw [← hcode]
    exact Nat.le_of_not_lt hend

/-- A turn keeps the invariant. -/
theorem Acts.inside {c : Char} {bf' : Brainfuck n} (hacts : Acts bf c bf') (h : Inside str bf) :
    Inside str bf'.advance := by
  obtain ⟨hcode, -, -⟩ := hacts.frame
  exact advance_inside (hcode.trans h.code_eq) (hacts.cellPos_lt h.cell_lt)

/-- A turn that is not guarded leaves the code. -/
theorem runBody_unguarded (hexec : bf.mStatus = .executing) (hg : ¬ Guarded bf) :
    runBody bf = .done (.error (.undefined .outOfBounds)) := by
  have hstop : ∀ {c : Char}, bf.mCode.elems[bf.mCodePos]? = some c →
      bf.dispatch c = .error (.undefined .outOfBounds) →
      runBody bf = .done (.error (.undefined .outOfBounds)) := by
    intro c hread hdispatch
    have hstep : bf.step = .error (.undefined .outOfBounds) := by
      unfold Brainfuck.step
      rw [readCode_of hread, ok_bind, hdispatch]
      rfl
    unfold runBody
    rw [if_pos hexec, hstep]
  by_cases hopening : bf.mCode.elems[bf.mCodePos]? = some '[' ∧ bf.cell = .ok 0 ∧
      ¬ ClosedBehind bf.mCode.elems bf.mCodePos
  · obtain ⟨hread, hzero, hnot⟩ := hopening
    refine hstop hread ?_
    show bf.jumpLBrack = _
    rw [jumpLBrack_zero hzero, scanRight_not_closed (pos_lt hread).1 hnot]
    rfl
  · by_cases hclosing : bf.mCode.elems[bf.mCodePos]? = some ']' ∧
        ¬ OpenedBefore bf.mCode.elems bf.mCodePos
    · obtain ⟨hread, hnot⟩ := hclosing
      refine hstop hread ?_
      show bf.jumpRBrack = _
      rw [jumpRBrack_eq, scanLeft_not_opened (pos_lt hread).1 hnot]
      rfl
    · refine absurd ⟨fun hread hzero => ?_, fun hread => ?_⟩ hg
      · by_contra hnot
        exact hopening ⟨hread, hzero, hnot⟩
      · by_contra hnot
        exact hclosing ⟨hread, hnot⟩

theorem runBody_stopped (h : bf.mStatus ≠ .executing) : runBody bf = .done (.ok bf) := if_neg h

/-- **A turn that goes round again was guarded, and did what its character says.** -/
theorem acts_of_again (hn : n < 2 ^ 63) (h : Inside str bf) {bf' : Brainfuck n}
    (hturn : runBody bf = .again bf') : bf.mStatus = .executing ∧
      ∃ c bf₁, readCode bf.mCode bf.mCodePos = .ok c ∧ Acts bf c bf₁ ∧ bf' = bf₁.advance := by
  have hexec : bf.mStatus = .executing := by
    by_contra hnot
    rw [runBody_stopped hnot] at hturn
    cases hturn
  have hg : Guarded bf := by
    by_contra hnot
    rw [runBody_unguarded hexec hnot] at hturn
    cases hturn
  obtain ⟨c, bf₁, hread, hacts, hagain⟩ := runBody_acts hn h hexec hg
  rw [hturn] at hagain
  cases hagain
  exact ⟨hexec, c, bf₁, hread, hacts, rfl⟩

end

/-! ## The run -/

theorem start_inside (str : Sized Char) (mode : OutputMode) (cin : List Char) :
    Inside str (start str mode cin) :=
  ⟨rfl, NeZero.pos _, fun _ => Nat.zero_le _⟩

/-- Only a guarded turn goes round again, so every state that is reached is inside. -/
theorem reach_inside {str : Sized Char} {mode : OutputMode} {cin : List Char}
    {bf : Brainfuck kMaxCells} (h : Reach runBody (start str mode cin) bf) : Inside str bf := by
  induction h with
  | refl => exact start_inside str mode cin
  | tail _ hturn ih =>
    obtain ⟨-, c, bf₁, -, hacts, rfl⟩ := acts_of_again (by decide) ih hturn
    exact hacts.inside ih

/-- **A run reads inside the code and the cells exactly when every state it reaches is
guarded.** -/
theorem safe_iff (str : Sized Char) (cin : List Char) :
    Safe str cin ↔ ∀ bf, Reach runBody (start str .text cin) bf → bf.mStatus = .executing →
      Guarded bf := by
  constructor
  · intro hsafe bf hreach hexec
    by_contra hg
    exact hsafe bf _ hreach (runBody_unguarded hexec hg)
  · intro hguarded bf e hreach hdone
    by_cases hexec : bf.mStatus = .executing
    · obtain ⟨_, _, -, -, hturn⟩ :=
        runBody_acts (by decide) (reach_inside hreach) hexec (hguarded bf hreach hexec)
      rw [hdone] at hturn
      cases hturn
    · rw [runBody_stopped hexec] at hdone
      cases hdone

/-- A `[` alone, on a fresh tape. -/
def unclosed : Sized Char := ⟨"[".toList, by decide⟩

theorem not_safe : ¬ ∀ str cin, Safe str cin := by
  intro h
  have hg : ¬ Guarded (start unclosed .text []) := by
    intro hg
    obtain ⟨b, c, post, hsplit, -, -⟩ := hg.opening rfl (loadAt_cell unclosed 0)
    simp [start, load, Brainfuck.fromString, unclosed] at hsplit
  exact h unclosed [] _ _ (.refl _) (runBody_unguarded rfl hg)

end Bfi
