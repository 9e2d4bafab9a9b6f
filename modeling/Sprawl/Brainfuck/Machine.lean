import Sprawl.Lib.Cxx
import Sprawl.Lib.Loop

/-!
# `bfi::Brainfuck` (`brainfuck/brainfuck.h`, `brainfuck/brainfuck.cc`)

The object with its fields, and `Run` as a `Loop`: one turn is one turn of
`while (mStatus == Status::executing)`.  A bracket is found by scanning the code,
forward past the cells `JumpLBrack` skips, backward one place too far in
`JumpRBrack`, which `Run` makes good by its own `++mCodePos`.

`mCode[i]` at `i = mCode.size()` is the terminating NUL; behind it the read is out
of bounds.  `mCodePos` is a `size_t`: below 0 it wraps around.
-/

namespace Bfi

open Cxx Loop

inductive Status
  | error | started | executing | success | failure
deriving DecidableEq, Repr

inductive OutputMode
  | raw | text
deriving DecidableEq, Repr

inductive CursorDirection
  | left | right
deriving DecidableEq, Repr

/-- The fields of the object, with `n` for `mMaxCells`; `cin` is what is left of
`std::cin`. -/
structure Brainfuck (n : Nat) where
  mStatus : Status := .started
  mCellPos : Nat := 0
  mCodePos : Nat := 0
  mCode : Sized Char := ⟨[], by decide⟩
  mCells : Vector UInt8 n := Vector.replicate n 0
  mOutputMode : OutputMode := .text
  mOutputStream : List Char := []
  cin : List Char := []
deriving DecidableEq

/-- The `mMaxCells` of the constructor. -/
def kMaxCells : Nat := 300000

/-- `mCode[i]`. -/
def readCode (code : Sized Char) (i : Nat) : Except Stop Char :=
  readAt (code.elems ++ ['\x00']) i

section
variable {n : Nat} (bf : Brainfuck n)

def Brainfuck.fromString (str : Sized Char) : Brainfuck n := { bf with mCode := str }

/-- `mCells[mCellPos]`. -/
def Brainfuck.cell : Except Stop UInt8 := readAt bf.mCells.toList bf.mCellPos

/-- `mCells[mCellPos] = v`. -/
def Brainfuck.setCell (v : UInt8) : Except Stop (Brainfuck n) :=
  if h : bf.mCellPos < n then .ok { bf with mCells := bf.mCells.set bf.mCellPos v }
  else .error (.undefined .outOfBounds)

def Brainfuck.moveCursor (direction : CursorDirection) : Brainfuck n :=
  match direction with
  | .right =>
    if bf.mCellPos = n - 1 then { bf with mCellPos := 0 }
    else { bf with mCellPos := incr bf.mCellPos }
  | .left =>
    if bf.mCellPos = 0 then { bf with mCellPos := n - 1 }
    else { bf with mCellPos := decr bf.mCellPos }

def Brainfuck.incrCell : Except Stop (Brainfuck n) := do bf.setCell ((← bf.cell) + 1)

def Brainfuck.decrCell : Except Stop (Brainfuck n) := do bf.setCell ((← bf.cell) - 1)

/-- `std::cin >> input` and `mOutputStream << input`. -/
def Brainfuck.inputChar : Brainfuck n :=
  match bf.cin.dropWhile isSpace with
  | [] => { bf with cin := [], mOutputStream := bf.mOutputStream ++ ['\x00'] }
  | input :: cin => { bf with cin, mOutputStream := bf.mOutputStream ++ [input] }

/-- The text of one cell: `std::hex << int(cell)`, or the byte. -/
def render (mode : OutputMode) (cell : UInt8) : List Char :=
  match mode with
  | .text => Nat.toDigits 16 cell.toNat
  | .raw => [Char.ofNat cell.toNat]

def Brainfuck.outputChar : Except Stop (Brainfuck n) := do
  let cell ← bf.cell
  return { bf with mOutputStream := bf.mOutputStream ++ render bf.mOutputMode cell }

end

/-! ## The bracket scans -/

/-- How a bracket changes `skip` in `JumpLBrack`. -/
def skipRight (c : Char) (skip : Nat) : Nat :=
  if c = '[' then skip + 1 else if c = ']' then skip - 1 else skip

/-- How a bracket changes `skip` in `JumpRBrack`. -/
def skipLeft (c : Char) (skip : Nat) : Nat :=
  if c = ']' then skip + 1 else if c = '[' then skip - 1 else skip

theorem readCode_le {code : Sized Char} {i : Nat} {c : Char} (h : readCode code i = .ok c) :
    i ≤ code.elems.length := by
  obtain ⟨hlt, -⟩ := List.getElem?_eq_some_iff.1 (readAt_eq_ok.1 h)
  rw [List.length_append, List.length_singleton] at hlt
  omega

/-- The loop of `JumpLBrack`, entered at `pos`. -/
def scanRight (code : Sized Char) (skip pos : Nat) : Except Stop Nat :=
  if skip = 0 then .ok pos
  else
    match _h : readCode code (incr pos) with
    | .error e => .error e
    | .ok c => scanRight code (skipRight c skip) (incr pos)
termination_by if pos ≤ code.elems.length then code.elems.length - pos else code.elems.length + 1
decreasing_by
  have hle := readCode_le _h
  have hlt := code.size_lt
  unfold incr at hle ⊢
  split_ifs <;> omega

/-- The loop of `JumpRBrack`, entered at `pos`. -/
def scanLeft (code : Sized Char) (skip pos : Nat) : Except Stop Nat :=
  if skip = 0 then .ok pos
  else
    match _h : readCode code pos with
    | .error e => .error e
    | .ok c => scanLeft code (skipLeft c skip) (decr pos)
termination_by if pos ≤ code.elems.length then pos + 1 else 0
decreasing_by
  have hle := readCode_le _h
  have hlt := code.size_lt
  unfold decr
  split_ifs <;> omega

section
variable {n : Nat} (bf : Brainfuck n)

def Brainfuck.jumpLBrack : Except Stop (Brainfuck n) := do
  if (← bf.cell) ≠ 0 then return bf
  let pos ← scanRight bf.mCode 1 bf.mCodePos
  return { bf with mCodePos := pos }

def Brainfuck.jumpRBrack : Except Stop (Brainfuck n) := do
  let pos ← scanLeft bf.mCode 1 (decr bf.mCodePos)
  return { bf with mCodePos := pos }

/-! ## `Run` -/

/-- The `switch` of `Run`. -/
def Brainfuck.dispatch (c : Char) : Except Stop (Brainfuck n) :=
  match c with
  | '+' => bf.incrCell
  | '-' => bf.decrCell
  | '.' => bf.outputChar
  | ',' => .ok bf.inputChar
  | '[' => bf.jumpLBrack
  | ']' => bf.jumpRBrack
  | '>' => .ok (bf.moveCursor .right)
  | '<' => .ok (bf.moveCursor .left)
  | _ => .ok bf

/-- `++mCodePos`, and the check for the end of the code. -/
def Brainfuck.advance : Brainfuck n :=
  let bf := { bf with mCodePos := incr bf.mCodePos }
  if bf.mCodePos > bf.mCode.elems.length then { bf with mStatus := .success } else bf

/-- The body of the loop in `Run`. -/
def Brainfuck.step : Except Stop (Brainfuck n) := do
  let c ← readCode bf.mCode bf.mCodePos
  let bf ← bf.dispatch c
  return bf.advance

def runBody : Turn (Brainfuck n) (Except Stop (Brainfuck n)) :=
  if bf.mStatus = .executing then
    match bf.step with
    | .error e => .done (.error e)
    | .ok bf => .again bf
  else .done (.ok bf)

/-- `Run()` ends with `r`. -/
def Run (r : Except Stop (Brainfuck n)) : Prop :=
  Returns runBody { bf with mStatus := .executing } r

end

end Bfi
