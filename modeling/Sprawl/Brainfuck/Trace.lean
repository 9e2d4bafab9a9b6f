import Sprawl.Brainfuck.Safety

/-!
# Input and output

The output should be the cells written so far, and input should go to the current cell.
`InputChar` reads a character and writes it to the output; the cell stays as it is.

    FaithfulIO str mode cin ↔ no turn of the run is at a ,      (faithfulIO_iff)

`Traced` is a run with the cells its `.` turns have seen.
-/

namespace Bfi

open Cxx Loop

section
variable {n : Nat}

/-- The cell a `.` turn writes; no other turn writes one. -/
def Brainfuck.written (bf : Brainfuck n) : List UInt8 :=
  if readCode bf.mCode bf.mCodePos = .ok '.' then bf.cell.toOption.toList else []

/-- Some turns lead from `bf₀` to the object, and their `.` saw these cells. -/
inductive Traced (bf₀ : Brainfuck n) : Brainfuck n → List UInt8 → Prop
  | start : Traced bf₀ bf₀ []
  | turn {bf bf' : Brainfuck n} {outs : List UInt8} :
      Traced bf₀ bf outs → runBody bf = .again bf' → Traced bf₀ bf' (outs ++ bf.written)

/-- The character is in the current cell; the other cells, the cursor and the output are
as before. -/
structure Stores (bf bf' : Brainfuck n) (input : Char) : Prop where
  cells_eq : bf'.mCells.toList = bf.mCells.toList.set bf.mCellPos (UInt8.ofNat input.toNat)
  cellPos_eq : bf'.mCellPos = bf.mCellPos
  output_eq : bf'.mOutputStream = bf.mOutputStream

/-- The next turn is a `,`. -/
def Brainfuck.AtInput (bf : Brainfuck n) : Prop :=
  bf.mStatus = .executing ∧ readCode bf.mCode bf.mCodePos = .ok ','

end

/-- At every point of the run the output is what the `.` turns wrote, and a `,` turn that
gets a character stores it. -/
structure FaithfulIO (str : Sized Char) (mode : OutputMode) (cin : List Char) : Prop where
  output : ∀ bf outs, Traced (start str mode cin) bf outs →
    bf.mOutputStream = outs.flatMap (render mode)
  input : ∀ bf bf', Reach runBody (start str mode cin) bf → bf.AtInput → runBody bf = .again bf' →
    ∀ input rest, bf.cin.dropWhile isSpace = input :: rest → Stores bf bf' input

/-! ## Runs with their trace -/

section
variable {n : Nat} {bf₀ bf bf' : Brainfuck n} {outs : List UInt8}

theorem Traced.reach (h : Traced bf₀ bf outs) : Reach runBody bf₀ bf := by
  induction h with
  | start => exact .refl _
  | turn _ hturn ih => exact ih.trans (.single hturn)

theorem exists_traced (h : Reach runBody bf₀ bf) : ∃ outs, Traced bf₀ bf outs := by
  induction h with
  | refl => exact ⟨[], .start⟩
  | tail _ hturn ih =>
    obtain ⟨outs, htraced⟩ := ih
    exact ⟨_, .turn htraced hturn⟩

theorem advance_output (bf : Brainfuck n) : bf.advance.mOutputStream = bf.mOutputStream := by
  unfold Brainfuck.advance
  simp only
  split <;> rfl

theorem advance_mode (bf : Brainfuck n) : bf.advance.mOutputMode = bf.mOutputMode := by
  unfold Brainfuck.advance
  simp only
  split <;> rfl

/-- A `,` turn. -/
theorem runBody_input (h : bf.AtInput) : runBody bf = .again bf.inputChar.advance := by
  obtain ⟨hexec, hread⟩ := h
  have hstep : bf.step = .ok bf.inputChar.advance := by
    unfold Brainfuck.step
    rw [hread, ok_bind]
    rfl
  unfold runBody
  rw [if_pos hexec, hstep]

/-- **A turn appends what its `.` writes, unless it is a `,`.** -/
theorem Acts.output_eq {c : Char} (h : Acts bf c bf')
    (hread : readCode bf.mCode bf.mCodePos = .ok c) (hc : c ≠ ',') :
    bf'.mOutputStream = bf.mOutputStream ++ bf.written.flatMap (render bf.mOutputMode) := by
  have hsilent : c ≠ '.' → bf.written = [] := by
    intro hne
    refine if_neg fun hdot => hne ?_
    rw [hread] at hdot
    cases hdot
    rfl
  cases h with
  | @output v hcell =>
    have hwritten : bf.written = [v] := by
      unfold Brainfuck.written
      rw [if_pos hread, hcell]
      rfl
    rw [hwritten]
    simp
  | input => exact absurd rfl hc
  | change _ h =>
    rw [hsilent (by rcases h with rfl | rfl <;> decide)]
    simp
  | jump h =>
    rw [hsilent (by rcases h with rfl | rfl <;> decide)]
    simp
  | move h _ =>
    rw [hsilent (by rcases h with rfl | rfl <;> decide)]
    simp
  | comment h =>
    have hne : c ≠ '.' := by
      rintro rfl
      cases h.1
    rw [hsilent hne]
    simp

end

/-! ## The run -/

section
variable {str : Sized Char} {mode : OutputMode} {cin : List Char}

/-- **Without `,` the output is what the `.` turns wrote.** -/
theorem traced_output {bf : Brainfuck kMaxCells} {outs : List UInt8}
    (h : Traced (start str mode cin) bf outs)
    (hinput : ∀ bf, Reach runBody (start str mode cin) bf → ¬ bf.AtInput) :
    bf.mOutputMode = mode ∧ bf.mOutputStream = outs.flatMap (render mode) := by
  induction h with
  | start => exact ⟨rfl, rfl⟩
  | @turn bf bf' outs htraced hturn ih =>
    obtain ⟨hmode, houtput⟩ := ih
    have hreach := htraced.reach
    obtain ⟨hexec, c, bf₁, hread, hacts, rfl⟩ :=
      acts_of_again (by decide) (reach_inside hreach) hturn
    have hc : c ≠ ',' := by
      rintro rfl
      exact hinput bf hreach ⟨hexec, hread⟩
    refine ⟨(advance_mode bf₁).trans (hacts.frame.2.2.trans hmode), ?_⟩
    rw [advance_output, hacts.output_eq hread hc, houtput, hmode, List.flatMap_append]

/-- A `,` writes what no `.` wrote. -/
theorem not_faithful_of_input {bf : Brainfuck kMaxCells}
    (hreach : Reach runBody (start str mode cin) bf) (h : bf.AtInput) :
    ¬ FaithfulIO str mode cin := by
  rintro ⟨houtput, -⟩
  obtain ⟨outs, htraced⟩ := exists_traced hreach
  have hwritten : bf.written = [] := by
    refine if_neg ?_
    rw [h.2]
    intro hdot
    cases hdot
  have hnext := htraced.turn (runBody_input h)
  rw [hwritten, List.append_nil] at hnext
  have hafter := houtput _ _ hnext
  obtain ⟨cin', c, heq⟩ := inputChar_eq bf
  rw [advance_output, heq, ← houtput _ _ htraced] at hafter
  simp at hafter

/-- **The run has the input and output it should have exactly when it gets to no `,`.** -/
theorem faithfulIO_iff (str : Sized Char) (mode : OutputMode) (cin : List Char) :
    FaithfulIO str mode cin ↔ ∀ bf, Reach runBody (start str mode cin) bf → ¬ bf.AtInput := by
  constructor
  · intro h bf hreach hat
    exact not_faithful_of_input hreach hat h
  · intro hinput
    refine ⟨fun bf outs htraced => (traced_output htraced hinput).2, ?_⟩
    intro bf bf' hreach hat
    exact absurd hat (hinput bf hreach)

/-- A program that reads one character. -/
def echo : Sized Char := ⟨",".toList, by decide⟩

theorem not_faithfulIO :
    ¬ ∀ str mode cin, nested 0 str.elems = true → FaithfulIO str mode cin := by
  intro h
  have hat : (start echo .text ['a']).AtInput := ⟨rfl, rfl⟩
  exact not_faithful_of_input (.refl _) hat (h echo .text ['a'] (by decide))

end

end Bfi
