import Sprawl.Brainfuck.Safety

/-!
# One object, several programs

`FromString` changes the code only.  `Run` leaves the position behind the end of the code,
and nothing takes it back, so the second program on an object does not start at its first
character.

    EachRuns (fresh mode cin) t₀ strs ↔ strs has at most one program      (eachRuns_iff)

for programs that are nested, without `,`, and end one after the other from the fresh
configuration `t₀`.
-/

namespace Bfi

open Cxx Loop

theorem length_nil_lt : ([] : List Char).length < 2 ^ 63 := by decide

/-- The object the constructor makes, with its output mode set and some input waiting. -/
def fresh (mode : OutputMode) (cin : List Char) : Brainfuck kMaxCells :=
  { mCode := ⟨[], length_nil_lt⟩, mOutputMode := mode, cin }

/-- The tape, the cursor and the output are those of the configuration. -/
structure Holds (bf : Brainfuck kMaxCells) (t : Config kMaxCells) : Prop where
  cells_eq : bf.mCells = Vector.ofFn t.cells
  cursor_eq : bf.mCellPos = t.cursor
  output_eq : bf.mOutputStream = t.output.flatMap (render bf.mOutputMode)

/-- `FromString(str); Run()` for one text after the other, with the object on `t`: each run
starts at the first character, stays inside the code, and leaves what the program does. -/
def EachRuns (bf : Brainfuck kMaxCells) (t : Config kMaxCells) : List (Sized Char) → Prop
  | [] => True
  | str :: strs =>
    (bf.fromString str).mCodePos = 0 ∧
      (∀ bf' e, Reach runBody { bf.fromString str with mStatus := .executing } bf' →
        runBody bf' ≠ .done (.error e)) ∧
      ∃ p t' bf', parse str.elems = some p ∧ Exec p t t' ∧ Run (bf.fromString str) (.ok bf') ∧
        Holds bf' t' ∧ EachRuns bf' t' strs

/-- The texts are nested, without `,`, and the programs end one after the other. -/
inductive Ends : Config kMaxCells → List (Sized Char) → Prop
  | nil (t : Config kMaxCells) : Ends t []
  | cons {t t' : Config kMaxCells} {str : Sized Char} {strs : List (Sized Char)} {p : Prog} :
      parse str.elems = some p → ',' ∉ str.elems → Exec p t t' → Ends t' strs →
      Ends t (str :: strs)

/-! ## The first run -/

section
variable (mode : OutputMode) (cin : List Char) (str : Sized Char)

theorem on_start :
    { (fresh mode cin).fromString str with mStatus := .executing } =
      ((fresh mode cin).fromString str).on .fresh 0 := by
  unfold Brainfuck.on
  rw [cells_fresh]
  rfl

variable {mode cin str}

/-- On a fresh object a program does what it should. -/
theorem run_fresh {p : Prog} {t : Config kMaxCells} (hp : parse str.elems = some p)
    (hcomma : ',' ∉ str.elems) (hexec : Exec p .fresh t) :
    Run ((fresh mode cin).fromString str) (.ok (((fresh mode cin).fromString str).finished t)) := by
  have hat : At ((fresh mode cin).fromString str).mCode.elems 0 str.elems := at_zero [] str.elems
  have hreach := @reach_exec _ _ ((fresh mode cin).fromString str) (by decide) hcomma _ _ _ hexec
    _ _ (spells_of_parse hp) hat
  unfold Run
  rw [on_start, hreach.returns_iff, Nat.zero_add]
  exact returns_end.2 rfl

theorem holds_finished (t : Config kMaxCells) :
    Holds (((fresh mode cin).fromString str).finished t) t :=
  ⟨rfl, rfl, List.nil_append _⟩

/-- **After a run the position is behind the code.** -/
theorem codePos_of_run {p : Prog} {t : Config kMaxCells} (hp : parse str.elems = some p)
    (hcomma : ',' ∉ str.elems) (hexec : Exec p .fresh t) {bf : Brainfuck kMaxCells}
    (hrun : Run ((fresh mode cin).fromString str) (.ok bf)) :
    bf.mCodePos = str.elems.length + 1 := by
  have hunique := hrun.unique (run_fresh hp hcomma hexec)
  cases hunique
  rfl

end

/-! ## The runs behind it -/

/-- A second program does not start at its first character. -/
theorem not_eachRuns {mode : OutputMode} {cin : List Char} {str str' : Sized Char}
    {strs : List (Sized Char)} {p : Prog} {t : Config kMaxCells} (hp : parse str.elems = some p)
    (hcomma : ',' ∉ str.elems) (hexec : Exec p .fresh t) :
    ¬ EachRuns (fresh mode cin) .fresh (str :: str' :: strs) := by
  rintro ⟨-, -, p', t', bf', -, -, hrun, -, hstart, -⟩
  have hpos : bf'.mCodePos = 0 := hstart
  rw [codePos_of_run hp hcomma hexec hrun] at hpos
  omega

/-- **Each program has its effect exactly when there is at most one.** -/
theorem eachRuns_iff (mode : OutputMode) (cin : List Char) {strs : List (Sized Char)}
    (h : Ends .fresh strs) : EachRuns (fresh mode cin) .fresh strs ↔ strs.length ≤ 1 := by
  cases h with
  | nil => exact iff_of_true trivial (Nat.zero_le 1)
  | @cons _ t str strs p hp hcomma hexec _ =>
    cases strs with
    | cons str' strs =>
      refine iff_of_false (not_eachRuns hp hcomma hexec) ?_
      simp
    | nil =>
      have hrun := @run_fresh mode cin str p t hp hcomma hexec
      refine iff_of_true ⟨rfl, ?_, p, t, _, hp, hexec, hrun, holds_finished t, trivial⟩
        (Nat.le_refl 1)
      intro bf e hreach hdone
      have herror := hreach.returns_iff.2 (returns_of_done hdone)
      have hunique := hrun.unique herror
      cases hunique

/-- `+`, which ends in one turn and one more at the end of the code. -/
def plus : Sized Char := ⟨"+".toList, by decide⟩

theorem parse_plus : parse plus.elems = some (.atom .incr .nil) := by decide

theorem ends_plus : Ends .fresh [plus, plus] :=
  .cons parse_plus (by decide) (.atom (.nil _))
    (.cons parse_plus (by decide) (.atom (.nil _)) (.nil _))

theorem eachRuns_iff_plus :
    EachRuns (fresh .text []) .fresh [plus, plus] ↔ [plus, plus].length ≤ 1 :=
  eachRuns_iff .text [] ends_plus

theorem not_eachRuns_plus :
    ¬ ∀ mode cin strs, Ends .fresh strs → EachRuns (fresh mode cin) .fresh strs := by
  intro h
  exact not_eachRuns parse_plus (by decide) (.atom (.nil _)) (h .text [] _ ends_plus)

end Bfi
