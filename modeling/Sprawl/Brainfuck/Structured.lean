import Mathlib.Data.ZMod.Defs

/-!
# The reference semantics

A program is a tree (`Prog`): atoms and loops.  `Exec` runs it on a ring of `n`
byte cells; a loop repeats its body while the current cell is not zero.  A run
that does not end has no derivation.

`parse` reads a text from the right and drops the comments; it succeeds exactly
on the properly nested texts (`parse_isSome_iff`), and then the text `Spells` the
tree.
-/

namespace Bfi

/-! ## Programs -/

inductive Atom
  | incr | decr | output | right | left
deriving DecidableEq, Repr

/-- A sequence of atoms and loops. -/
inductive Prog
  | nil
  | atom (a : Atom) (rest : Prog)
  | loop (body rest : Prog)
deriving DecidableEq, Repr

def atomOf (c : Char) : Option Atom :=
  match c with
  | '+' => some .incr
  | '-' => some .decr
  | '.' => some .output
  | '>' => some .right
  | '<' => some .left
  | _ => none

/-! ## Running a program -/

/-- The ring of cells, the cursor on it, and the cells written out so far. -/
structure Config (n : Nat) where
  cells : Fin n → UInt8 := fun _ => 0
  cursor : Fin n
  output : List UInt8 := []

section
variable {n : Nat} [NeZero n]

def Config.cell (t : Config n) : UInt8 := t.cells t.cursor

def Config.setCell (t : Config n) (v : UInt8) : Config n :=
  { t with cells := Function.update t.cells t.cursor v }

def Config.apply (t : Config n) : Atom → Config n
  | .incr => t.setCell (t.cell + 1)
  | .decr => t.setCell (t.cell - 1)
  | .output => { t with output := t.output ++ [t.cell] }
  | .right => { t with cursor := t.cursor + 1 }
  | .left => { t with cursor := t.cursor - 1 }

/-- Running the program leads from one configuration to the other. -/
inductive Exec : Prog → Config n → Config n → Prop
  | nil (t : Config n) : Exec .nil t t
  | atom {a : Atom} {rest : Prog} {t t' : Config n} :
      Exec rest (t.apply a) t' → Exec (.atom a rest) t t'
  | loopDone {body rest : Prog} {t t' : Config n} :
      t.cell = 0 → Exec rest t t' → Exec (.loop body rest) t t'
  | loopAgain {body rest : Prog} {t t₁ t' : Config n} :
      t.cell ≠ 0 → Exec body t t₁ → Exec (.loop body rest) t₁ t' → Exec (.loop body rest) t t'

end

/-! ## Nesting -/

/-- With `depth` brackets open, every `]` of the text closes one, and at the end
none is open. -/
def nested : Nat → List Char → Bool
  | depth, [] => depth = 0
  | depth, c :: s =>
    if c = '[' then nested (depth + 1) s
    else if c = ']' then
      match depth with
      | 0 => false
      | depth + 1 => nested depth s
    else nested depth s

theorem nested_open (depth : Nat) (s : List Char) :
    nested depth ('[' :: s) = nested (depth + 1) s := rfl

theorem nested_close (depth : Nat) (s : List Char) :
    nested (depth + 1) (']' :: s) = nested depth s := rfl

theorem nested_other {c : Char} (hopen : c ≠ '[') (hclose : c ≠ ']') (depth : Nat) (s : List Char) :
    nested depth (c :: s) = nested depth s := by
  rw [nested.eq_def]
  simp only [if_neg hopen, if_neg hclose]

/-- The text is the program, with comments between its characters. -/
inductive Spells : List Char → Prog → Prop
  | nil : Spells [] .nil
  | comment {c : Char} {s : List Char} {p : Prog} :
      atomOf c = none → c ≠ '[' → c ≠ ']' → Spells s p → Spells (c :: s) p
  | atom {c : Char} {a : Atom} {s : List Char} {p : Prog} :
      atomOf c = some a → Spells s p → Spells (c :: s) (.atom a p)
  | loop {b s : List Char} {body rest : Prog} :
      Spells b body → Spells s rest → Spells ('[' :: (b ++ ']' :: s)) (.loop body rest)

/-- The programs open at the front of a text, innermost first. -/
def parseStack : List Char → Option (List Prog)
  | [] => some [.nil]
  | c :: s => do
    let stack ← parseStack s
    if c = '[' then
      match stack with
      | body :: rest :: stack => some (.loop body rest :: stack)
      | _ => none
    else if c = ']' then some (.nil :: stack)
    else
      match atomOf c with
      | none => some stack
      | some a =>
        match stack with
        | p :: stack => some (.atom a p :: stack)
        | [] => none

def parse (code : List Char) : Option Prog :=
  match parseStack code with
  | some [p] => some p
  | _ => none

/-! ## The parser -/

/-- The text is a stack of programs, each but the last closed by a `]`. -/
inductive SpellsStack : List Char → List Prog → Prop
  | one {s : List Char} {p : Prog} : Spells s p → SpellsStack s [p]
  | more {b s : List Char} {p : Prog} {stack : List Prog} :
      Spells b p → SpellsStack s stack → SpellsStack (b ++ ']' :: s) (p :: stack)

theorem SpellsStack.cons {s : List Char} {p : Prog} {stack : List Prog} {c : Char} {p' : Prog}
    (h : SpellsStack s (p :: stack)) (hc : ∀ s, Spells s p → Spells (c :: s) p') :
    SpellsStack (c :: s) (p' :: stack) := by
  cases h with
  | one hp => exact .one (hc _ hp)
  | more hb hs => exact .more (hc _ hb) hs

theorem SpellsStack.exists_cons {s : List Char} {stack : List Prog} (h : SpellsStack s stack) :
    ∃ p rest, stack = p :: rest := by
  cases h with
  | one _ => exact ⟨_, _, rfl⟩
  | more _ _ => exact ⟨_, _, rfl⟩

theorem SpellsStack.ne_nil {s : List Char} {stack : List Prog} (h : SpellsStack s stack) :
    stack ≠ [] := by
  obtain ⟨p, rest, rfl⟩ := h.exists_cons
  exact List.cons_ne_nil p rest

theorem spellsStack_of_parse {s : List Char} {stack : List Prog} (h : parseStack s = some stack) :
    SpellsStack s stack := by
  induction s generalizing stack with
  | nil =>
    cases h
    exact .one .nil
  | cons c s ih =>
    rw [parseStack, Option.bind_eq_bind, Option.bind_eq_some_iff] at h
    obtain ⟨st, hst, h⟩ := h
    have hs := ih hst
    by_cases hopen : c = '['
    · rw [if_pos hopen] at h
      subst hopen
      split at h
      · cases h
        cases hs with
        | more hbody hrest =>
          cases hrest with
          | one hp => exact .one (.loop hbody hp)
          | more hb hs =>
            have := SpellsStack.more (.loop hbody hb) hs
            simpa using this
      · cases h
    · rw [if_neg hopen] at h
      by_cases hclose : c = ']'
      · rw [if_pos hclose] at h
        cases h
        subst hclose
        exact @SpellsStack.more [] s .nil st .nil hs
      · rw [if_neg hclose] at h
        cases ha : atomOf c with
        | none =>
          rw [ha] at h
          cases h
          obtain ⟨p, st', rfl⟩ := hs.exists_cons
          exact hs.cons fun _ hp => .comment ha hopen hclose hp
        | some a =>
          rw [ha] at h
          cases st with
          | nil => cases h
          | cons p st' =>
            cases h
            exact hs.cons fun _ hp => .atom ha hp

/-- A text may stand in front of `depth` open brackets exactly when it leaves
`depth + 1` programs on the stack. -/
theorem nested_iff (s : List Char) (depth : Nat) : nested depth s = true ↔
    ∃ stack, parseStack s = some stack ∧ stack.length = depth + 1 := by
  induction s generalizing depth with
  | nil => simp [nested, parseStack, eq_comm]
  | cons c s ih =>
    rw [nested.eq_def, parseStack, Option.bind_eq_bind]
    by_cases hopen : c = '['
    · simp only [if_pos hopen, ih]
      constructor
      · rintro ⟨stack, hs, hlen⟩
        rw [hs]
        match stack, hlen with
        | body :: rest :: stack, hlen =>
          exact ⟨_, rfl, by simpa using hlen⟩
      · rintro ⟨stack, h, hlen⟩
        obtain ⟨st, hst, h⟩ := Option.bind_eq_some_iff.1 h
        split at h
        · cases h
          exact ⟨_, hst, by simpa using hlen⟩
        · cases h
    · simp only [if_neg hopen]
      by_cases hclose : c = ']'
      · simp only [if_pos hclose]
        constructor
        · intro h
          cases depth with
          | zero => cases h
          | succ depth =>
            obtain ⟨stack, hs, hlen⟩ := (ih depth).1 h
            exact ⟨.nil :: stack, by rw [hs]; rfl, by simpa using hlen⟩
        · rintro ⟨stack, h, hlen⟩
          obtain ⟨st, hst, h⟩ := Option.bind_eq_some_iff.1 h
          cases h
          have hne := (spellsStack_of_parse hst).ne_nil
          cases depth with
          | zero => exact absurd (List.length_eq_zero_iff.1 (by simpa using hlen)) hne
          | succ depth => exact (ih depth).2 ⟨st, hst, by simpa using hlen⟩
      · simp only [if_neg hclose, ih]
        cases ha : atomOf c with
        | none => simp
        | some a =>
          constructor
          · rintro ⟨stack, hs, hlen⟩
            rw [hs]
            match stack, hlen with
            | p :: stack, hlen => exact ⟨_, rfl, by simpa using hlen⟩
          · rintro ⟨stack, h, hlen⟩
            obtain ⟨st, hst, h⟩ := Option.bind_eq_some_iff.1 h
            cases st with
            | nil => cases h
            | cons p st =>
              cases h
              exact ⟨_, hst, by simpa using hlen⟩

theorem parse_isSome_iff (code : List Char) : nested 0 code = true ↔ ∃ p, parse code = some p := by
  rw [nested_iff]
  unfold parse
  constructor
  · rintro ⟨stack, h, hlen⟩
    obtain ⟨p, rfl⟩ := List.length_eq_one_iff.1 hlen
    exact ⟨p, by rw [h]⟩
  · rintro ⟨p, h⟩
    split at h
    · next q hq => exact ⟨_, hq, rfl⟩
    · cases h

theorem spells_of_parse {code : List Char} {p : Prog} (h : parse code = some p) :
    Spells code p := by
  unfold parse at h
  split at h
  · next q hq =>
    cases h
    cases spellsStack_of_parse hq with
    | one hp => exact hp
    | more hb hs => cases hs
  · cases h

end Bfi
