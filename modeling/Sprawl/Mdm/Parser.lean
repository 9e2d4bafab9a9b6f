import Sprawl.Mdm.Lexer

/-!
# The tokens that start a line (`Parser::MarkNewlineTokens`, `mdm/parser.cc`)

The loop carries two flags.  Behind the first token `foundNewline` says whether the token
in front is a newline (`markFrom_spec`).  The first token itself is marked and passed over
before the test for a newline, so a list that starts with one has that newline marked, and
not the token behind it: the marks are right exactly for the other lists
(`marksLineStarts_iff`).
-/

namespace Mdm

/-- The flags of the loop. -/
structure Flags where
  foundNewline : Bool := false
  firstToken : Bool := true
deriving DecidableEq, Repr

/-- The loop at one token. -/
def mark (flags : Flags) (tok : Token) : Flags × Token :=
  if flags.firstToken then
    ({ flags with firstToken := false }, { tok with isFirstOnNewline := true })
  else if tok.type = .kNewline then ({ flags with foundNewline := true }, tok)
  else if flags.foundNewline then
    ({ flags with foundNewline := false }, { tok with isFirstOnNewline := true })
  else (flags, tok)

def markFrom (flags : Flags) : List Token → List Token
  | [] => []
  | tok :: toks => (mark flags tok).2 :: markFrom (mark flags tok).1 toks

/-- `MarkNewlineTokens()`: `tokens_` afterwards. -/
def markNewlineTokens (tokens : List Token) : List Token := markFrom {} tokens

/-! ## What starts a line -/

/-- The token in front of position `i` is a newline. -/
def FollowsNewline (tokens : List Token) (i : Nat) : Prop :=
  0 < i ∧ tokens[i - 1]?.map Token.type = some .kNewline

instance decidableFollowsNewline (tokens : List Token) (i : Nat) :
    Decidable (FollowsNewline tokens i) := inferInstanceAs (Decidable (_ ∧ _ = _))

def Token.marked (tok : Token) (first : Bool) : Token := { tok with isFirstOnNewline := first }

/-- The marks are on the tokens that are no newlines and are the first one or follow a
newline, and nothing else is changed. -/
def MarksLineStarts (tokens : List Token) : Prop :=
  ∀ i : Nat, (markNewlineTokens tokens)[i]? = tokens[i]?.map fun tok =>
    tok.marked (decide (tok.type ≠ .kNewline ∧ (i = 0 ∨ FollowsNewline tokens i)))

theorem followsNewline_succ (tok : Token) (tokens : List Token) (i : Nat) :
    FollowsNewline (tok :: tokens) (i + 1) ↔
      (i = 0 ∧ tok.type = .kNewline) ∨ FollowsNewline tokens i := by
  unfold FollowsNewline
  rw [Nat.add_sub_cancel]
  cases i with
  | zero => simp
  | succ i => simp

/-- Behind the first token, whatever it is: `foundNewline` stands for the token in front. -/
theorem markFrom_spec {tokens : List Token} (found : Bool)
    (h : ∀ tok ∈ tokens, tok.isFirstOnNewline = false) (i : Nat) :
    (markFrom { foundNewline := found, firstToken := false } tokens)[i]? =
      tokens[i]?.map fun tok => tok.marked
        (decide (tok.type ≠ .kNewline ∧ ((i = 0 ∧ found = true) ∨ FollowsNewline tokens i))) := by
  induction tokens generalizing found i with
  | nil => rfl
  | cons tok tokens ih =>
    have htok : tok.isFirstOnNewline = false := h tok List.mem_cons_self
    have hrest : ∀ t ∈ tokens, t.isFirstOnNewline = false := fun t ht =>
      h t (List.mem_cons_of_mem _ ht)
    -- after any token the flag says whether it was a newline
    have hmark : mark { foundNewline := found, firstToken := false } tok =
        ({ foundNewline := decide (tok.type = .kNewline), firstToken := false },
          tok.marked (decide (tok.type ≠ .kNewline ∧ found = true))) := by
      obtain ⟨type, token, lineNumber, column, first⟩ := tok
      simp only at htok
      subst htok
      by_cases hnewline : type = .kNewline
      · simp [mark, Token.marked, hnewline]
      · cases found <;> simp [mark, Token.marked, hnewline]
    rw [markFrom, hmark]
    cases i with
    | zero =>
      have hfirst : ¬ FollowsNewline (tok :: tokens) 0 := fun hf => Nat.lt_irrefl 0 hf.1
      simp [hfirst]
    | succ i =>
      rw [List.getElem?_cons_succ, List.getElem?_cons_succ, ih _ hrest]
      simp only [followsNewline_succ, decide_eq_true_eq, Nat.succ_ne_zero, false_and, false_or]

/-- **The marks are right exactly when the list does not start with a newline.** -/
theorem marksLineStarts_iff {tokens : List Token}
    (h : ∀ tok ∈ tokens, tok.isFirstOnNewline = false) :
    MarksLineStarts tokens ↔ tokens.head?.map Token.type ≠ some .kNewline := by
  cases tokens with
  | nil => exact ⟨fun _ => by simp, fun _ i => rfl⟩
  | cons tok tokens =>
    have hrest : ∀ t ∈ tokens, t.isFirstOnNewline = false := fun t ht =>
      h t (List.mem_cons_of_mem _ ht)
    have hmarks : markNewlineTokens (tok :: tokens) = { tok with isFirstOnNewline := true } ::
        markFrom { foundNewline := false, firstToken := false } tokens := rfl
    have hhead : (tok :: tokens).head?.map Token.type ≠ some .kNewline ↔ tok.type ≠ .kNewline := by
      simp
    rw [hhead]
    constructor
    · intro hall hnewline
      have hfirst := hall 0
      rw [hmarks] at hfirst
      simp [Token.marked, hnewline] at hfirst
    · intro hne i
      rw [hmarks]
      cases i with
      | zero => simp [Token.marked, hne]
      | succ i =>
        rw [List.getElem?_cons_succ, List.getElem?_cons_succ, markFrom_spec _ hrest]
        simp only [followsNewline_succ, hne, Nat.succ_ne_zero, Bool.false_eq_true, and_false,
          false_or]

/-- The tokens of `"a\nb"`. -/
def twoLines : List Token :=
  [{ type := .kWord, token := ['a'], lineNumber := 0, column := 1 },
    { type := .kNewline, token := ['\n'], lineNumber := 1, column := 1 },
    { type := .kWord, token := ['b'], lineNumber := 1, column := 2 }]

theorem marksLineStarts_iff_twoLines :
    MarksLineStarts twoLines ↔ twoLines.head?.map Token.type ≠ some .kNewline :=
  marksLineStarts_iff (by decide)

/-- The tokens of `"\na"`. -/
def newlineThenWord : List Token :=
  [{ type := .kNewline, token := ['\n'], lineNumber := 1, column := 1 },
    { type := .kWord, token := ['a'], lineNumber := 1, column := 2 }]

/-- The newline is marked, the word that starts the second line is not. -/
theorem not_marksLineStarts :
    (markNewlineTokens newlineThenWord).map Token.isFirstOnNewline = [true, false] ∧
      ¬ MarksLineStarts newlineThenWord := by
  refine ⟨by decide, ?_⟩
  intro hall
  have hfirst := hall 0
  revert hfirst
  decide

end Mdm
