import Sprawl.Tvm.Token

/-!
# `Tokenize`

A loop over the characters with three pieces of state: the tokens so far, the
buffer of the token being read, the line number.  `get` leaves its argument
alone at the end of the stream, so the inner loops of the comment and string
cases carry the last character `c` they read.

`tokenizeFrom_*` say what one character does; the proofs about texts use these
and never unfold the loop.
-/

namespace Tvm

open Cxx

/-- `while (is.get(c) && c != '\n') {}`: the last `c`, and what is left. -/
def skipComment (c : Char) : List Char → Char × List Char
  | [] => (c, [])
  | d :: is => if d = '\n' then (d, is) else skipComment d is

/-- `while (is.get(c) && c != '"' && c != '\n') buffer += c;` -/
def readString (c : Char) (buffer : List Char) : List Char → Char × List Char × List Char
  | [] => (c, buffer, [])
  | d :: is =>
    if d = '"' ∨ d = '\n' then (d, buffer, is) else readString d (buffer ++ [d]) is

/-- `flush_buffer`, up to the line number: push the buffer if there is one. -/
def flushBuffer (tokens : List Token) (buffer : List Char) (lineNumber : Nat) : List Token :=
  if buffer = [] then tokens else tokens ++ [{ value := buffer, lineNumber := lineNumber }]

theorem skipComment_length_le (c : Char) (is : List Char) :
    (skipComment c is).2.length ≤ is.length := by
  induction is generalizing c with
  | nil => simp [skipComment]
  | cons d is ih =>
    unfold skipComment
    split
    · simp
    · exact Nat.le_succ_of_le (ih d)

theorem readString_length_le (c : Char) (buffer is : List Char) :
    (readString c buffer is).2.2.length ≤ is.length := by
  induction is generalizing c buffer with
  | nil => simp [readString]
  | cons d is ih =>
    unfold readString
    split
    · simp
    · exact Nat.le_succ_of_le (ih d _)

/-- The character loop; `is` is what the stream still holds. -/
def tokenizeFrom (tokens : List Token) (buffer : List Char) (lineNumber : Nat)
    (is : List Char) : Except Stop (List Token) :=
  match is with
  | [] => .ok (flushBuffer tokens buffer lineNumber)
  | c :: is =>
    if c = ';' then
      let k := skipComment c is
      tokenizeFrom tokens buffer (if k.1 = '\n' then lineNumber + 1 else lineNumber) k.2
    else if c = '"' then
      let k := readString c (buffer ++ [c]) is
      if k.1 = '\n' then .error (.exit 1)
      else
        let buffer := if k.1 = '"' then k.2.1 ++ ['"'] else k.2.1
        tokenizeFrom (flushBuffer tokens buffer lineNumber) [] lineNumber k.2.2
    else if c = ':' then
      tokenizeFrom (flushBuffer tokens buffer lineNumber ++ [{ value := [':'], lineNumber }])
        [] lineNumber is
    else if c = '\n' then
      tokenizeFrom (flushBuffer tokens buffer lineNumber) [] (lineNumber + 1) is
    else if c = ',' ∨ c = ' ' ∨ c = '\t' then
      tokenizeFrom (flushBuffer tokens buffer lineNumber) [] lineNumber is
    else tokenizeFrom tokens (buffer ++ [c]) lineNumber is
termination_by is.length
decreasing_by
  all_goals first
    | exact Nat.lt_succ_of_le (skipComment_length_le _ _)
    | exact Nat.lt_succ_of_le (readString_length_le _ _ _)
    | exact Nat.lt_succ_self _

/-- `Tokenize(is)`. -/
def tokenize (text : List Char) : Except Stop (List Token) := tokenizeFrom [] [] 1 text

example : (tokenize "LEA R0, HW ;; x\n".toList).map (List.map Token.value) =
    .ok ["LEA".toList, "R0".toList, "HW".toList] := by decide +kernel

/-! ## What one character does -/

section
variable (tokens : List Token) (buffer : List Char) (lineNumber : Nat) (is : List Char)

/-- The characters that end a token and leave nothing behind. -/
def IsBlank (c : Char) : Prop := c = ' ' ∨ c = '\t' ∨ c = ',' ∨ c = '\n'

instance (c : Char) : Decidable (IsBlank c) := by unfold IsBlank; infer_instance

/-- A character that only grows the buffer. -/
def IsPlain (c : Char) : Prop := ¬ IsBlank c ∧ c ≠ ';' ∧ c ≠ '"' ∧ c ≠ ':'

instance (c : Char) : Decidable (IsPlain c) := by unfold IsPlain; infer_instance

theorem tokenizeFrom_nil :
    tokenizeFrom tokens buffer lineNumber [] = .ok (flushBuffer tokens buffer lineNumber) := by
  rw [tokenizeFrom]

theorem tokenizeFrom_blank {c : Char} (hc : IsBlank c) :
    tokenizeFrom tokens buffer lineNumber (c :: is) =
      tokenizeFrom (flushBuffer tokens buffer lineNumber) []
        (if c = '\n' then lineNumber + 1 else lineNumber) is := by
  rw [tokenizeFrom]
  rcases hc with rfl | rfl | rfl | rfl <;> simp

theorem tokenizeFrom_plain {c : Char} (hc : IsPlain c) :
    tokenizeFrom tokens buffer lineNumber (c :: is) =
      tokenizeFrom tokens (buffer ++ [c]) lineNumber is := by
  obtain ⟨hb, h1, h2, h3⟩ := hc
  unfold IsBlank at hb
  rw [tokenizeFrom]
  simp only [h1, h2, h3, if_false]
  rw [if_neg (by tauto), if_neg (by tauto)]

theorem tokenizeFrom_plains {s : List Char} (hs : ∀ c ∈ s, IsPlain c) :
    tokenizeFrom tokens buffer lineNumber (s ++ is) =
      tokenizeFrom tokens (buffer ++ s) lineNumber is := by
  induction s generalizing buffer with
  | nil => simp
  | cons c s ih =>
    rw [List.cons_append, tokenizeFrom_plain _ _ _ _ (hs c List.mem_cons_self),
      ih _ fun d hd => hs d (List.mem_cons_of_mem _ hd)]
    simp

theorem skipComment_newline (c : Char) {body : List Char} (hb : '\n' ∉ body) :
    skipComment c (body ++ '\n' :: is) = ('\n', is) := by
  induction body generalizing c with
  | nil => simp [skipComment]
  | cons d body ih =>
    have hd : d ≠ '\n' := fun h => hb (h ▸ List.mem_cons_self)
    rw [List.cons_append, skipComment, if_neg hd]
    exact ih d fun h => hb (List.mem_cons_of_mem _ h)

theorem skipComment_end {c : Char} (hc : c ≠ '\n') {body : List Char} (hb : '\n' ∉ body) :
    (skipComment c body).1 ≠ '\n' ∧ (skipComment c body).2 = [] := by
  induction body generalizing c with
  | nil => exact ⟨hc, rfl⟩
  | cons d body ih =>
    have hd : d ≠ '\n' := fun h => hb (h ▸ List.mem_cons_self)
    rw [skipComment, if_neg hd]
    exact ih hd fun h => hb (List.mem_cons_of_mem _ h)

/-- A comment neither ends the token before it nor leaves one. -/
theorem tokenizeFrom_comment {body : List Char} (hb : '\n' ∉ body) :
    tokenizeFrom tokens buffer lineNumber (';' :: body ++ '\n' :: is) =
      tokenizeFrom tokens buffer (lineNumber + 1) is := by
  rw [List.cons_append, tokenizeFrom, if_pos rfl]
  simp only [skipComment_newline is ';' hb, if_true]

/-- A comment at the end of the text. -/
theorem tokenizeFrom_lastComment {body : List Char} (hb : '\n' ∉ body) :
    tokenizeFrom tokens buffer lineNumber (';' :: body) =
      .ok (flushBuffer tokens buffer lineNumber) := by
  obtain ⟨hlast, hrest⟩ := skipComment_end (show ';' ≠ '\n' by decide) hb
  rw [tokenizeFrom, if_pos rfl]
  simp only [hrest, if_neg hlast]
  exact tokenizeFrom_nil tokens buffer lineNumber

theorem tokenizeFrom_colon :
    tokenizeFrom tokens buffer lineNumber (':' :: is) =
      tokenizeFrom (flushBuffer tokens buffer lineNumber ++ [{ value := [':'], lineNumber }]) []
        lineNumber is := by
  rw [tokenizeFrom]
  simp

/-- The characters of a string between its quotes. -/
def InString (body : List Char) : Prop := '"' ∉ body ∧ '\n' ∉ body

theorem InString.cons {c : Char} {body : List Char} (h : InString (c :: body)) :
    ¬ (c = '"' ∨ c = '\n') ∧ InString body := by
  obtain ⟨hq, hn⟩ := h
  rw [List.mem_cons, not_or] at hq hn
  exact ⟨fun hc => hc.elim (fun h => hq.1 h.symm) (fun h => hn.1 h.symm), hq.2, hn.2⟩

theorem readString_close (c : Char) {body : List Char} (hb : InString body) {d : Char}
    (hd : d = '"' ∨ d = '\n') :
    readString c buffer (body ++ d :: is) = (d, buffer ++ body, is) := by
  induction body generalizing c buffer with
  | nil => rw [List.nil_append, readString, if_pos hd, List.append_nil]
  | cons e body ih =>
    obtain ⟨he, hbody⟩ := hb.cons
    rw [List.cons_append, readString, if_neg he, ih (buffer ++ [e]) e hbody]
    simp

/-- Without a quote or a newline the last `c` is the one before, or the end of the body. -/
theorem readString_end {c : Char} (hc : c ≠ '\n') {body : List Char} (hb : InString body) :
    ∃ d, readString c buffer body = (d, buffer ++ body, []) ∧ d ≠ '\n' ∧
      (d = '"' ↔ c = '"' ∧ body = []) := by
  induction body generalizing c buffer with
  | nil => exact ⟨c, by rw [readString, List.append_nil], hc, by simp⟩
  | cons e body ih =>
    obtain ⟨he, hbody⟩ := hb.cons
    obtain ⟨d, hread, hd, hquote⟩ := ih (buffer ++ [e]) (fun h => he (.inr h)) hbody
    refine ⟨d, ?_, hd, ?_⟩
    · rw [readString, if_neg he, hread, List.append_assoc, List.singleton_append]
    · rw [hquote]
      exact iff_of_false (fun h => he (.inl h.1)) (by simp)

theorem tokenizeFrom_string {body : List Char} (hb : InString body) :
    tokenizeFrom tokens buffer lineNumber ('"' :: body ++ '"' :: is) =
      tokenizeFrom (flushBuffer tokens (buffer ++ ['"'] ++ body ++ ['"']) lineNumber) []
        lineNumber is := by
  rw [List.cons_append, tokenizeFrom, if_neg (by decide), if_pos rfl]
  simp only [readString_close (buffer ++ ['"']) is '"' hb (.inl rfl)]
  rw [if_neg (by decide), if_pos trivial]

/-- A string is not closed on another line. -/
theorem tokenizeFrom_brokenString {body : List Char} (hb : InString body) :
    tokenizeFrom tokens buffer lineNumber ('"' :: body ++ '\n' :: is) = .error (.exit 1) := by
  rw [List.cons_append, tokenizeFrom, if_neg (by decide), if_pos rfl]
  simp only [readString_close (buffer ++ ['"']) is '"' hb (.inr rfl), if_true]

/-- A string that the end of the text closes: a single quote is doubled. -/
theorem tokenizeFrom_lastString {body : List Char} (hb : InString body) :
    tokenizeFrom tokens buffer lineNumber ('"' :: body) =
      .ok (flushBuffer tokens (buffer ++ '"' :: body ++ if body = [] then ['"'] else [])
        lineNumber) := by
  obtain ⟨d, hread, hd, hquote⟩ :=
    readString_end (buffer ++ ['"']) (show '"' ≠ '\n' by decide) hb
  rw [tokenizeFrom, if_neg (by decide), if_pos rfl]
  simp only [hread, if_neg hd, tokenizeFrom_nil]
  by_cases hbody : body = []
  · rw [if_pos (hquote.2 ⟨rfl, hbody⟩), if_pos hbody, List.append_assoc buffer,
      List.singleton_append]
    rfl
  · rw [if_neg fun h => hbody (hquote.1 h).2, if_neg hbody, List.append_nil, List.append_assoc,
      List.singleton_append]
    rfl

end

end Tvm
