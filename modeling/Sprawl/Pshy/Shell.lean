import Sprawl.Pshy.Tokenizer

/-!
# What the shell does with a line (`pshy/shell.c`, `pshy/utils.c`)

A pass of the loop reads characters into a buffer up to a newline, a NUL or what it takes
for the end of the input, cuts the buffer into words and looks at the first one.  The
count of the words includes the null pointer behind them: a line of spaces is dispatched
with a null pointer for its first word, and a `cd` alone passes the test `len < 2` never.

A byte 255 becomes the `char` -1, which is `EOF`: the shell takes such a line in pieces.
No null pointer is passed exactly when every piece, up to one that starts with `exit`, is
empty or has a first word, and a second one behind a first word that starts with `cd`
(`lineSafe_iff`).
-/

namespace Pshy

open Cxx Cstring Fields

/-- `pshy_is_delimiter(c)` -/
def isDelimiter (c : Char) : Bool := c = '\n'

/-- `EOF` as a `char`. -/
abbrev eof : Char := '\xff'

/-- `enum token_builtin` -/
inductive Builtin
  | notBuiltin
  | exit
  | cd
deriving DecidableEq

/-- `pshy_tokens_builtin(toks)` -/
def tokensBuiltin (toks : Tokens) : Except Stop Builtin := do
  if toks.len = 0 then return .notBuiltin
  if (← strncmp (← load toks.tokens 0) "exit".toList 4) = 0 then return .exit
  if (← strncmp (← load toks.tokens 0) "cd".toList 2) = 0 then return .cd
  return .notBuiltin

/-- What the shell does with the words of a line; `execvp` is called in the child. -/
inductive Call
  | usage
  | chdir (path : Str)
  | execvp (file : Str) (argv : Block Str)
deriving DecidableEq

/-- The `switch` of `pshy_shell` and what is behind it: the calls, and `is_done`. -/
def dispatch (toks : Tokens) : Except Stop (List Call × Bool) := do
  match ← tokensBuiltin toks with
  | .exit => return ([], true)
  | .cd =>
    if toks.len < 2 then return ([.usage], false)
    return ([.chdir (← load toks.tokens 1)], false)
  | .notBuiltin => return ([.execvp (← load toks.tokens 0) toks.tokens], false)

/-- `while ((rc = getc(instream)))`: the buffer and what is left of the input. -/
def readLine (alloc : Allocator) (buff : Buff) : List Char → Except Stop (Buff × List Char)
  | [] => .ok (buff, [])
  | c :: input => do
    if c = nul then return (buff, input)
    if c = eof then return (buff, input)
    if isDelimiter c then return (buff, input)
    readLine alloc (← buffAdd alloc buff c) input

/-- What a pass leaves. -/
structure Pass where
  calls : List Call
  isDone : Bool
  input : List Char
deriving DecidableEq

/-- One pass of `while (!is_done)` ends with `r`. -/
def ShellPass (alloc : Allocator) (input : List Char) (r : Except Stop Pass) : Prop :=
  match readLine alloc buffCreate input with
  | .error e => r = .error e
  | .ok (buff, rest) =>
    if buff.len = 0 then r = .ok ⟨[], false, rest⟩
    else ∃ toks, TokensFromBuff alloc buff toks ∧ r = do
      let (calls, isDone) ← dispatch (← toks)
      return ⟨calls, isDone, rest⟩

/-- The passes that read the line in front of `more`, and what is called in them. -/
inductive LineRun (alloc : Allocator) (more : List Char) :
    List Char → Except Stop (List Call) → Prop
  | stop {line : List Char} {e : Stop} :
      ShellPass alloc (line ++ '\n' :: more) (.error e) → LineRun alloc more line (.error e)
  | exit {line : List Char} {pass : Pass} :
      ShellPass alloc (line ++ '\n' :: more) (.ok pass) → pass.isDone = true →
      LineRun alloc more line (.ok pass.calls)
  | last {line : List Char} {pass : Pass} :
      ShellPass alloc (line ++ '\n' :: more) (.ok pass) → pass.isDone = false →
      pass.input = more → LineRun alloc more line (.ok pass.calls)
  | next {line line' : List Char} {pass : Pass} {r : Except Stop (List Call)} :
      ShellPass alloc (line ++ '\n' :: more) (.ok pass) → pass.isDone = false →
      pass.input = line' ++ '\n' :: more → LineRun alloc more line' r →
      LineRun alloc more line (r.map fun calls => pass.calls ++ calls)

/-! ## What a line should do -/

def Call.NonNull : Call → Prop
  | usage => True
  | chdir path => path ≠ none
  | execvp file _ => file ≠ none

/-- No null pointer is passed, a line without a word does nothing, and a `cd` alone prints
its usage. -/
def LineSafe (alloc : Allocator) (more line : List Char) : Prop :=
  ∃ calls, LineRun alloc more line (.ok calls) ∧ (∀ c ∈ calls, c.NonNull) ∧
    (wordsOf line = [] → calls = []) ∧ (wordsOf line = ["cd".toList] → calls = [.usage])

/-- The test `strncmp(word, prefix, n) == 0`. -/
def StartsWith (start word : List Char) : Prop := word.take start.length = start

instance decidableStartsWith (start word : List Char) : Decidable (StartsWith start word) :=
  inferInstanceAs (Decidable (_ = _))

/-- The first word is taken for `exit`. -/
def Exits (words : List (List Char)) : Prop := ∃ w ∈ words.head?, StartsWith "exit".toList w

/-- There is a first word, and a second one if the first is taken for `cd`. -/
def Callable : List (List Char) → Prop
  | [] => False
  | w :: ws => StartsWith "cd".toList w → ws ≠ [] ∨ StartsWith "exit".toList w

/-- Every piece up to the first that exits is empty, or can be called. -/
def Served : List (List Char) → Prop
  | [] => True
  | piece :: pieces =>
    (piece = [] ∨ Callable (wordsOf piece)) ∧ (¬ Exits (wordsOf piece) → Served pieces)

/-! ## One pass -/

/-- What the `switch` does with these words. -/
def called : List (List Char) → Except Stop (List Call × Bool)
  | [] => .error (.undefined .nullPointer)
  | w :: ws =>
    if StartsWith "exit".toList w then .ok ([], true)
    else if StartsWith "cd".toList w then .ok ([.chdir ws.head?], false)
    else .ok ([.execvp (some w) (((w :: ws).map some ++ [none]).map some)], false)

/-- What a pass does with a piece of a line. -/
def served (piece rest : List Char) : Except Stop Pass :=
  if piece = [] then .ok ⟨[], false, rest⟩
  else do
    let (calls, isDone) ← called (wordsOf piece)
    return ⟨calls, isDone, rest⟩

/-- A character of a line that is read into the buffer. -/
def Plain (c : Char) : Prop := c ≠ nul ∧ c ≠ eof ∧ c ≠ '\n'

instance decidablePlain : DecidablePred Plain := fun c =>
  inferInstanceAs (Decidable (c ≠ nul ∧ c ≠ eof ∧ c ≠ '\n'))

/-- The first character that is not read into the buffer. -/
theorem exists_piece {line : List Char} (h : ¬ ∀ c ∈ line, Plain c) :
    ∃ piece x rest, line = piece ++ x :: rest ∧ (∀ c ∈ piece, Plain c) ∧ ¬ Plain x := by
  induction line with
  | nil => exact absurd (by simp) h
  | cons c line ih =>
    by_cases hc : Plain c
    · rw [List.forall_mem_cons, and_iff_right hc] at h
      obtain ⟨piece, x, rest, rfl, hpiece, hx⟩ := ih h
      exact ⟨c :: piece, x, rest, rfl, List.forall_mem_cons.2 ⟨hc, hpiece⟩, hx⟩
    · exact ⟨[], c, line, rfl, by simp, hc⟩

/-- How a piece of the input ends, and what is left behind it. -/
inductive EndsPiece : List Char → List Char → Prop
  | input : EndsPiece [] []
  | char {x : Char} {rest : List Char} : ¬ Plain x → EndsPiece (x :: rest) rest

theorem endsPiece_eof (rest : List Char) : EndsPiece (eof :: rest) rest := .char (by decide)

theorem endsPiece_newline (rest : List Char) : EndsPiece ('\n' :: rest) rest := .char (by decide)

theorem readLine_ends (alloc : Allocator) (buff : Buff) {tail rest : List Char}
    (h : EndsPiece tail rest) : readLine alloc buff tail = .ok (buff, rest) := by
  cases h with
  | input => rfl
  | @char x _ hx =>
    by_cases hnul : x = nul
    · rw [hnul]
      rfl
    · by_cases heof : x = eof
      · rw [heof]
        rfl
      · have hnewline : x = '\n' := by
          by_contra hnewline
          exact hx ⟨hnul, heof, hnewline⟩
        rw [hnewline]
        rfl

theorem readLine_piece (alloc : Allocator) {piece tail rest : List Char}
    (h : ∀ c ∈ piece, Plain c) (hend : EndsPiece tail rest) (buff : Buff) :
    readLine alloc buff (piece ++ tail) =
      (piece.map Op.add).foldlM (step alloc) buff >>= fun buff => .ok (buff, rest) := by
  induction piece generalizing buff with
  | nil => exact readLine_ends alloc buff hend
  | cons c piece ih =>
    obtain ⟨hnul, heof, hnewline⟩ := h c List.mem_cons_self
    have hdelim : isDelimiter c = false := decide_eq_false hnewline
    rw [List.cons_append, readLine, if_neg hnul, if_neg heof, hdelim, List.map_cons,
      List.foldlM_cons]
    show (buffAdd alloc buff c >>= fun buff => readLine alloc buff (piece ++ tail)) =
      (buffAdd alloc buff c >>= _) >>= _
    rw [bind_assoc]
    congr 1
    funext buff
    exact ih (fun d hd => h d (List.mem_cons_of_mem _ hd)) buff

/-- The words of a line, looked at by the `switch`. -/
theorem dispatch_lists {toks : Tokens} {words : List (List Char)}
    (h : Lists toks (words.map some ++ [none])) (hnul : ∀ w ∈ words, nul ∉ w) :
    dispatch toks = called words := by
  obtain ⟨hcount, htokens⟩ := h
  rw [List.length_append, List.length_map, List.length_singleton] at hcount
  have hne : ¬ toks.len = 0 := by
    intro hzero
    rw [hzero] at hcount
    exact absurd hcount (by simp)
  cases words with
  | nil =>
    have hload : load toks.tokens 0 = .ok none := by rw [htokens]; rfl
    unfold dispatch tokensBuiltin
    simp only [if_neg hne, hload, ok_bind]
    rfl
  | cons w ws =>
    have hload : load toks.tokens 0 = .ok (some w) := by rw [htokens]; rfl
    have hexit : compare w "exit".toList 4 = 0 ↔ StartsWith "exit".toList w :=
      compare_eq_zero (hnul w List.mem_cons_self) (by decide) 4
    have hcd : compare w "cd".toList 2 = 0 ↔ StartsWith "cd".toList w :=
      compare_eq_zero (hnul w List.mem_cons_self) (by decide) 2
    have hstrncmp : ∀ t n, strncmp (some w) t n = .ok (compare w t n) := fun t n => rfl
    have hbuiltin : tokensBuiltin toks =
        if StartsWith "exit".toList w then .ok .exit
        else if StartsWith "cd".toList w then .ok .cd
        else .ok .notBuiltin := by
      unfold tokensBuiltin
      simp only [if_neg hne, hload, ok_bind, hstrncmp, hexit, hcd]
      rfl
    have htwo : ¬ toks.len < 2 := by
      rw [UInt64.lt_iff_toNat_lt, hcount, List.length_cons]
      show ¬ ws.length + 1 + 1 < 2
      omega
    have hsecond : load toks.tokens 1 = .ok ws.head? := by
      rw [htokens]
      cases ws <;> rfl
    unfold dispatch
    rw [called, hbuiltin]
    by_cases h1 : StartsWith "exit".toList w
    · rw [if_pos h1, if_pos h1]
      rfl
    · rw [if_neg h1, if_neg h1]
      by_cases h2 : StartsWith "cd".toList w
      · rw [if_pos h2, if_pos h2, ok_bind]
        simp only [if_neg htwo, hsecond, ok_bind]
        rfl
      · rw [if_neg h2, if_neg h2, ok_bind]
        simp only [htokens]
        rfl

theorem TokensFromBuff.unique {alloc : Allocator} {buff : Buff} {r r' : Except Stop Tokens}
    (h : TokensFromBuff alloc buff r) (h' : TokensFromBuff alloc buff r') : r = r' := by
  unfold TokensFromBuff at h h'
  cases hdup : strdup buff.data 0 with
  | error e =>
    rw [hdup] at h h'
    exact h.trans h'.symm
  | ok copy =>
    rw [hdup] at h h'
    exact Loop.Returns.unique h h'

theorem ShellPass.unique {alloc : Allocator} {input : List Char} {r r' : Except Stop Pass}
    (h : ShellPass alloc input r) (h' : ShellPass alloc input r') : r = r' := by
  unfold ShellPass at h h'
  cases hread : readLine alloc buffCreate input with
  | error e =>
    rw [hread] at h h'
    exact h.trans h'.symm
  | ok p =>
    rw [hread] at h h'
    by_cases hlen : p.1.len = 0
    · simp only [if_pos hlen] at h h'
      exact h.trans h'.symm
    · simp only [if_neg hlen] at h h'
      obtain ⟨toks, htoks, rfl⟩ := h
      obtain ⟨toks', htoks', rfl⟩ := h'
      rw [htoks.unique htoks']

/-- The allocator has no room for a piece of a line, or for the array of its words. -/
def NoRoom (alloc : Allocator) (piece : List Char) : Prop :=
  run alloc (piece.map .add) = .error .abort ∨
    ∃ n ≤ (wordsOf piece).length, alloc.gives (8 * (n + 1)) = false

/-- A pass serves the piece of the line in front of it, or there is no room for it. -/
theorem shellPass_piece (alloc : Allocator) {piece tail rest : List Char}
    (h : ∀ c ∈ piece, Plain c) (hend : EndsPiece tail rest) :
    (NoRoom alloc piece ∧ ShellPass alloc (piece ++ tail) (.error .abort)) ∨
      ShellPass alloc (piece ++ tail) (served piece rest) := by
  have hread : readLine alloc buffCreate (piece ++ tail) =
      run alloc (piece.map .add) >>= fun buff => .ok (buff, rest) :=
    readLine_piece alloc h hend buffCreate
  have hnul : nul ∉ piece := fun hmem => (h _ hmem).1 rfl
  unfold ShellPass
  rw [hread]
  rcases run_invariant alloc (piece.map .add) with ⟨buff, hrun, hholds, -⟩ | ⟨habort, -⟩
  · rw [added_adds] at hholds
    simp only [hrun, ok_bind]
    have hlen : buff.len = 0 ↔ piece = [] := by
      rw [← UInt64.toNat_inj, hholds.len]
      exact List.length_eq_zero_iff
    unfold served
    by_cases hempty : piece = []
    · simp only [if_pos (hlen.2 hempty), if_pos hempty]
      exact .inr trivial
    · simp only [if_neg (mt hlen.1 hempty), if_neg hempty]
      rcases hholds.tokensFromBuff alloc hnul with ⟨toks, hret, hlists⟩ | ⟨hret, hroom⟩
      · refine .inr ⟨.ok toks, hret, ?_⟩
        rw [ok_bind, dispatch_lists hlists fun w hw hmem => hnul (mem_of_mem_fields hw hmem)]
      · exact .inl ⟨.inr hroom, _, hret, rfl⟩
  · rw [habort]
    exact .inl ⟨.inl habort, rfl⟩

/-- What a pass that returns has done. -/
inductive Serves (rest : List Char) : List Char → Pass → Prop
  | empty : Serves rest [] ⟨[], false, rest⟩
  | exit {piece w : List Char} {ws : List (List Char)} : wordsOf piece = w :: ws →
      StartsWith "exit".toList w → Serves rest piece ⟨[], true, rest⟩
  | cd {piece w : List Char} {ws : List (List Char)} : wordsOf piece = w :: ws →
      ¬ StartsWith "exit".toList w → StartsWith "cd".toList w →
      Serves rest piece ⟨[.chdir ws.head?], false, rest⟩
  | exec {piece w : List Char} {ws : List (List Char)} : wordsOf piece = w :: ws →
      ¬ StartsWith "exit".toList w → ¬ StartsWith "cd".toList w →
      Serves rest piece
        ⟨[.execvp (some w) (((w :: ws).map some ++ [none]).map some)], false, rest⟩

theorem served_eq_ok {piece rest : List Char} {pass : Pass} :
    served piece rest = .ok pass ↔ Serves rest piece pass := by
  constructor
  · intro h
    unfold served at h
    by_cases hempty : piece = []
    · rw [if_pos hempty] at h
      obtain rfl := Except.ok.inj h
      rw [hempty]
      exact .empty
    · rw [if_neg hempty] at h
      obtain ⟨d, hd, hpass⟩ := bind_eq_ok.1 h
      obtain rfl := Except.ok.inj hpass
      cases hwords : wordsOf piece with
      | nil =>
        rw [hwords] at hd
        cases hd
      | cons w ws =>
        rw [hwords, called] at hd
        split_ifs at hd with hexit hcd
        · obtain rfl := Except.ok.inj hd
          exact .exit hwords hexit
        · obtain rfl := Except.ok.inj hd
          exact .cd hwords hexit hcd
        · obtain rfl := Except.ok.inj hd
          exact .exec hwords hexit hcd
  · have hne : ∀ {w : List Char} {ws}, wordsOf piece = w :: ws → piece ≠ [] := by
      rintro w ws hwords rfl
      cases hwords
    intro h
    unfold served
    cases h with
    | empty => rfl
    | exit hwords hexit => rw [if_neg (hne hwords), hwords, called, if_pos hexit]; rfl
    | cd hwords hexit hcd =>
      rw [if_neg (hne hwords), hwords, called, if_neg hexit, if_pos hcd]
      rfl
    | exec hwords hexit hcd =>
      rw [if_neg (hne hwords), hwords, called, if_neg hexit, if_neg hcd]
      rfl

/-- When a piece is served without a null pointer, for what `K` says of the rest. -/
theorem served_iff (piece rest : List Char) (K : Prop) :
    (∃ pass, served piece rest = .ok pass ∧ (∀ c ∈ pass.calls, c.NonNull) ∧
      (pass.isDone = true ∨ K)) ↔
    (piece = [] ∨ Callable (wordsOf piece)) ∧ (¬ Exits (wordsOf piece) → K) := by
  have hexits : ∀ {w : List Char} {ws}, Exits (w :: ws) ↔ StartsWith "exit".toList w := by
    intro w ws
    simp [Exits]
  constructor
  · rintro ⟨pass, hpass, hnull, hdone⟩
    cases served_eq_ok.1 hpass with
    | empty => exact ⟨.inl rfl, fun _ => hdone.resolve_left Bool.false_ne_true⟩
    | exit hwords hexit =>
      rw [hwords, hexits]
      exact ⟨.inr fun _ => .inr hexit, fun hno => absurd hexit hno⟩
    | @cd _ w ws hwords hexit hcd =>
      rw [hwords]
      refine ⟨.inr fun _ => .inl ?_, fun _ => hdone.resolve_left Bool.false_ne_true⟩
      rintro rfl
      exact hnull (.chdir none) List.mem_cons_self rfl
    | exec hwords hexit hcd =>
      rw [hwords]
      exact ⟨.inr fun h => absurd h hcd, fun _ => hdone.resolve_left Bool.false_ne_true⟩
  · rintro ⟨hempty | hcallable, hK⟩
    · subst hempty
      refine ⟨_, rfl, fun c hc => absurd hc List.not_mem_nil, .inr (hK ?_)⟩
      rintro ⟨w, hw, -⟩
      cases hw
    · cases hwords : wordsOf piece with
      | nil =>
        rw [hwords] at hcallable
        exact absurd hcallable id
      | cons w ws =>
        rw [hwords] at hcallable hK
        rw [hexits] at hK
        by_cases hexit : StartsWith "exit".toList w
        · exact ⟨_, served_eq_ok.2 (.exit hwords hexit), fun c hc => absurd hc List.not_mem_nil,
            .inl rfl⟩
        · by_cases hcd : StartsWith "cd".toList w
          · refine ⟨_, served_eq_ok.2 (.cd hwords hexit hcd), ?_, .inr (hK hexit)⟩
            intro c hc
            obtain rfl := List.mem_singleton.1 hc
            obtain ⟨v, vs, rfl⟩ := List.exists_cons_of_ne_nil ((hcallable hcd).resolve_right hexit)
            exact Option.some_ne_none v
          · refine ⟨_, served_eq_ok.2 (.exec hwords hexit hcd), ?_, .inr (hK hexit)⟩
            intro c hc
            obtain rfl := List.mem_singleton.1 hc
            exact Option.some_ne_none w

/-! ## The whole line -/

theorem length_ne {more line : List Char} : line ++ '\n' :: more ≠ more := by
  intro h
  have hlen := congrArg List.length h
  rw [List.length_append, List.length_cons] at hlen
  omega

/-- The line can be served without a null pointer. -/
def CanServe (alloc : Allocator) (more line : List Char) : Prop :=
  ∃ calls, LineRun alloc more line (.ok calls) ∧ ∀ c ∈ calls, c.NonNull

/-- The same for what a pass has left of it. -/
def Rest (alloc : Allocator) (more input : List Char) : Prop :=
  input = more ∨ ∃ line, input = line ++ '\n' :: more ∧ CanServe alloc more line

theorem rest_line {alloc : Allocator} {more line : List Char} :
    Rest alloc more (line ++ '\n' :: more) ↔ CanServe alloc more line := by
  constructor
  · rintro (h | ⟨line', h, hserve⟩)
    · exact absurd h length_ne
    · rwa [List.append_cancel_right h]
  · intro h
    exact .inr ⟨line, rfl, h⟩

theorem canServe_iff {alloc : Allocator} {more line : List Char} {r : Except Stop Pass}
    (h : ShellPass alloc (line ++ '\n' :: more) r) :
    CanServe alloc more line ↔ ∃ pass, r = .ok pass ∧ (∀ c ∈ pass.calls, c.NonNull) ∧
      (pass.isDone = true ∨ Rest alloc more pass.input) := by
  constructor
  · rintro ⟨calls, hrun, hnull⟩
    generalize hr : Except.ok calls = r' at hrun
    cases hrun with
    | stop _ => cases hr
    | exit hpass hdone =>
      obtain rfl := Except.ok.inj hr
      exact ⟨_, h.unique hpass, hnull, .inl hdone⟩
    | last hpass _ hinput =>
      obtain rfl := Except.ok.inj hr
      exact ⟨_, h.unique hpass, hnull, .inr (.inl hinput)⟩
    | @next _ line' pass r' hpass _ hinput hrun =>
      cases r' with
      | error e => cases hr
      | ok calls' =>
        obtain rfl := Except.ok.inj hr
        exact ⟨pass, h.unique hpass, fun c hc => hnull c (List.mem_append_left _ hc),
          .inr (.inr ⟨line', hinput, calls', hrun,
            fun c hc => hnull c (List.mem_append_right _ hc)⟩)⟩
  · rintro ⟨pass, rfl, hnull, hrest⟩
    cases hdone : pass.isDone with
    | true => exact ⟨pass.calls, .exit h hdone, hnull⟩
    | false =>
      rw [hdone, or_iff_right Bool.false_ne_true] at hrest
      rcases hrest with hinput | ⟨line', hinput, calls', hrun, hnull'⟩
      · exact ⟨pass.calls, .last h hdone hinput, hnull⟩
      · refine ⟨pass.calls ++ calls', .next h hdone hinput hrun, ?_⟩
        intro c hc
        rcases List.mem_append.1 hc with hc | hc
        · exact hnull c hc
        · exact hnull' c hc

theorem served_input {piece rest : List Char} {pass : Pass} (h : served piece rest = .ok pass) :
    pass.input = rest := by
  unfold served at h
  split at h
  · obtain rfl := Except.ok.inj h
    rfl
  · obtain ⟨d, -, hd⟩ := bind_eq_ok.1 h
    obtain rfl := Except.ok.inj hd
    rfl

/-- A line whose first pass serves `piece`. -/
theorem canServe_piece {alloc : Allocator} {more line piece rest : List Char}
    (h : ShellPass alloc (line ++ '\n' :: more) (served piece rest)) :
    CanServe alloc more line ↔ (piece = [] ∨ Callable (wordsOf piece)) ∧
      (¬ Exits (wordsOf piece) → Rest alloc more rest) := by
  rw [canServe_iff h, ← served_iff piece rest]
  constructor
  · rintro ⟨pass, hpass, hnull, hrest⟩
    exact ⟨pass, hpass, hnull, by rwa [served_input hpass] at hrest⟩
  · rintro ⟨pass, hpass, hnull, hrest⟩
    exact ⟨pass, hpass, hnull, by rwa [← served_input hpass] at hrest⟩

/-- **Pieces**: one induction over the line, a pass at a time. -/
theorem canServe_iff_served {alloc : Allocator} {more line : List Char}
    (hline : ∀ c ∈ line, c ≠ nul ∧ c ≠ '\n') (halloc : ¬ LineRun alloc more line (.error .abort)) :
    CanServe alloc more line ↔ Served (line.splitOn eof) := by
  induction hlen : line.length using Nat.strongRecOn generalizing line with
  | ind k ih =>
    by_cases hmem : eof ∈ line
    · obtain ⟨piece, line', rfl, hpiece⟩ := List.eq_append_cons_of_mem hmem
      have hplain : ∀ c ∈ piece, Plain c := by
        intro c hc
        obtain ⟨hnul, hnewline⟩ := hline c (by simp [hc])
        exact ⟨hnul, fun h => hpiece (h ▸ hc), hnewline⟩
      have happend : (piece ++ eof :: line') ++ '\n' :: more =
          piece ++ eof :: (line' ++ '\n' :: more) := by simp
      have hpass := shellPass_piece alloc hplain (endsPiece_eof (line' ++ '\n' :: more))
      rw [← happend] at hpass
      replace hpass := hpass.resolve_left fun habort => halloc (.stop habort.2)
      rw [canServe_piece hpass, rest_line, List.splitOn_append_cons_self_of_not_mem hpiece]
      refine and_congr_right fun hok => forall_congr' ?_
      intro hno
      -- the pass returns, so the rest of the line is read
      obtain ⟨pass, hserved, hnull, -⟩ :=
        (served_iff piece (line' ++ '\n' :: more) True).2 ⟨hok, fun _ => trivial⟩
      have hdone : pass.isDone = false := by
        by_contra hdone
        exact ((served_iff piece (line' ++ '\n' :: more) False).1
          ⟨pass, hserved, hnull, .inl (by simpa using hdone)⟩).2 hno
      refine ih line'.length ?_ (fun c hc => hline c (by simp [hc])) (fun habort => ?_) rfl
      · rw [List.length_append, List.length_cons] at hlen
        omega
      · rw [hserved] at hpass
        exact halloc (.next hpass hdone (served_input hserved) habort)
    · have hplain : ∀ c ∈ line, Plain c := by
        intro c hc
        obtain ⟨hnul, hnewline⟩ := hline c hc
        exact ⟨hnul, fun h => hmem (h ▸ hc), hnewline⟩
      have hpass :=
        (shellPass_piece alloc hplain (endsPiece_newline more)).resolve_left fun habort =>
        halloc (.stop habort.2)
      rw [canServe_piece hpass, List.splitOn_eq_singleton hmem]
      exact and_congr_right fun _ => ⟨fun _ _ => trivial, fun _ _ => .inl rfl⟩

/-- A line whose words are known has no `EOF` in it, when they have none. -/
theorem splitOn_eof {line : List Char} (h : ∀ w ∈ wordsOf line, eof ∉ w) :
    line.splitOn eof = [line] := by
  refine List.splitOn_eq_singleton ?_
  intro hmem
  obtain ⟨w, hw, heof⟩ := exists_mem_fields (p := fun c => c = ' ') hmem (by decide)
  exact h w hw heof

/-- **A line is safe exactly when every piece the shell takes of it is served.** -/
theorem lineSafe_iff {alloc : Allocator} {more line : List Char}
    (hline : ∀ c ∈ line, c ≠ nul ∧ c ≠ '\n') (halloc : ¬ LineRun alloc more line (.error .abort)) :
    LineSafe alloc more line ↔ Served (line.splitOn eof) := by
  constructor
  · rintro ⟨calls, hrun, hnull, -, -⟩
    exact (canServe_iff_served hline halloc).1 ⟨calls, hrun, hnull⟩
  · intro hserved
    obtain ⟨calls, hrun, hnull⟩ := (canServe_iff_served hline halloc).2 hserved
    by_cases hnone : wordsOf line = []
    · -- only the empty line is served without a word
      rw [splitOn_eof (by rw [hnone]; simp), Served, hnone] at hserved
      obtain rfl := hserved.1.resolve_right id
      have hpass := (@shellPass_piece alloc [] _ _ (by simp) (endsPiece_newline more)).resolve_left
        fun habort => halloc (.stop habort.2)
      exact ⟨[], .last hpass rfl rfl, by simp, fun _ => rfl, fun h => absurd h (by decide)⟩
    · refine ⟨calls, hrun, hnull, fun h => absurd h hnone, ?_⟩
      intro hcd
      rw [splitOn_eof (by rw [hcd]; decide), Served, hcd] at hserved
      rcases hserved.1 with rfl | hcallable
      · exact absurd hcd (by decide)
      · exact absurd (hcallable (by decide)) (by decide)

/-- A line in one piece that there is room for is not aborted. -/
theorem not_abort {alloc : Allocator} {more line : List Char} {pass : Pass}
    (h : ShellPass alloc (line ++ '\n' :: more) (.ok pass)) (hinput : pass.input = more) :
    ¬ LineRun alloc more line (.error .abort) := by
  intro habort
  generalize hr : Except.error Stop.abort = r at habort
  cases habort with
  | stop hpass =>
    obtain rfl := Except.error.inj hr
    cases h.unique hpass
  | exit _ _ => cases hr
  | last _ _ _ => cases hr
  | next hpass _ hinput' _ =>
    obtain rfl := Except.ok.inj (h.unique hpass)
    exact length_ne (hinput'.symm.trans hinput)

theorem shellPass_roomy {piece : List Char} (h : ∀ c ∈ piece, Plain c)
    (hrun : ¬ run roomy (piece.map .add) = .error .abort) (hlen : (wordsOf piece).length < 2 ^ 59)
    (rest : List Char) : ShellPass roomy (piece ++ '\n' :: rest) (served piece rest) := by
  refine (shellPass_piece roomy h (endsPiece_newline rest)).resolve_left ?_
  rintro ⟨hrun' | ⟨n, hn, hgives⟩, -⟩
  · exact hrun hrun'
  · have hlt : 8 * (n + 1) < 2 ^ 63 := by omega
    rw [show roomy.gives (8 * (n + 1)) = true from decide_eq_true hlt] at hgives
    cases hgives

theorem lineSafe_iff_ls :
    LineSafe roomy [] "ls -l".toList ↔ Served ("ls -l".toList.splitOn eof) := by
  have hpass := @shellPass_roomy "ls -l".toList (by decide) (by decide +kernel) (by decide) []
  exact lineSafe_iff (by decide) (not_abort hpass rfl)

/-- A line of one space is compared with `exit` through a null pointer, and `cd` alone
calls `chdir` with one. -/
theorem not_lineSafe :
    (ShellPass roomy " \n".toList (.error (.undefined .nullPointer)) ∧
      ¬ LineSafe roomy [] " ".toList) ∧
    (ShellPass roomy "cd\n".toList (.ok ⟨[.chdir none], false, []⟩) ∧
      ¬ LineSafe roomy [] "cd".toList) := by
  have hspace := @shellPass_roomy " ".toList (by decide) (by decide +kernel) (by decide) []
  have hcd := @shellPass_roomy "cd".toList (by decide) (by decide +kernel) (by decide) []
  refine ⟨⟨hspace, ?_⟩, hcd, ?_⟩
  · rintro ⟨calls, hrun, hnull, -, -⟩
    obtain ⟨pass, hpass, -⟩ := (canServe_iff hspace).1 ⟨calls, hrun, hnull⟩
    cases hpass
  · rintro ⟨calls, hrun, hnull, -, -⟩
    obtain ⟨pass, hpass, hnull', -⟩ := (canServe_iff hcd).1 ⟨calls, hrun, hnull⟩
    obtain rfl := Except.ok.inj hpass
    exact hnull' (.chdir none) List.mem_cons_self rfl

end Pshy
