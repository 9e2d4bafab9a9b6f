import Sprawl.Pshy.Heap

/-!
# What the shell leaves in memory (`pshy/shell.c`)

A pass with its pointers does what it does without them: it never uses or frees what was
freed.  It gives back all it took, except for the block of an empty buffer
(`shellPassAt_follows`), so that a session keeps 64 bytes for every empty piece of its input,
and for every pass behind the end of it (`session_heap`).
-/

namespace Pshy

open Cxx Cstring Fields Heaps Simulation

/-- The buffer of a pass when the line is read, and what is left of the input. -/
def lineAt (alloc : Allocator) (m : Mem) (input : List Char) :
    Except Stop (Nat × Mem × List Char × BuffAt) := do
  let (buff, m) ← buffCreateAt m
  let (m, rest) ← readLineAt alloc m buff input
  return (buff, m, rest, ← buffAt m (some buff))

/-- One pass of `while (!is_done)` ends with `r`. -/
def ShellPassAt (alloc : Allocator) (m : Mem) (input : List Char) (r : Except Stop (Pass × Mem)) :
    Prop :=
  match lineAt alloc m input with
  | .error e => r = .error e
  | .ok (buff, m, rest, b) =>
    if b.len = 0 then r = (buffFreeAt m buff).map fun m => (⟨[], false, rest⟩, m)
    else ∃ toks, TokensFromBuffAt alloc m buff toks ∧ r = do
      let (toks, m) ← toks
      let (calls, isDone) ← dispatch (← tokensGetAt m toks)
      let m ← tokensFreeAt m toks
      let m ← buffFreeAt m buff
      return (⟨calls, isDone, rest⟩, m)

/-- `pshy_shell` in the memory `m` returns, after these calls, or is stopped. -/
inductive ShellAt (alloc : Allocator) :
    Mem → List Char → Except Stop (List Call × Mem) → Prop
  | stop {m : Mem} {input : List Char} {e : Stop} :
      ShellPassAt alloc m input (.error e) → ShellAt alloc m input (.error e)
  | exit {m m' : Mem} {input : List Char} {pass : Pass} :
      ShellPassAt alloc m input (.ok (pass, m')) → pass.isDone = true →
      ShellAt alloc m input (.ok (pass.calls, m'))
  | next {m m' : Mem} {input : List Char} {pass : Pass} {r : Except Stop (List Call × Mem)} :
      ShellPassAt alloc m input (.ok (pass, m')) → pass.isDone = false →
      ShellAt alloc m' pass.input r →
      ShellAt alloc m input (r.map fun q => (pass.calls ++ q.1, q.2))

/-- `n` passes, none of which sets `is_done`: the memory and the input behind them. -/
inductive PassesAt (alloc : Allocator) : Nat → Mem → List Char → Mem → List Char → Prop
  | start {m : Mem} {input : List Char} : PassesAt alloc 0 m input m input
  | next {n : Nat} {m m' m'' : Mem} {input rest : List Char} {pass : Pass} :
      ShellPassAt alloc m input (.ok (pass, m')) → pass.isDone = false →
      PassesAt alloc n m' pass.input m'' rest → PassesAt alloc (n + 1) m input m'' rest

/-- The block that `pshy_buff_free` keeps. -/
def emptyBlock : Object := .chars (calloc 64 nul)

/-- What a pass on this piece keeps. -/
def kept (piece : List Char) : List Object := if piece = [] then [emptyBlock] else []

/-! ## One pass -/

section
variable {alloc : Allocator} {input piece tail rest : List Char}

/-- An empty line leaves the buffer as it was created. -/
theorem readLine_kept (h : ∀ c ∈ piece, Plain c) (hend : EndsPiece tail rest) {buff : Buff}
    {rest' : List Char} (hline : readLine alloc buffCreate (piece ++ tail) = .ok (buff, rest')) :
    (if buff.len = 0 then [Object.chars buff.data] else []) = kept piece := by
  rw [readLine_piece alloc h hend] at hline
  obtain ⟨buff', hrun, heq⟩ := bind_eq_ok.1 hline
  cases heq
  have hlen : buff.len = 0 ↔ piece = [] := by
    rcases run_invariant alloc (piece.map .add) with ⟨b, hrun', hholds, -⟩ | ⟨habort, -⟩
    · have heq : b = buff := Except.ok.inj (hrun'.symm.trans hrun)
      rw [heq, added_adds] at hholds
      rw [← UInt64.toNat_inj, hholds.len]
      exact List.length_eq_zero_iff
    · cases habort.symm.trans hrun
  unfold kept
  by_cases hempty : piece = []
  · rw [if_pos (hlen.2 hempty), if_pos hempty]
    subst hempty
    cases hrun
    rfl
  · rw [if_neg (mt hlen.1 hempty), if_neg hempty]

/-- **A pass does what it does without pointers, and keeps the block of an empty buffer.** -/
theorem shellPassAt_follows (m : Mem) (h : ∀ c ∈ piece, Plain c) (hend : EndsPiece tail rest)
    {r : Except Stop Pass} (hpass : ShellPass alloc (piece ++ tail) r) :
    ∃ r', ShellPassAt alloc m (piece ++ tail) r' ∧
      Follows (fun pass q => q.1 = pass ∧ ∃ own, Owns m q.2 own ∧ own.map Prod.snd = kept piece)
        r r' := by
  obtain ⟨p, data, m₁, hcreate, H₁⟩ := buffCreateAt_spec m
  have hread := readLineAt_follows alloc H₁ (piece ++ tail)
  unfold ShellPass at hpass
  unfold ShellPassAt lineAt
  rw [hcreate, ok_bind]
  cases hline : readLine alloc buffCreate (piece ++ tail) with
  | error e =>
    rw [hline] at hpass hread
    obtain rfl : r = .error e := hpass
    simp only [hread.of_error]
    exact ⟨_, rfl, Follows.error e⟩
  | ok q =>
    obtain ⟨buff, rest'⟩ := q
    rw [hline] at hpass hread
    have hkept := readLine_kept h hend hline
    obtain ⟨⟨m₂, rest''⟩, hreadAt, hrest, data', hH⟩ := hread.of_ok
    obtain rfl : rest'' = rest' := hrest
    have H₂ : Owns m m₂ (buffOwns p data' buff) := hH
    have hbuff := buffAt_of (p := p) H₂ (List.mem_cons_of_mem _ List.mem_cons_self)
    simp only [hreadAt, ok_bind, hbuff, pure, Except.pure]
    by_cases hlen : buff.len = 0
    · simp only [if_pos hlen] at hpass ⊢
      obtain ⟨m₃, hfree, H₃⟩ := buffFreeAt_spec H₂
      rw [hpass, hfree]
      refine ⟨_, rfl, Follows.ok ⟨rfl, _, H₃, ?_⟩⟩
      rw [← hkept]
      simp only [if_pos hlen, List.map_cons, List.map_nil]
    · simp only [if_neg hlen] at hpass ⊢
      obtain ⟨toks, htoks, rfl⟩ := hpass
      obtain ⟨toks', htoks', hfollows⟩ := tokensFromBuffAt_follows alloc H₂ htoks
      refine ⟨_, ⟨toks', htoks', rfl⟩, ?_⟩
      refine Follows.bind hfollows fun t q hq => ?_
      rw [tokensGetAt_eq hq, ok_bind]
      refine Follows.same _ fun d _ => ?_
      obtain ⟨m₃, hfree, H₃⟩ := tokensFreeAt_spec hq
      obtain ⟨m₄, hfree', H₄⟩ := buffFreeAt_spec H₃
      simp only [hfree, ok_bind, hfree']
      refine Follows.ok ⟨rfl, _, H₄, ?_⟩
      rw [← hkept]
      simp only [if_neg hlen, List.map_nil]

theorem TokensFromBuffAt.unique {m : Mem} {p : Nat} {r r' : Except Stop (Nat × Mem)}
    (h : TokensFromBuffAt alloc m p r) (h' : TokensFromBuffAt alloc m p r') : r = r' := by
  unfold TokensFromBuffAt at h h'
  cases hdup : (do strdup (← charsAt m (← buffAt m (some p)).data) 0) with
  | error e =>
    simp only [hdup] at h h'
    exact h.trans h'.symm
  | ok copy =>
    simp only [hdup] at h h'
    obtain ⟨x, hx, rfl⟩ := h
    obtain ⟨x', hx', rfl⟩ := h'
    rw [hx.unique hx']

theorem ShellPassAt.unique {m : Mem} {r r' : Except Stop (Pass × Mem)}
    (h : ShellPassAt alloc m input r) (h' : ShellPassAt alloc m input r') : r = r' := by
  unfold ShellPassAt at h h'
  cases hline : lineAt alloc m input with
  | error e =>
    rw [hline] at h h'
    exact h.trans h'.symm
  | ok q =>
    rw [hline] at h h'
    by_cases hlen : q.2.2.2.len = 0
    · simp only [if_pos hlen] at h h'
      exact h.trans h'.symm
    · simp only [if_neg hlen] at h h'
      obtain ⟨toks, htoks, rfl⟩ := h
      obtain ⟨toks', htoks', rfl⟩ := h'
      rw [htoks.unique htoks']

theorem exists_shellPass (alloc : Allocator) (input : List Char) :
    ∃ r, ShellPass alloc input r := by
  obtain ⟨piece, tail, rest, rfl, hpiece, hend⟩ := exists_front_piece input
  rcases shellPass_piece alloc hpiece hend with ⟨-, h⟩ | h
  · exact ⟨_, h⟩
  · exact ⟨_, h⟩

/-- A pass with pointers is one without. -/
theorem shellPass_of_at {m : Mem} {r' : Except Stop (Pass × Mem)}
    (h : ShellPassAt alloc m input r') : ShellPass alloc input (r'.map Prod.fst) := by
  obtain ⟨r, hpass⟩ := exists_shellPass alloc input
  obtain ⟨piece, tail, rest, rfl, hpiece, hend⟩ := exists_front_piece input
  obtain ⟨r'', hat, hfollows⟩ := shellPassAt_follows m hpiece hend hpass
  rw [h.unique hat]
  cases r with
  | error e =>
    rw [hfollows.of_error]
    exact hpass
  | ok pass =>
    obtain ⟨q, rfl, rfl, -⟩ := hfollows.of_ok
    exact hpass

theorem exists_shellPassAt_ok (m : Mem) {pass : Pass} (h : ShellPass alloc input (.ok pass)) :
    ∃ m', ShellPassAt alloc m input (.ok (pass, m')) := by
  obtain ⟨piece, tail, rest, rfl, hpiece, hend⟩ := exists_front_piece input
  obtain ⟨r', hat, hfollows⟩ := shellPassAt_follows m hpiece hend h
  obtain ⟨⟨pass', m'⟩, rfl, rfl, -⟩ := hfollows.of_ok
  exact ⟨m', hat⟩

theorem shellPassAt_error (m : Mem) {e : Stop} (h : ShellPass alloc input (.error e)) :
    ShellPassAt alloc m input (.error e) := by
  obtain ⟨piece, tail, rest, rfl, hpiece, hend⟩ := exists_front_piece input
  obtain ⟨r', hat, hfollows⟩ := shellPassAt_follows m hpiece hend h
  rwa [hfollows.of_error] at hat

theorem called_ok (w : List Char) (ws : List (List Char)) : ∃ q, called (w :: ws) = .ok q := by
  rw [called]
  by_cases hexit : StartsWith "exit".toList w
  · exact ⟨_, if_pos hexit⟩
  · rw [if_neg hexit]
    by_cases hcd : StartsWith "cd".toList w
    · exact ⟨_, if_pos hcd⟩
    · exact ⟨_, if_neg hcd⟩

/-- A pass is stopped by `abort`, or by a line without a word. -/
theorem shellPass_error {e : Stop} (h : ShellPass alloc input (.error e)) :
    e = .abort ∨ e = .undefined .nullPointer := by
  obtain ⟨piece, tail, rest, rfl, hpiece, hend⟩ := exists_front_piece input
  rcases shellPass_piece alloc hpiece hend with ⟨-, habort⟩ | hserved
  · exact .inl (Except.error.inj (h.unique habort))
  · have herror := h.unique hserved
    unfold served at herror
    by_cases hempty : piece = []
    · rw [if_pos hempty] at herror
      cases herror
    · rw [if_neg hempty] at herror
      cases hwords : wordsOf piece with
      | nil =>
        rw [hwords] at herror
        exact .inr (Except.error.inj herror)
      | cons w ws =>
        obtain ⟨q, hq⟩ := called_ok w ws
        rw [hwords, hq] at herror
        cases herror

end

/-! ## Sessions -/

/-- **With its pointers the shell ends as without them.** -/
theorem shellAt_iff (alloc : Allocator) (m : Mem) (input : List Char)
    (r : Except Stop (List Call)) :
    Shell alloc input r ↔ ∃ r', ShellAt alloc m input r' ∧ r = r'.map Prod.fst := by
  constructor
  · intro h
    induction h generalizing m with
    | stop hpass => exact ⟨_, .stop (shellPassAt_error m hpass), rfl⟩
    | exit hpass hdone =>
      obtain ⟨m', hat⟩ := exists_shellPassAt_ok m hpass
      exact ⟨_, .exit hat hdone, rfl⟩
    | next hpass hdone _ ih =>
      obtain ⟨m', hat⟩ := exists_shellPassAt_ok m hpass
      obtain ⟨r', hrest, rfl⟩ := ih m'
      refine ⟨_, .next hat hdone hrest, ?_⟩
      cases r' <;> rfl
  · rintro ⟨r', h, rfl⟩
    induction h with
    | stop hat => exact .stop (shellPass_of_at hat)
    | exit hat hdone => exact .exit (shellPass_of_at hat) hdone
    | @next _ _ _ _ r' hat hdone _ ih =>
      have hrun := Shell.next (shellPass_of_at hat) hdone ih
      cases r' <;> exact hrun

theorem getD_pieces_zero {piece tail rest : List Char} (h : ∀ c ∈ piece, Plain c)
    (hend : EndsPiece tail rest) : (pieces (piece ++ tail)).getD 0 [] = piece := by
  cases hend with
  | input => rw [List.append_nil, pieces_plain h, List.getD_cons_zero]
  | char hx => rw [pieces_char h hx, List.getD_cons_zero]

/-- Behind the end of the input every pass reads an empty piece. -/
theorem getD_pieces_succ {piece tail rest : List Char} (h : ∀ c ∈ piece, Plain c)
    (hend : EndsPiece tail rest) (i : Nat) :
    (pieces (piece ++ tail)).getD (i + 1) [] = (pieces rest).getD i [] := by
  cases hend with
  | input =>
    rw [List.append_nil, pieces_plain h, List.getD_cons_succ,
      pieces_plain (fun c hc => absurd hc List.not_mem_nil)]
    cases i <;> rfl
  | char hx => rw [pieces_char h hx, List.getD_cons_succ]

/-- The empty ones of the first pieces. -/
def empties (n : Nat) (input : List Char) : Nat :=
  (List.range n).countP fun i => (pieces input).getD i [] = []

theorem empties_succ {piece tail rest : List Char} (h : ∀ c ∈ piece, Plain c)
    (hend : EndsPiece tail rest) (n : Nat) :
    List.replicate (empties (n + 1) (piece ++ tail)) emptyBlock =
      List.replicate (empties n rest) emptyBlock ++ kept piece := by
  have hcount : empties (n + 1) (piece ++ tail) = empties n rest + if piece = [] then 1 else 0 := by
    unfold empties
    rw [List.range_succ_eq_map, List.countP_cons, List.countP_map, getD_pieces_zero h hend]
    congr 1
    · refine List.countP_congr fun i _ => ?_
      show decide ((pieces (piece ++ tail)).getD (i + 1) [] = []) = true ↔ _
      rw [getD_pieces_succ h hend]
    · by_cases hempty : piece = [] <;> simp [hempty]
  rw [hcount, List.replicate_add]
  unfold kept
  by_cases hempty : piece = []
  · rw [if_pos hempty, if_pos hempty, List.replicate_one]
  · rw [if_neg hempty, if_neg hempty, List.replicate_zero]

/-- **Behind `n` passes the shell keeps a block of 64 bytes for each of them that read an
empty line, and nothing else; the next pass is stopped by `abort` or a null pointer only.** -/
theorem session_heap {alloc : Allocator} {n : Nat} {m m' : Mem} {input rest : List Char}
    (h : PassesAt alloc n m input m' rest) :
    (∃ own, Owns m m' own ∧ own.map Prod.snd = List.replicate (empties n input) emptyBlock) ∧
    ∀ e, ShellPassAt alloc m' rest (.error e) → e = .abort ∨ e = .undefined .nullPointer := by
  refine ⟨?_, fun e he => shellPass_error (shellPass_of_at he)⟩
  induction h with
  | start => exact ⟨[], Owns.refl _, rfl⟩
  | @next n m m₁ m₂ input rest' pass hat _ _ ih =>
    obtain ⟨piece, tail, rest, rfl, hpiece, hend⟩ := exists_front_piece input
    have hpass := shellPass_of_at hat
    obtain ⟨r', hat', hfollows⟩ := shellPassAt_follows m hpiece hend hpass
    rw [← hat.unique hat'] at hfollows
    obtain ⟨-, own, H, hown⟩ := hfollows
    obtain ⟨own', H', hown'⟩ := ih
    refine ⟨own' ++ own, H.trans H', ?_⟩
    have hserved : served piece rest = .ok pass := by
      rcases shellPass_piece alloc hpiece hend with ⟨-, habort⟩ | hserved
      · cases habort.unique hpass
      · exact hserved.unique hpass
    rw [List.map_append, hown, hown', served_input hserved, empties_succ hpiece hend]

/-- Two newlines, and a pass behind the end of the input. -/
theorem session_heap_newlines :
    ∃ m', PassesAt roomy 3 Heap.empty "\n\n".toList m' [] ∧
      (∃ own, Owns Heap.empty m' own ∧
        own.map Prod.snd = List.replicate (empties 3 "\n\n".toList) emptyBlock) ∧
      ∀ e, ShellPassAt roomy m' [] (.error e) → e = .abort ∨ e = .undefined .nullPointer := by
  obtain ⟨m₁, h₁⟩ := @exists_shellPassAt_ok roomy "\n\n".toList Heap.empty
    ⟨[], false, "\n".toList⟩ rfl
  obtain ⟨m₂, h₂⟩ := @exists_shellPassAt_ok roomy "\n".toList m₁ ⟨[], false, []⟩ rfl
  obtain ⟨m₃, h₃⟩ := @exists_shellPassAt_ok roomy [] m₂ ⟨[], false, []⟩ rfl
  have h : PassesAt roomy 3 Heap.empty "\n\n".toList m₃ [] := .next h₁ rfl (.next h₂ rfl
    (.next h₃ rfl .start))
  exact ⟨m₃, h, session_heap h⟩

end Pshy
