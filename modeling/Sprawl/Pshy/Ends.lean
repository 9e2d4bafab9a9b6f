import Sprawl.Pshy.Shell

/-!
# When the shell ends (`pshy/shell.c`)

The loop is left through `is_done` alone, which a word that starts with `exit` sets; the end
of the input ends a pass and not the loop, and behind it every pass reads an empty line.  So
`pshy_shell` returns exactly when some piece of the input exits, and every piece in front of
it is empty or has a word (`shell_returns_iff`).
-/

namespace Pshy

open Cxx Cstring Fields

/-- `pshy_shell` on this input returns, after these calls, or is stopped. -/
inductive Shell (alloc : Allocator) : List Char → Except Stop (List Call) → Prop
  | stop {input : List Char} {e : Stop} :
      ShellPass alloc input (.error e) → Shell alloc input (.error e)
  | exit {input : List Char} {pass : Pass} :
      ShellPass alloc input (.ok pass) → pass.isDone = true → Shell alloc input (.ok pass.calls)
  | next {input : List Char} {pass : Pass} {r : Except Stop (List Call)} :
      ShellPass alloc input (.ok pass) → pass.isDone = false → Shell alloc pass.input r →
      Shell alloc input (r.map fun calls => pass.calls ++ calls)

def ShellReturns (alloc : Allocator) (input : List Char) : Prop :=
  ∃ calls, Shell alloc input (.ok calls)

/-- The input between the characters that end a pass. -/
def pieces (input : List Char) : List (List Char) := input.splitOnP fun c => ¬ Plain c

/-- Some piece exits, and those in front of it are empty or have a word. -/
def ExitsAt : List (List Char) → Prop
  | [] => False
  | piece :: rest =>
    Exits (wordsOf piece) ∨ (piece = [] ∨ wordsOf piece ≠ []) ∧ ExitsAt rest

/-! ## One pass -/

/-- The piece in front of the input. -/
theorem exists_front_piece (input : List Char) :
    ∃ piece tail rest, input = piece ++ tail ∧ (∀ c ∈ piece, Plain c) ∧ EndsPiece tail rest := by
  by_cases h : ∀ c ∈ input, Plain c
  · exact ⟨input, [], [], (List.append_nil _).symm, h, .input⟩
  · obtain ⟨piece, x, rest, hsplit, hpiece, hx⟩ := exists_piece h
    exact ⟨piece, x :: rest, rest, hsplit, hpiece, .char hx⟩

section
variable {alloc : Allocator} {input : List Char}

theorem shellReturns_iff {r : Except Stop Pass} (h : ShellPass alloc input r) :
    ShellReturns alloc input ↔
      ∃ pass, r = .ok pass ∧ (pass.isDone = true ∨ ShellReturns alloc pass.input) := by
  constructor
  · rintro ⟨calls, hrun⟩
    generalize hr : Except.ok calls = r' at hrun
    cases hrun with
    | stop _ => cases hr
    | exit hpass hdone => exact ⟨_, h.unique hpass, .inl hdone⟩
    | @next _ pass r' hpass _ hrest =>
      cases r' with
      | error e => cases hr
      | ok calls' => exact ⟨pass, h.unique hpass, .inr ⟨calls', hrest⟩⟩
  · rintro ⟨pass, rfl, hrest⟩
    cases hdone : pass.isDone with
    | true => exact ⟨pass.calls, .exit h hdone⟩
    | false =>
      rw [hdone, or_iff_right Bool.false_ne_true] at hrest
      obtain ⟨calls, hrun⟩ := hrest
      exact ⟨_, .next h hdone hrun⟩

/-- The pass on the first piece, for what `K` says of the rest. -/
theorem served_returns_iff (piece rest : List Char) (K : Prop) :
    (∃ pass, served piece rest = .ok pass ∧ (pass.isDone = true ∨ K)) ↔
      Exits (wordsOf piece) ∨ (piece = [] ∨ wordsOf piece ≠ []) ∧ K := by
  constructor
  · rintro ⟨pass, hpass, hdone⟩
    cases served_eq_ok.1 hpass with
    | empty => exact .inr ⟨.inl rfl, hdone.resolve_left Bool.false_ne_true⟩
    | exit hwords hexit =>
      rw [hwords]
      exact .inl ⟨_, rfl, hexit⟩
    | cd hwords =>
      rw [hwords]
      exact .inr ⟨.inr (List.cons_ne_nil _ _), hdone.resolve_left Bool.false_ne_true⟩
    | exec hwords =>
      rw [hwords]
      exact .inr ⟨.inr (List.cons_ne_nil _ _), hdone.resolve_left Bool.false_ne_true⟩
  · cases hwords : wordsOf piece with
    | nil =>
      rintro (⟨w, hw, -⟩ | ⟨rfl | hne, hK⟩)
      · cases hw
      · exact ⟨_, served_eq_ok.2 .empty, .inr hK⟩
      · exact absurd rfl hne
    | cons w ws =>
      intro h
      by_cases hexit : StartsWith "exit".toList w
      · exact ⟨_, served_eq_ok.2 (.exit hwords hexit), .inl rfl⟩
      · have hK : K := by
          rcases h with ⟨v, hv, hstart⟩ | ⟨-, hK⟩
          · obtain rfl := Option.some.inj hv
            exact absurd hstart hexit
          · exact hK
        by_cases hcd : StartsWith "cd".toList w
        · exact ⟨_, served_eq_ok.2 (.cd hwords hexit hcd), .inr hK⟩
        · exact ⟨_, served_eq_ok.2 (.exec hwords hexit hcd), .inr hK⟩

end

/-- On the end of the input a pass leaves the end of the input. -/
theorem not_shell_nil (alloc : Allocator) (r : Except Stop (List Call)) : ¬ Shell alloc [] r := by
  have hpass : ShellPass alloc [] (.ok ⟨[], false, []⟩) := rfl
  intro hrun
  generalize hin : ([] : List Char) = input at hrun
  induction hrun with
  | stop h =>
    subst hin
    cases hpass.unique h
  | exit h hdone =>
    subst hin
    obtain rfl := Except.ok.inj (hpass.unique h)
    cases hdone
  | next h _ _ ih =>
    subst hin
    obtain rfl := Except.ok.inj (hpass.unique h)
    exact ih rfl

theorem not_shellReturns_nil (alloc : Allocator) : ¬ ShellReturns alloc [] := by
  rintro ⟨calls, hrun⟩
  exact not_shell_nil alloc _ hrun

/-! ## The input -/

theorem pieces_plain {piece : List Char} (h : ∀ c ∈ piece, Plain c) : pieces piece = [piece] := by
  refine List.splitOnP_eq_singleton ?_
  intro c hc
  simpa using h c hc

theorem pieces_char {piece rest : List Char} {x : Char} (h : ∀ c ∈ piece, Plain c)
    (hx : ¬ Plain x) : pieces (piece ++ x :: rest) = piece :: pieces rest := by
  refine List.splitOnP_append_cons_of_forall_mem ?_ x ?_ rest
  · intro c hc
    simpa using h c hc
  · simpa using hx

/-- **The shell returns exactly when a piece of the input exits and every piece in front of
it is empty or has a word.** -/
theorem shell_returns_iff {alloc : Allocator} {input : List Char}
    (halloc : ¬ Shell alloc input (.error .abort)) :
    ShellReturns alloc input ↔ ExitsAt (pieces input) := by
  induction hlen : input.length using Nat.strongRecOn generalizing input with
  | ind k ih =>
    obtain ⟨piece, tail, rest, rfl, hpiece, hend⟩ := exists_front_piece input
    have hpass := (shellPass_piece alloc hpiece hend).resolve_left fun habort =>
      halloc (.stop habort.2)
    have hreturns : ShellReturns alloc (piece ++ tail) ↔ Exits (wordsOf piece) ∨
        (piece = [] ∨ wordsOf piece ≠ []) ∧ ShellReturns alloc rest := by
      rw [shellReturns_iff hpass, ← served_returns_iff piece rest]
      constructor
      · rintro ⟨pass, hserved, hdone⟩
        exact ⟨pass, hserved, by rwa [served_input hserved] at hdone⟩
      · rintro ⟨pass, hserved, hdone⟩
        exact ⟨pass, hserved, by rwa [served_input hserved]⟩
    rw [hreturns]
    cases hend with
    | input =>
      rw [List.append_nil, pieces_plain hpiece, ExitsAt, ExitsAt]
      exact or_congr_right (and_congr_right fun _ => iff_of_false (not_shellReturns_nil alloc) id)
    | @char x rest hx =>
      rw [pieces_char hpiece hx, ExitsAt]
      by_cases hexits : Exits (wordsOf piece)
      · exact iff_of_true (.inl hexits) (.inl hexits)
      · rw [or_iff_right hexits, or_iff_right hexits]
        refine and_congr_right fun hok => ?_
        -- the pass returns without `exit`, so the rest of the input is read
        obtain ⟨pass, hserved, -⟩ := (served_returns_iff piece rest True).2 (.inr ⟨hok, trivial⟩)
        have hdone : pass.isDone = false := by
          by_contra hdone
          have hexit := (served_returns_iff piece rest False).1
            ⟨pass, hserved, .inl (by simpa using hdone)⟩
          exact hexits (hexit.resolve_right fun h => h.2)
        refine ih rest.length ?_ (fun habort => ?_) rfl
        · rw [List.length_append, List.length_cons] at hlen
          omega
        · rw [hserved] at hpass
          have hinput := served_input hserved
          rw [← hinput] at habort
          exact halloc (.next hpass hdone habort)

theorem shell_returns_iff_exit :
    ShellReturns roomy ("exit".toList ++ '\n' :: "ls".toList) ↔
      ExitsAt (pieces ("exit".toList ++ '\n' :: "ls".toList)) := by
  have hpass := @shellPass_roomy "exit".toList (by decide) (by decide +kernel) (by decide)
    "ls".toList
  refine shell_returns_iff fun habort => ?_
  generalize hr : Except.error Stop.abort = r at habort
  cases habort with
  | stop h =>
    obtain rfl := Except.error.inj hr
    cases hpass.unique h
  | exit _ _ => cases hr
  | next h hdone _ =>
    obtain rfl := Except.ok.inj (hpass.unique h)
    cases hdone

/-- On the empty input the shell does not return. -/
theorem not_shell_returns :
    ¬ ∀ (alloc : Allocator) (input : List Char), ¬ Shell alloc input (.error .abort) →
      ShellReturns alloc input := by
  intro h
  exact not_shellReturns_nil roomy (h roomy [] (not_shell_nil roomy _))

end Pshy
