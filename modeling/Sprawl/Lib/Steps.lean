import Mathlib.Data.List.Induction
import Mathlib.Tactic.Common

/-!
# Systems that take one step after the other

`foldlM` runs a step function that may stop over a list of events.  What holds at the start
and is kept by each step holds behind every run (`run_induction`), and a run that stops has a
first step that did (`exists_stop`).  Where some step always brings the system closer to its
end, it can reach it (`exists_finish`).
-/

namespace Steps

variable {σ ι ε : Type} {step : σ → ι → Except ε σ} {s s' : σ}

theorem run_concat {events : List ι} {event : ι} :
    (events ++ [event]).foldlM step s = .ok s' ↔
      ∃ t, events.foldlM step s = .ok t ∧ step t event = .ok s' := by
  rw [List.foldlM_append]
  cases events.foldlM step s with
  | error e =>
    constructor
    · intro h
      cases h
    · rintro ⟨t, ht, -⟩
      cases ht
  | ok t =>
    show ([event].foldlM step t = _) ↔ _
    rw [List.foldlM_cons]
    cases hstep : step t event with
    | error e =>
      constructor
      · intro h
        cases h
      · rintro ⟨t', ht, hstep'⟩
        cases ht
        rw [hstep] at hstep'
        cases hstep'
    | ok u =>
      constructor
      · intro h
        cases h
        exact ⟨t, rfl, hstep⟩
      · rintro ⟨t', ht, hstep'⟩
        cases ht
        rw [hstep] at hstep'
        cases hstep'
        rfl

/-- **What every step keeps holds behind every run**, of the events so far and the state. -/
theorem run_induction {P : List ι → σ → Prop} (start : P [] s)
    (keeps : ∀ events t event t', P events t → step t event = .ok t' → P (events ++ [event]) t')
    {events : List ι} (h : events.foldlM step s = .ok s') : P events s' := by
  induction events using List.reverseRecOn generalizing s' with
  | nil =>
    cases h
    exact start
  | append_singleton events event ih =>
    obtain ⟨t, hrun, hstep⟩ := run_concat.1 h
    exact keeps events t event s' (ih hrun) hstep

/-- A run that stops, stops at one of its steps. -/
theorem exists_stop {events : List ι} {e : ε} (h : events.foldlM step s = .error e) :
    ∃ pre event post t, events = pre ++ event :: post ∧ pre.foldlM step s = .ok t ∧
      step t event = .error e := by
  induction events generalizing s with
  | nil => cases h
  | cons event events ih =>
    rw [List.foldlM_cons] at h
    cases hstep : step s event with
    | error e' =>
      rw [hstep] at h
      cases h
      exact ⟨[], event, events, s, rfl, rfl, hstep⟩
    | ok t =>
      rw [hstep] at h
      obtain ⟨pre, event', post, u, rfl, hrun, hstop⟩ := ih h
      refine ⟨event :: pre, event', post, u, rfl, ?_, hstop⟩
      rw [List.foldlM_cons, hstep]
      exact hrun

/-- **A system that can always come closer to its end can reach it.** -/
theorem exists_finish {I : σ → Prop} {done : σ → Prop} (measure : σ → Nat)
    (progress : ∀ s, I s → ¬ done s → ∃ i s', step s i = .ok s' ∧ I s' ∧ measure s' < measure s)
    {s : σ} (hs : I s) :
    ∃ (schedule : List ι) (s' : σ), schedule.foldlM step s = .ok s' ∧ I s' ∧ done s' := by
  induction hm : measure s using Nat.strongRecOn generalizing s with
  | ind m ih =>
    by_cases hdone : done s
    · exact ⟨[], s, rfl, hs, hdone⟩
    · obtain ⟨i, t, hstep, ht, hlt⟩ := progress s hs hdone
      rw [hm] at hlt
      obtain ⟨schedule, s', hrun, hs', hend⟩ := ih (measure t) hlt ht rfl
      refine ⟨i :: schedule, s', ?_, hs', hend⟩
      rw [List.foldlM_cons, hstep]
      exact hrun

end Steps
