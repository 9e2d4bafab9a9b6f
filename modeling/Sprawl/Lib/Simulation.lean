import Sprawl.Lib.Loop

/-!
# One program follows another

A call `Follows` another when it fails with the same error, or returns what is related to what
the other returns.  `Follows.bind` takes two programs apart step by step, `Follows.same` where
both make the same call, and `returns_simulates` is the rule for loops.
-/

namespace Simulation

open Loop

section
variable {ε α β γ δ : Type}

def Follows (R : α → β → Prop) : Except ε α → Except ε β → Prop
  | .error e, .error e' => e = e'
  | .ok a, .ok b => R a b
  | _, _ => False

variable {R : α → β → Prop} {S : γ → δ → Prop} {x : Except ε α} {y : Except ε β}

theorem Follows.ok {a : α} {b : β} (h : R a b) :
    Follows R (.ok a : Except ε α) (.ok b : Except ε β) := h

theorem Follows.error (e : ε) : Follows R (.error e : Except ε α) (.error e : Except ε β) := rfl

/-- The next calls of both. -/
theorem Follows.bind (h : Follows R x y) {f : α → Except ε γ} {g : β → Except ε δ}
    (hnext : ∀ a b, R a b → Follows S (f a) (g b)) : Follows S (x >>= f) (y >>= g) := by
  cases x with
  | error e =>
    cases y with
    | error e' => exact h
    | ok b => exact h.elim
  | ok a =>
    cases y with
    | error e' => exact h.elim
    | ok b => exact hnext a b h

/-- Both make the same call. -/
theorem Follows.same (x : Except ε α) {f : α → Except ε γ} {g : α → Except ε δ}
    (hnext : ∀ a, x = .ok a → Follows S (f a) (g a)) : Follows S (x >>= f) (x >>= g) := by
  cases x with
  | error e => exact Follows.error e
  | ok a => exact hnext a rfl

theorem Follows.of_ok {a : α} (h : Follows R (.ok a) y) : ∃ b, y = .ok b ∧ R a b := by
  cases y with
  | error e => exact h.elim
  | ok b => exact ⟨b, rfl, h⟩

theorem Follows.of_error {e : ε} (h : Follows R (.error e) y) : y = .error e := by
  cases y with
  | error e' => exact congrArg _ (Eq.symm h)
  | ok b => exact h.elim

end

/-! ## Loops -/

section
variable {σ ρ σ' ρ' : Type*}

/-- The turn of a loop that follows another. -/
def TurnFollows (R : σ → σ' → Prop) (G : ρ → ρ' → Prop) :
    Turn σ ρ → Turn σ' ρ' → Prop
  | .again s, .again s' => R s s'
  | .done r, .done r' => G r r'
  | _, _ => False

theorem TurnFollows.done {R : σ → σ' → Prop} {G : ρ → ρ' → Prop} {r : ρ} {r' : ρ'}
    (h : G r r') : TurnFollows R G (.done r) (.done r') := h

theorem TurnFollows.again {R : σ → σ' → Prop} {G : ρ → ρ' → Prop} {s : σ} {s' : σ'}
    (h : R s s') : TurnFollows R G (.again s) (.again s') := h

/-- **Simulation rule for relations.**  A loop each of whose turns is followed stops with what
follows its result. -/
theorem returns_simulates {body : σ → Turn σ ρ} {body' : σ' → Turn σ' ρ'} {R : σ → σ' → Prop}
    {G : ρ → ρ' → Prop} (hR : ∀ s s', R s s' → TurnFollows R G (body s) (body' s')) {s : σ}
    {s' : σ'} (hs : R s s') {r : ρ} (h : Returns body s r) :
    ∃ r', Returns body' s' r' ∧ G r r' := by
  obtain ⟨n, hn⟩ := h
  induction n generalizing s s' with
  | zero => simp [iterate] at hn
  | succ n ih =>
    have hturn := hR s s' hs
    cases hb : body s with
    | done x =>
      rw [iterate_succ_done hb] at hn
      rw [hb] at hturn
      cases hn
      cases hb' : body' s' with
      | done r' =>
        rw [hb'] at hturn
        exact ⟨r', returns_of_done hb', hturn⟩
      | again t' =>
        rw [hb'] at hturn
        exact hturn.elim
    | again t =>
      rw [iterate_succ_again hb] at hn
      rw [hb] at hturn
      cases hb' : body' s' with
      | done r' =>
        rw [hb'] at hturn
        exact hturn.elim
      | again t' =>
        rw [hb'] at hturn
        obtain ⟨r', hr', hG⟩ := ih hturn hn
        exact ⟨r', (returns_again_iff hb').2 hr', hG⟩

end

end Simulation
