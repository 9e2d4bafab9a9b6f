import Mathlib.Logic.Relation

/-!
# `while` loops

A loop is its body: one turn either goes round again with a new state or stops
with a result.  `iterate` runs it on fuel, `Returns` says that it stops with a
given result after some number of turns; a loop that runs forever returns
nothing.

* `Returns.unique`: at most one result.
* `Reach.returns_iff`: running up to a later state does not change the result.
* `Returns.invariant`: what every turn keeps holds in the turn that stops.
* `exists_returns`, `not_returns`: when a loop stops, and when it does not.
* `Returns.map`: a loop that runs in step with another returns its result,
  and `returns_map_iff`: no other.
-/

namespace Loop

variable {σ ρ : Type*}

/-- One turn of a loop. -/
inductive Turn (σ ρ : Type*)
  | again (s : σ)
  | done (r : ρ)
deriving DecidableEq

/-- A turn seen through maps of the states and the results. -/
def Turn.map {σ' ρ' : Type*} (f : σ → σ') (g : ρ → ρ') : Turn σ ρ → Turn σ' ρ'
  | again s => again (f s)
  | done r => done (g r)

/-- At most `fuel` turns of the loop. -/
def iterate (body : σ → Turn σ ρ) : Nat → σ → Option ρ
  | 0, _ => none
  | fuel + 1, s =>
    match body s with
    | .done r => some r
    | .again s' => iterate body fuel s'

/-- The loop, entered in state `s`, stops with result `r`. -/
def Returns (body : σ → Turn σ ρ) (s : σ) (r : ρ) : Prop := ∃ fuel, iterate body fuel s = some r

/-- Some number of turns leads from `s` to `t`. -/
def Reach (body : σ → Turn σ ρ) : σ → σ → Prop :=
  Relation.ReflTransGen fun s t => body s = .again t

section
variable {body : σ → Turn σ ρ} {s t u : σ} {r r' : ρ}

theorem iterate_succ_done (h : body s = .done r) (n : Nat) : iterate body (n + 1) s = some r := by
  simp only [iterate, h]

theorem iterate_succ_again (h : body s = .again t) (n : Nat) :
    iterate body (n + 1) s = iterate body n t := by
  simp only [iterate, h]

/-- More fuel does not change a result. -/
theorem iterate_mono (n m : Nat) (hnm : n ≤ m) :
    ∀ s, iterate body n s = some r → iterate body m s = some r := by
  induction n generalizing m with
  | zero => intro s h; simp [iterate] at h
  | succ n ih =>
    intro s h
    obtain ⟨m, rfl⟩ : ∃ k, m = k + 1 := ⟨m - 1, by omega⟩
    cases hb : body s with
    | done x =>
      rw [iterate_succ_done hb] at h ⊢
      exact h
    | again t =>
      rw [iterate_succ_again hb] at h ⊢
      exact ih m (by omega) t h

theorem Returns.unique (h : Returns body s r) (h' : Returns body s r') : r = r' := by
  obtain ⟨n, hn⟩ := h
  obtain ⟨m, hm⟩ := h'
  have h1 := iterate_mono n (max n m) (Nat.le_max_left _ _) s hn
  have h2 := iterate_mono m (max n m) (Nat.le_max_right _ _) s hm
  rw [h1] at h2
  exact Option.some.inj h2

theorem returns_of_done (h : body s = .done r) : Returns body s r :=
  ⟨1, iterate_succ_done h 0⟩

theorem returns_done_iff (h : body s = .done r') : Returns body s r ↔ r = r' :=
  ⟨fun hr => hr.unique (returns_of_done h), fun e => e ▸ returns_of_done h⟩

/-- The fuel of a turn that goes round again. -/
theorem iterate_again {k : Nat} (h : body s = .again t) (hk : iterate body k s = some r) :
    ∃ k', k = k' + 1 ∧ iterate body k' t = some r := by
  cases k with
  | zero => simp [iterate] at hk
  | succ k => exact ⟨k, rfl, by rwa [iterate_succ_again h] at hk⟩

theorem returns_again_iff (h : body s = .again t) : Returns body s r ↔ Returns body t r := by
  constructor
  · rintro ⟨n, hn⟩
    obtain ⟨k, -, hk⟩ := iterate_again h hn
    exact ⟨k, hk⟩
  · rintro ⟨n, hn⟩
    exact ⟨n + 1, by rwa [iterate_succ_again h]⟩

theorem Reach.refl (s : σ) : Reach body s s := Relation.ReflTransGen.refl

theorem Reach.single (h : body s = .again t) : Reach body s t := Relation.ReflTransGen.single h

theorem Reach.trans (h : Reach body s t) (h' : Reach body t u) : Reach body s u :=
  Relation.ReflTransGen.trans h h'

instance : Trans (Reach body) (Reach body) (Reach body) := ⟨Reach.trans⟩

theorem Reach.head (h : body s = .again t) (h' : Reach body t u) : Reach body s u :=
  Relation.ReflTransGen.head h h'

/-- A loop that stops passes every state it reaches, with no more fuel. -/
theorem Reach.iterate {k : Nat} (h : Reach body s t) (hk : iterate body k s = some r) :
    ∃ k' ≤ k, Loop.iterate body k' t = some r := by
  induction h with
  | refl => exact ⟨k, Nat.le_refl k, hk⟩
  | tail _ hb ih =>
    obtain ⟨k', hle, hk'⟩ := ih
    obtain ⟨k'', rfl, hk''⟩ := iterate_again hb hk'
    exact ⟨k'', by omega, hk''⟩

/-- Running up to a later state does not change the result. -/
theorem Reach.returns_iff (h : Reach body s t) : Returns body s r ↔ Returns body t r := by
  induction h with
  | refl => rfl
  | tail _ hb ih => rw [ih, returns_again_iff hb]

/-- **Invariant rule.**  What every turn keeps holds in the turn that stops. -/
theorem Returns.invariant (I : σ → Prop) (hI : ∀ s t, I s → body s = .again t → I t)
    (hs : I s) (h : Returns body s r) : ∃ t, I t ∧ body t = .done r := by
  obtain ⟨n, hn⟩ := h
  induction n generalizing s with
  | zero => simp [iterate] at hn
  | succ n ih =>
    cases hb : body s with
    | done x =>
      rw [iterate_succ_done hb] at hn
      exact ⟨s, hs, by rw [hb, Option.some.inj hn]⟩
    | again t =>
      rw [iterate_succ_again hb] at hn
      exact ih (hI s t hs hb) hn

/-- **Termination rule.**  A loop that makes a number smaller at each turn it reaches stops. -/
theorem exists_returns (m : σ → Nat)
    (h : ∀ t, Reach body s t → ∀ u, body t = .again u → m u < m t) : ∃ r, Returns body s r := by
  induction hm : m s using Nat.strongRecOn generalizing s with
  | ind n ih =>
    cases hb : body s with
    | done x => exact ⟨x, returns_of_done hb⟩
    | again t =>
      have hlt := h s (Reach.refl s) t hb
      obtain ⟨r, hr⟩ := ih (m t) (hm ▸ hlt) (fun u hu => h u (Reach.head hb hu)) rfl
      exact ⟨r, (returns_again_iff hb).2 hr⟩

/-- **Divergence rule.**  A loop that can go on from every state of a set never stops there. -/
theorem not_returns (I : σ → Prop) (hI : ∀ s, I s → ∃ t, I t ∧ body s = .again t) (hs : I s) :
    ¬ Returns body s r := by
  intro h
  obtain ⟨t, ht, hdone⟩ := h.invariant I (fun s t hs hb => by
    obtain ⟨u, hu, hagain⟩ := hI s hs
    rw [hb] at hagain
    cases hagain
    exact hu) hs
  obtain ⟨u, -, hagain⟩ := hI t ht
  rw [hdone] at hagain
  cases hagain

/-- **Simulation rule.**  A loop whose turns are the images of another loop's turns
has the image of its result. -/
theorem Returns.map {σ' ρ' : Type*} {body' : σ' → Turn σ' ρ'} (f : σ → σ') (g : ρ → ρ')
    (hf : ∀ s, body' (f s) = (body s).map f g) (h : Returns body s r) :
    Returns body' (f s) (g r) := by
  obtain ⟨n, hn⟩ := h
  induction n generalizing s with
  | zero => simp [iterate] at hn
  | succ n ih =>
    have hs := hf s
    cases hb : body s with
    | done x =>
      rw [iterate_succ_done hb] at hn
      rw [hb] at hs
      cases hn
      exact returns_of_done hs
    | again t =>
      rw [iterate_succ_again hb] at hn
      rw [hb] at hs
      exact (returns_again_iff hs).2 (ih hn)

/-- The image of a loop stops only with the image of a result of the loop. -/
theorem returns_map_iff {σ' ρ' : Type*} {body' : σ' → Turn σ' ρ'} (f : σ → σ') (g : ρ → ρ')
    (hf : ∀ s, body' (f s) = (body s).map f g) {r' : ρ'} :
    Returns body' (f s) r' ↔ ∃ r, Returns body s r ∧ g r = r' := by
  constructor
  · rintro ⟨n, hn⟩
    induction n generalizing s with
    | zero => simp [iterate] at hn
    | succ n ih =>
      have hs := hf s
      cases hb : body s with
      | done x =>
        rw [hb] at hs
        rw [iterate_succ_done hs] at hn
        exact ⟨x, returns_of_done hb, Option.some.inj hn⟩
      | again t =>
        rw [hb] at hs
        rw [iterate_succ_again hs] at hn
        obtain ⟨r, hr, hg⟩ := ih hn
        exact ⟨r, (returns_again_iff hb).2 hr, hg⟩
  · rintro ⟨r, hr, rfl⟩
    exact hr.map f g hf

end

end Loop
