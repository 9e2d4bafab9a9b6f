import Mathlib.Order.Basic

/-!
# Programs of atoms and loops

A program is a sequence of atoms and `while` loops; a `Machine` says what an atom
does to a state and when a loop goes round again.  `Runs` is the big-step
semantics: a run that does not end has no derivation.

* `runs_append`, `runs_loop_iff`, `Runs.unique`: how runs compose.
* `Triple`: the rules of a Hoare logic for runs that end, a loop by an invariant with a
  variant.  `triple_iff`: a triple has a derivation exactly when it holds.
* `Simulates`: every run of one program has a run of the other beside it, with `R`
  between the states.  It is kept by everything programs are made with (`Simulates.append`,
  `Simulates.loop`).
-/

namespace Programs

/-- A sequence of atoms and loops. -/
inductive Code (α : Type*)
  | nil
  | atom (a : α) (rest : Code α)
  | loop (body rest : Code α)

/-- One program after the other. -/
def Code.append {α : Type*} : Code α → Code α → Code α
  | .nil, d => d
  | .atom a rest, d => .atom a (rest.append d)
  | .loop body rest, d => .loop body (rest.append d)

/-- The program that is a list of atoms. -/
def Code.straight {α : Type*} (as : List α) : Code α := as.foldr .atom .nil

/-- What the atoms do, and when a loop goes round again. -/
structure Machine (α σ : Type*) where
  act : α → σ → σ
  guard : σ → Prop

section
variable {α σ : Type*} (m : Machine α σ)

/-- Running the program leads from one state to the other. -/
inductive Runs : Code α → σ → σ → Prop
  | nil (s : σ) : Runs .nil s s
  | atom {a : α} {rest : Code α} {s s' : σ} : Runs rest (m.act a s) s' → Runs (.atom a rest) s s'
  | loopDone {body rest : Code α} {s s' : σ} :
      ¬ m.guard s → Runs rest s s' → Runs (.loop body rest) s s'
  | loopAgain {body rest : Code α} {s s₁ s' : σ} :
      m.guard s → Runs body s s₁ → Runs (.loop body rest) s₁ s' → Runs (.loop body rest) s s'

/-- The body of a loop is run `k` times, and then the loop is over. -/
def Turns (body : Code α) : Nat → σ → σ → Prop
  | 0, s, u => ¬ m.guard s ∧ s = u
  | k + 1, s, u => m.guard s ∧ ∃ s₁, Runs m body s s₁ ∧ Turns body k s₁ u

end

section
variable {α σ : Type*} {m : Machine α σ} {a : α} {c d body rest : Code α} {s s' u u' : σ}

/-! ## Runs -/

theorem runs_nil_iff : Runs m .nil s s' ↔ s' = s := by
  constructor
  · intro h
    cases h
    rfl
  · rintro rfl
    exact .nil _

theorem runs_atom_iff : Runs m (.atom a rest) s s' ↔ Runs m rest (m.act a s) s' := by
  constructor
  · intro h
    cases h with
    | atom h => exact h
  · exact .atom

theorem runs_loop_of_not (h : ¬ m.guard s) : Runs m (.loop body rest) s s' ↔ Runs m rest s s' := by
  constructor
  · intro hrun
    cases hrun with
    | loopDone _ hrest => exact hrest
    | loopAgain hg _ _ => exact absurd hg h
  · exact .loopDone h

theorem runs_loop_of_guard (h : m.guard s) : Runs m (.loop body rest) s s' ↔
    ∃ s₁, Runs m body s s₁ ∧ Runs m (.loop body rest) s₁ s' := by
  constructor
  · intro hrun
    cases hrun with
    | loopDone hg _ => exact absurd h hg
    | loopAgain _ hbody hloop => exact ⟨_, hbody, hloop⟩
  · rintro ⟨s₁, hbody, hloop⟩
    exact .loopAgain h hbody hloop

/-- A run has one end. -/
theorem Runs.unique (h : Runs m c s s') (h' : Runs m c s u) : s' = u := by
  induction h generalizing u with
  | nil s => exact (runs_nil_iff.1 h').symm
  | atom _ ih => exact ih (runs_atom_iff.1 h')
  | loopDone hg _ ih => exact ih ((runs_loop_of_not hg).1 h')
  | loopAgain hg _ _ ihb ihl =>
    obtain ⟨s₁, hbody, hloop⟩ := (runs_loop_of_guard hg).1 h'
    have heq := ihb hbody
    subst heq
    exact ihl hloop

theorem runs_append : Runs m (c.append d) s s' ↔ ∃ u, Runs m c s u ∧ Runs m d u s' := by
  constructor
  · intro h
    -- on the run: the loops of `c` are in front of it
    generalize hcd : c.append d = e at h
    induction h generalizing c with
    | nil s =>
      cases c with
      | nil =>
        refine ⟨s, .nil s, ?_⟩
        rw [show d = .nil from hcd]
        exact .nil s
      | atom a rest => cases hcd
      | loop body rest => cases hcd
    | @atom a rest s s' h ih =>
      cases c with
      | nil =>
        refine ⟨s, .nil s, ?_⟩
        rw [show d = .atom a rest from hcd]
        exact .atom h
      | atom b rest' =>
        cases hcd
        obtain ⟨u, hc, hd⟩ := ih rfl
        exact ⟨u, .atom hc, hd⟩
      | loop body rest => cases hcd
    | @loopDone body rest s s' hg h ih =>
      cases c with
      | nil =>
        refine ⟨s, .nil s, ?_⟩
        rw [show d = .loop body rest from hcd]
        exact .loopDone hg h
      | atom b rest' => cases hcd
      | loop body' rest' =>
        cases hcd
        obtain ⟨u, hc, hd⟩ := ih rfl
        exact ⟨u, .loopDone hg hc, hd⟩
    | @loopAgain body rest s s₁ s' hg hb hl _ ih =>
      cases c with
      | nil =>
        refine ⟨s, .nil s, ?_⟩
        rw [show d = .loop body rest from hcd]
        exact .loopAgain hg hb hl
      | atom b rest' => cases hcd
      | loop body' rest' =>
        cases hcd
        obtain ⟨u, hc, hd⟩ := @ih (.loop _ rest') rfl
        exact ⟨u, .loopAgain hg hb hc, hd⟩
  · rintro ⟨u, hc, hd⟩
    induction hc with
    | nil s => exact hd
    | atom _ ih => exact .atom (ih hd)
    | loopDone hg _ ih => exact .loopDone hg (ih hd)
    | loopAgain hg hb _ _ ih => exact .loopAgain hg hb (ih hd)

theorem runs_straight (as : List α) (s : σ) :
    Runs m (.straight as) s (as.foldl (fun s a => m.act a s) s) := by
  induction as generalizing s with
  | nil => exact .nil s
  | cons a as ih => exact .atom (ih (m.act a s))

theorem runs_loop_iff : Runs m (.loop body rest) s s' ↔
    ∃ k u, Turns m body k s u ∧ Runs m rest u s' := by
  constructor
  · intro h
    generalize he : Code.loop body rest = e at h
    induction h with
    | nil s => cases he
    | atom _ _ => cases he
    | loopDone hg h _ =>
      cases he
      exact ⟨0, _, ⟨hg, rfl⟩, h⟩
    | loopAgain hg hb _ _ ih =>
      cases he
      obtain ⟨k, u, hk, hu⟩ := ih rfl
      exact ⟨k + 1, u, ⟨hg, _, hb, hk⟩, hu⟩
  · rintro ⟨k, u, hk, hu⟩
    induction k generalizing s with
    | zero =>
      obtain ⟨hg, rfl⟩ := hk
      exact .loopDone hg hu
    | succ k ih =>
      obtain ⟨hg, s₁, hb, hk⟩ := hk
      exact .loopAgain hg hb (ih hk)

end

/-! ## Hoare triples -/

section
variable {α σ : Type*} (m : Machine α σ)

/-- From `P` the program ends, and in `Q`: the rules. -/
inductive Triple : (σ → Prop) → Code α → (σ → Prop) → Prop
  | nil (Q : σ → Prop) : Triple Q .nil Q
  | atom {Q R : σ → Prop} {a : α} {rest : Code α} :
      Triple R rest Q → Triple (fun s => R (m.act a s)) (.atom a rest) Q
  -- `I k` is the invariant with the variant `k`
  | loop {I : Nat → σ → Prop} {Q : σ → Prop} {body rest : Code α} :
      (∀ k, Triple (fun s => m.guard s ∧ I k s) body (fun s => ∃ j < k, I j s)) →
      Triple (fun s => ¬ m.guard s ∧ ∃ k, I k s) rest Q →
      Triple (fun s => ∃ k, I k s) (.loop body rest) Q
  | consequence {P P' Q Q' : σ → Prop} {c : Code α} :
      (∀ s, P s → P' s) → Triple P' c Q' → (∀ s, Q' s → Q s) → Triple P c Q

end

section
variable {α σ : Type*} {m : Machine α σ} {P Q R : σ → Prop} {c d : Code α}

/-- A derivation is right. -/
theorem Triple.runs (h : Triple m P c Q) : ∀ s, P s → ∃ s', Runs m c s s' ∧ Q s' := by
  induction h with
  | nil Q => exact fun s hs => ⟨s, .nil s, hs⟩
  | atom _ ih =>
    intro s hs
    obtain ⟨s', hrun, hQ⟩ := ih _ hs
    exact ⟨s', .atom hrun, hQ⟩
  | @loop I Q body rest _ _ ihb ihr =>
    rintro s ⟨k, hk⟩
    -- on the variant
    induction k using Nat.strongRecOn generalizing s with
    | ind k ih =>
      by_cases hg : m.guard s
      · obtain ⟨s₁, hbody, j, hj, hI⟩ := ihb k s ⟨hg, hk⟩
        obtain ⟨s', hloop, hQ⟩ := ih j hj s₁ hI
        exact ⟨s', .loopAgain hg hbody hloop, hQ⟩
      · obtain ⟨s', hrest, hQ⟩ := ihr s ⟨hg, k, hk⟩
        exact ⟨s', .loopDone hg hrest, hQ⟩
  | consequence hP _ hQ ih =>
    intro s hs
    obtain ⟨s', hrun, h'⟩ := ih s (hP s hs)
    exact ⟨s', hrun, hQ s' h'⟩

theorem Triple.of_pre {P' : σ → Prop} (hP : ∀ s, P s → P' s) (h : Triple m P' c Q) :
    Triple m P c Q :=
  .consequence hP h fun _ hQ => hQ

/-- The weakest precondition has a derivation. -/
theorem triple_weakest (c : Code α) (Q : σ → Prop) :
    Triple m (fun s => ∃ s', Runs m c s s' ∧ Q s') c Q := by
  induction c generalizing Q with
  | nil =>
    refine .of_pre ?_ (.nil Q)
    rintro s ⟨s', hrun, hQ⟩
    rwa [runs_nil_iff.1 hrun] at hQ
  | atom a rest ih =>
    refine .of_pre ?_ (.atom (ih Q))
    rintro s ⟨s', hrun, hQ⟩
    exact ⟨s', runs_atom_iff.1 hrun, hQ⟩
  | loop body rest ihb ihr =>
    -- the invariant: `k` more turns, and then the rest ends in `Q`
    refine .of_pre ?_
      (.loop (I := fun k s => ∃ u, Turns m body k s u ∧ ∃ s', Runs m rest u s' ∧ Q s')
      (fun k => ?_) (.of_pre ?_ (ihr Q)))
    · rintro s ⟨s', hrun, hQ⟩
      obtain ⟨k, u, hk, hu⟩ := runs_loop_iff.1 hrun
      exact ⟨k, u, hk, s', hu, hQ⟩
    · refine .of_pre ?_ (ihb _)
      rintro s ⟨hg, u, hk, hu⟩
      cases k with
      | zero => exact absurd hg hk.1
      | succ k =>
        obtain ⟨-, s₁, hb, hk⟩ := hk
        exact ⟨s₁, hb, k, Nat.lt_succ_self k, u, hk, hu⟩
    · rintro s ⟨hg, k, u, hk, hu⟩
      cases k with
      | zero =>
        obtain ⟨-, rfl⟩ := hk
        exact hu
      | succ k => exact absurd hk.1 hg

/-- **The logic is sound and complete.** -/
theorem triple_iff : Triple m P c Q ↔ ∀ s, P s → ∃ s', Runs m c s s' ∧ Q s' :=
  ⟨Triple.runs, fun h => .of_pre h (triple_weakest c Q)⟩

theorem Triple.append (hc : Triple m P c R) (hd : Triple m R d Q) : Triple m P (c.append d) Q := by
  rw [triple_iff] at hc hd ⊢
  intro s hs
  obtain ⟨u, hu, hR⟩ := hc s hs
  obtain ⟨s', hs', hQ⟩ := hd u hR
  exact ⟨s', runs_append.2 ⟨u, hu, hs'⟩, hQ⟩

end

/-! ## One program beside another -/

section
variable {α σ : Type*} (m : Machine α σ) (R : σ → σ → Prop)

/-- The atoms keep the relation, and it decides the loops. -/
structure Respects : Prop where
  act : ∀ a {s u}, R s u → R (m.act a s) (m.act a u)
  guard : ∀ {s u}, R s u → (m.guard s ↔ m.guard u)

/-- Every run of `c` has a run of `d` beside it. -/
def Simulates (c d : Code α) : Prop :=
  ∀ s u s', R s u → Runs m c s s' → ∃ u', Runs m d u u' ∧ R s' u'

end

section
variable {α σ : Type*} {m : Machine α σ} {R : σ → σ → Prop} {c c' d d' : Code α}

theorem Simulates.nil : Simulates m R .nil .nil := by
  intro s u s' hR hrun
  rw [runs_nil_iff.1 hrun]
  exact ⟨u, .nil u, hR⟩

theorem Simulates.append (hc : Simulates m R c c') (hd : Simulates m R d d') :
    Simulates m R (c.append d) (c'.append d') := by
  intro s u s' hR hrun
  obtain ⟨s₁, hs₁, hs'⟩ := runs_append.1 hrun
  obtain ⟨u₁, hu₁, hR₁⟩ := hc s u s₁ hR hs₁
  obtain ⟨u', hu', hR'⟩ := hd s₁ u₁ s' hR₁ hs'
  exact ⟨u', runs_append.2 ⟨u₁, hu₁, hu'⟩, hR'⟩

theorem Simulates.atom (hm : Respects m R) (a : α) (hc : Simulates m R c c') :
    Simulates m R (.atom a c) (.atom a c') := by
  intro s u s' hR hrun
  obtain ⟨u', hu', hR'⟩ := hc _ _ s' (hm.act a hR) (runs_atom_iff.1 hrun)
  exact ⟨u', .atom hu', hR'⟩

theorem Simulates.loop (hm : Respects m R) (hc : Simulates m R c c') (hd : Simulates m R d d') :
    Simulates m R (.loop c d) (.loop c' d') := by
  intro s u s' hR hrun
  obtain ⟨k, s₁, hk, hs'⟩ := runs_loop_iff.1 hrun
  -- turn by turn
  induction k generalizing s u with
  | zero =>
    obtain ⟨hg, rfl⟩ := hk
    obtain ⟨u', hu', hR'⟩ := hd s u s' hR hs'
    exact ⟨u', .loopDone (fun hu => hg ((hm.guard hR).2 hu)) hu', hR'⟩
  | succ k ih =>
    obtain ⟨hg, s₂, hb, hk⟩ := hk
    obtain ⟨u₂, hu₂, hR₂⟩ := hc s u s₂ hR hb
    obtain ⟨u', hu', hR'⟩ := ih s₂ u₂ hR₂ (runs_loop_iff.2 ⟨k, s₁, hk, hs'⟩) hk
    exact ⟨u', .loopAgain ((hm.guard hR).1 hg) hu₂ hu', hR'⟩

theorem Simulates.refl (hm : Respects m R) (c : Code α) : Simulates m R c c := by
  induction c with
  | nil => exact .nil
  | atom a rest ih => exact .atom hm a ih
  | loop body rest ihb ihr => exact .loop hm ihb ihr

end

end Programs
