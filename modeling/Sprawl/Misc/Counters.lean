import Sprawl.Lib.Cxx
import Sprawl.Lib.Steps
import Sprawl.Lib.Threads

/-!
# Counting under a lock (`section_1_5_2` of `misc/lbos.cc`)

Each thread of `counters_mutex` takes the lock, reads the counter, writes it back plus one and
gives the lock back, as often as its loop says.  In every interleaving at most one thread is
behind the lock, the counter is the number of rounds that have written it, no thread waits
for ever, and once all have finished it is the number of threads times the number of rounds
(`add_exact`), provided that fits an `int`; otherwise some interleaving overflows
(`add_returns_iff`).  The threads of `counters_atomic` need no lock (`atomic_exact`).
-/

namespace Lbos

open Cxx Threads

/-! ## The code -/

/-- Where a thread is in a round of `add`; `cnt = cnt + 1` is a load and a store. -/
inductive At
  | outside
  | locked
  | loaded (cnt : Int)
  | stored
deriving DecidableEq

/-- The rounds a thread has behind it, and where it is in the next one. -/
structure Adder where
  i : Nat
  place : At

/-- The counter, the owner of the mutex, and the threads. -/
structure Counters (n : Nat) where
  cnt : Int
  owner : Option (Fin n)
  thread : Fin n → Adder

/-- `cnt + 1`, of an `int`. -/
def incrInt (cnt : Int) : Except Stop Int :=
  if cnt < 2 ^ 31 - 1 then .ok (cnt + 1) else .error (.undefined .signedOverflow)

namespace Counters

variable {n : Nat}

def start (n : Nat) : Counters n :=
  { cnt := 0, owner := none, thread := fun _ => { i := 0, place := .outside } }

/-- The thread `t` goes on to `place`, in the round `i`. -/
def moved (s : Counters n) (t : Fin n) (i : Nat) (place : At) : Fin n → Adder :=
  Function.update s.thread t { i := i, place := place }

/-- The next atomic step of the thread `t` of `add`, with `rounds` for its 1000. -/
def step (rounds : Nat) (s : Counters n) (t : Fin n) : Except Stop (Counters n) :=
  match (s.thread t).place with
  | .outside =>
    -- the end of the loop, or a lock that another thread has
    if (s.thread t).i < rounds ∧ s.owner = none then
      .ok { s with owner := some t, thread := s.moved t (s.thread t).i .locked }
    else .ok s
  | .locked => .ok { s with thread := s.moved t (s.thread t).i (.loaded s.cnt) }
  | .loaded cnt => do
    let cnt ← incrInt cnt
    .ok { s with cnt := cnt, thread := s.moved t (s.thread t).i .stored }
  | .stored => .ok { s with owner := none, thread := s.moved t ((s.thread t).i + 1) .outside }

/-- The counters behind a schedule. -/
def run (rounds : Nat) (schedule : List (Fin n)) : Except Stop (Counters n) :=
  schedule.foldlM (step rounds) (start n)

/-- Behind its loop. -/
def Finished (rounds : Nat) (s : Counters n) (t : Fin n) : Prop :=
  (s.thread t).i = rounds ∧ (s.thread t).place = .outside

end Counters

/-- Between the lock and the unlock. -/
def Adder.inside (a : Adder) : Bool := a.place ≠ .outside

/-- The increments it has written. -/
def Adder.written (a : Adder) : Nat := a.i + if a.place = .stored then 1 else 0

/-- The steps it has taken. -/
def Adder.taken (a : Adder) : Nat :=
  4 * a.i + match a.place with
    | .outside => 0
    | .locked => 1
    | .loaded _ => 2
    | .stored => 3

/-! ## One step -/

namespace Counters

variable {n rounds : Nat} {s : Counters n}

/-- What holds behind every schedule. -/
structure Invariant (rounds : Nat) (s : Counters n) : Prop where
  guarded : Guarded Adder.inside s.owner s.thread
  cnt_eq : s.cnt = total Adder.written s.thread
  cnt_lt : s.cnt < 2 ^ 31
  loaded : ∀ t cnt, (s.thread t).place = .loaded cnt → cnt = s.cnt
  i_le : ∀ t, (s.thread t).i + (if (s.thread t).inside then 1 else 0) ≤ rounds

theorem Invariant.written_le (h : Invariant rounds s) (t : Fin n) :
    (s.thread t).written ≤ rounds := by
  have hi := h.i_le t
  unfold Adder.inside at hi
  unfold Adder.written
  cases hplace : (s.thread t).place with
  | outside => simpa [hplace] using hi
  | locked =>
    simp [hplace] at hi ⊢
    omega
  | loaded cnt =>
    simp [hplace] at hi ⊢
    omega
  | stored => simpa [hplace] using hi

theorem invariant_start (rounds : Nat) : Invariant rounds (start n) where
  guarded := Guarded.start fun _ => rfl
  cnt_eq := by
    have hzero : total Adder.written (start n).thread = n * 0 := total_const fun _ => rfl
    rw [hzero]
    rfl
  cnt_lt := by
    show (0 : Int) < 2 ^ 31
    decide
  loaded := by
    intro t cnt h
    cases h
  i_le := fun _ => Nat.zero_le rounds

/-- What the thread `t` can do. -/
theorem step_cases {s' : Counters n} {t : Fin n} (h : step rounds s t = .ok s') :
    ((s.thread t).place = .outside ∧ ¬ ((s.thread t).i < rounds ∧ s.owner = none) ∧ s' = s) ∨
    ((s.thread t).place = .outside ∧ (s.thread t).i < rounds ∧ s.owner = none ∧
      s' = { s with owner := some t, thread := s.moved t (s.thread t).i .locked }) ∨
    ((s.thread t).place = .locked ∧
      s' = { s with thread := s.moved t (s.thread t).i (.loaded s.cnt) }) ∨
    (∃ cnt, (s.thread t).place = .loaded cnt ∧ cnt < 2 ^ 31 - 1 ∧
      s' = { s with cnt := cnt + 1, thread := s.moved t (s.thread t).i .stored }) ∨
    ((s.thread t).place = .stored ∧
      s' = { s with owner := none, thread := s.moved t ((s.thread t).i + 1) .outside }) := by
  unfold step at h
  cases hplace : (s.thread t).place with
  | outside =>
    simp only [hplace] at h
    split at h
    · next hfree =>
      cases h
      exact .inr (.inl ⟨rfl, hfree.1, hfree.2, rfl⟩)
    · next hwaits =>
      cases h
      exact .inl ⟨rfl, hwaits, rfl⟩
  | locked =>
    simp only [hplace] at h
    cases h
    exact .inr (.inr (.inl ⟨rfl, rfl⟩))
  | loaded cnt =>
    simp only [hplace] at h
    unfold incrInt at h
    split at h
    · next hlt =>
      cases h
      exact .inr (.inr (.inr (.inl ⟨cnt, rfl, hlt, rfl⟩)))
    · cases h
  | stored =>
    simp only [hplace] at h
    cases h
    exact .inr (.inr (.inr (.inr ⟨rfl, rfl⟩)))

/-- Facts about every thread that the others keep when `t` goes on. -/
theorem forall_moved {P : Adder → Prop} {t : Fin n} {i : Nat} {place : At}
    (hothers : ∀ u, u ≠ t → P (s.thread u)) (ht : P { i := i, place := place }) (u : Fin n) :
    P (s.moved t i place u) := by
  unfold moved
  by_cases hu : u = t
  · subst hu
    rw [Function.update_self]
    exact ht
  · rw [Function.update_of_ne hu]
    exact hothers u hu

theorem Invariant.step (h : Invariant rounds s) {s' : Counters n} {t : Fin n}
    (hstep : Counters.step rounds s t = .ok s') : Invariant rounds s' := by
  have hi := h.i_le t
  have htotal := fun i place => total_update Adder.written s.thread t { i := i, place := place }
  rcases step_cases hstep with ⟨-, -, rfl⟩ | ⟨hplace, hlt, hfree, rfl⟩ | ⟨hplace, rfl⟩ |
    ⟨cnt, hplace, hlt, rfl⟩ | ⟨hplace, rfl⟩
  · exact h
  · have hguarded := h.guarded
    rw [hfree] at hguarded
    have hsum := htotal (s.thread t).i .locked
    refine ⟨hguarded.acquire t rfl, ?_, h.cnt_lt, ?_, ?_⟩
    · show s.cnt = (total _ (Function.update _ _ _) : Nat)
      rw [h.cnt_eq]
      simp only [Adder.written, hplace] at hsum ⊢
      simp at hsum ⊢
      omega
    · apply forall_moved (P := fun a => ∀ cnt, a.place = .loaded cnt → cnt = s.cnt)
      · exact fun u _ => h.loaded u
      · intro cnt hloaded
        cases hloaded
    · apply forall_moved (P := fun a => a.i + (if a.inside then 1 else 0) ≤ rounds)
      · exact fun u _ => h.i_le u
      · exact hlt
  · have hin : Adder.inside (s.thread t) = true := by simp [Adder.inside, hplace]
    have hsum := htotal (s.thread t).i (.loaded s.cnt)
    refine ⟨h.guarded.stay (by rw [hin]; rfl), ?_, h.cnt_lt, ?_, ?_⟩
    · show s.cnt = (total _ (Function.update _ _ _) : Nat)
      rw [h.cnt_eq]
      rw [h.cnt_eq] at hsum
      simp only [Adder.written, hplace] at hsum ⊢
      simp at hsum ⊢
      omega
    · apply forall_moved (P := fun a => ∀ cnt, a.place = .loaded cnt → cnt = s.cnt)
      · exact fun u _ => h.loaded u
      · intro cnt hloaded
        cases hloaded
        rfl
    · apply forall_moved (P := fun a => a.i + (if a.inside then 1 else 0) ≤ rounds)
      · exact fun u _ => h.i_le u
      · rw [hin] at hi
        exact hi
  · have hin : Adder.inside (s.thread t) = true := by simp [Adder.inside, hplace]
    have hcnt := h.loaded t cnt hplace
    have hsum := htotal (s.thread t).i .stored
    refine ⟨h.guarded.stay (by rw [hin]; rfl), ?_, ?_, ?_, ?_⟩
    · show cnt + 1 = ((total _ (Function.update _ _ _) : Nat) : Int)
      rw [hcnt, h.cnt_eq]
      simp only [Adder.written, hplace] at hsum ⊢
      simp at hsum ⊢
      omega
    · show cnt + 1 < 2 ^ 31
      omega
    · apply forall_moved (P := fun a => ∀ cnt', a.place = .loaded cnt' → cnt' = cnt + 1)
      · intro u hu cnt' hloaded
        have hin' : Adder.inside (s.thread u) = true := by simp [Adder.inside, hloaded]
        exact absurd (h.guarded.unique hin' hin) hu
      · intro cnt' hloaded
        cases hloaded
    · apply forall_moved (P := fun a => a.i + (if a.inside then 1 else 0) ≤ rounds)
      · exact fun u _ => h.i_le u
      · rw [hin] at hi
        exact hi
  · have hin : Adder.inside (s.thread t) = true := by simp [Adder.inside, hplace]
    have hsum := htotal ((s.thread t).i + 1) .outside
    refine ⟨h.guarded.release hin rfl, ?_, h.cnt_lt, ?_, ?_⟩
    · show s.cnt = (total _ (Function.update _ _ _) : Nat)
      rw [h.cnt_eq]
      simp only [Adder.written, hplace] at hsum ⊢
      simp at hsum ⊢
      omega
    · apply forall_moved (P := fun a => ∀ cnt, a.place = .loaded cnt → cnt = s.cnt)
      · exact fun u _ => h.loaded u
      · intro cnt hloaded
        cases hloaded
    · apply forall_moved (P := fun a => a.i + (if a.inside then 1 else 0) ≤ rounds)
      · exact fun u _ => h.i_le u
      · rw [hin] at hi
        exact hi

theorem invariant_run {schedule : List (Fin n)} (h : run rounds schedule = .ok s) :
    Invariant rounds s :=
  @Steps.run_induction _ _ _ _ _ _ (fun _ s => Invariant rounds s) (invariant_start rounds)
    (fun _ _ _ _ hinv hstep => hinv.step hstep) _ h


/-! ## To the end -/

/-- A thread that is going to write leaves room for it. -/
theorem Invariant.room (h : Invariant rounds s) (hfit : n * rounds < 2 ^ 31) {t : Fin n} {cnt : Int}
    (hplace : (s.thread t).place = .loaded cnt) : cnt < 2 ^ 31 - 1 := by
  have hi := h.i_le t
  have hin : Adder.inside (s.thread t) = true := by simp [Adder.inside, hplace]
  rw [if_pos hin] at hi
  have hle : total Adder.written (s.moved t (s.thread t).i .stored) ≤ n * rounds := by
    apply total_le
    apply forall_moved (P := fun a => a.written ≤ rounds)
    · exact fun u _ => h.written_le u
    · exact hi
  have hsum := total_update Adder.written s.thread t { i := (s.thread t).i, place := .stored }
  have hold : (s.thread t).written = (s.thread t).i := by simp [Adder.written, hplace]
  have hnew : Adder.written { i := (s.thread t).i, place := .stored } = (s.thread t).i + 1 := rfl
  unfold moved at hle
  rw [hold, hnew] at hsum
  have hcnt := h.loaded t cnt hplace
  have htotal := h.cnt_eq
  omega

theorem Invariant.step_isOk (h : Invariant rounds s) (hfit : n * rounds < 2 ^ 31) (t : Fin n) :
    ∃ s', Counters.step rounds s t = .ok s' := by
  unfold Counters.step
  cases hplace : (s.thread t).place with
  | outside =>
    simp only []
    split
    · exact ⟨_, rfl⟩
    · exact ⟨_, rfl⟩
  | locked => exact ⟨_, rfl⟩
  | loaded cnt =>
    have hroom : incrInt cnt = .ok (cnt + 1) := if_pos (h.room hfit hplace)
    simp only [hroom, ok_bind]
    exact ⟨_, rfl⟩
  | stored => exact ⟨_, rfl⟩

theorem run_isOk (hfit : n * rounds < 2 ^ 31) (schedule : List (Fin n)) :
    ∃ s, run rounds schedule = .ok s := by
  cases hrun : run rounds schedule with
  | ok s => exact ⟨s, rfl⟩
  | error e =>
    obtain ⟨pre, t, post, s, -, hpre, hstop⟩ := Steps.exists_stop hrun
    obtain ⟨s', hs'⟩ := (invariant_run hpre).step_isOk hfit t
    rw [hs'] at hstop
    cases hstop

/-- A step is taken, unless the thread is outside and cannot get in. -/
theorem step_taken {s' : Counters n} {t : Fin n} (h : Counters.step rounds s t = .ok s') :
    ((s.thread t).place = .outside ∧ ¬ ((s.thread t).i < rounds ∧ s.owner = none)) ∨
      total Adder.taken s'.thread = total Adder.taken s.thread + 1 := by
  have hmoved : ∀ i place, Adder.taken { i := i, place := place } = (s.thread t).taken + 1 →
      total Adder.taken (s.moved t i place) = total Adder.taken s.thread + 1 := by
    intro i place hnew
    have hsum := total_update Adder.taken s.thread t { i := i, place := place }
    unfold moved
    omega
  rcases step_cases h with ⟨hplace, hwaits, -⟩ | ⟨hplace, -, -, rfl⟩ | ⟨hplace, rfl⟩ |
    ⟨cnt, hplace, -, rfl⟩ | ⟨hplace, rfl⟩
  · exact .inl ⟨hplace, hwaits⟩
  all_goals
    right
    apply hmoved
    unfold Adder.taken
    rw [hplace]
    rfl

theorem Invariant.taken_le (h : Invariant rounds s) :
    total Adder.taken s.thread ≤ n * (4 * rounds) := by
  apply total_le
  intro t
  have hi := h.i_le t
  unfold Adder.inside at hi
  unfold Adder.taken
  cases hplace : (s.thread t).place <;> simp [hplace] at hi ⊢ <;> omega

/-- The owner of the lock goes on, and where there is none any thread can take it. -/
theorem Invariant.progress (h : Invariant rounds s)
    (hok : ∀ t, ∃ s', Counters.step rounds s t = .ok s') (hrest : ¬ ∀ t, Finished rounds s t) :
    ∃ t s', Counters.step rounds s t = .ok s' ∧
      total Adder.taken s'.thread = total Adder.taken s.thread + 1 := by
  have hmoves : ∃ t, ¬ ((s.thread t).place = .outside ∧
      ¬ ((s.thread t).i < rounds ∧ s.owner = none)) := by
    cases howner : s.owner with
    | some t =>
      have hin := (h.guarded t).2 howner
      refine ⟨t, fun hstays => ?_⟩
      simp [Adder.inside, hstays.1] at hin
    | none =>
      obtain ⟨t, ht⟩ := not_forall.1 hrest
      have hout : (s.thread t).place = .outside := by
        by_contra hne
        have hin : Adder.inside (s.thread t) = true := by simp [Adder.inside, hne]
        rw [h.guarded t, howner] at hin
        cases hin
      refine ⟨t, fun hstays => ht ⟨?_, hout⟩⟩
      have hi := h.i_le t
      have hge : ¬ (s.thread t).i < rounds := fun hlt => hstays.2 ⟨hlt, rfl⟩
      omega
  obtain ⟨t, hmoves⟩ := hmoves
  obtain ⟨s', hs'⟩ := hok t
  exact ⟨t, s', hs', (step_taken hs').resolve_left hmoves⟩

/-- From any counters that a schedule reaches, all threads can finish. -/
theorem exists_finish (hok : ∀ schedule : List (Fin n), ∃ s, run rounds schedule = .ok s)
    {schedule : List (Fin n)} (h : run rounds schedule = .ok s) :
    ∃ more s', run rounds (schedule ++ more) = .ok s' ∧ ∀ t, Finished rounds s' t := by
  have hprogress : ∀ s : Counters n, (∃ schedule, run rounds schedule = .ok s) →
      (¬ ∀ t, Finished rounds s t) → ∃ t s', Counters.step rounds s t = .ok s' ∧
        (∃ schedule, run rounds schedule = .ok s') ∧
        n * (4 * rounds) - total Adder.taken s'.thread <
          n * (4 * rounds) - total Adder.taken s.thread := by
    rintro s ⟨schedule, hrun⟩ hrest
    have hnext : ∀ t s', Counters.step rounds s t = .ok s' →
        run rounds (schedule ++ [t]) = .ok s' := by
      intro t s' hs'
      exact Steps.run_concat.2 ⟨s, hrun, hs'⟩
    have hsteps : ∀ t, ∃ s', Counters.step rounds s t = .ok s' := by
      intro t
      obtain ⟨s', hs'⟩ := hok (schedule ++ [t])
      obtain ⟨u, hu, hstep⟩ := Steps.run_concat.1 hs'
      have hsame := hu.symm.trans hrun
      cases hsame
      exact ⟨s', hstep⟩
    obtain ⟨t, s', hs', htaken⟩ := (invariant_run hrun).progress hsteps hrest
    have hle := (invariant_run (hnext t s' hs')).taken_le
    refine ⟨t, s', hs', ⟨_, hnext t s' hs'⟩, ?_⟩
    omega
  obtain ⟨more, s', hmore, -, hfinished⟩ := Steps.exists_finish
    (fun s : Counters n => n * (4 * rounds) - total Adder.taken s.thread) hprogress ⟨schedule, h⟩
  refine ⟨more, s', ?_, hfinished⟩
  unfold run at h ⊢
  rw [List.foldlM_append, h]
  exact hmore

/-- The counter of threads that have all finished. -/
theorem Invariant.cnt_finished (h : Invariant rounds s) (hfinished : ∀ t, Finished rounds s t) :
    s.cnt = n * rounds := by
  have htotal : total Adder.written s.thread = n * rounds := by
    apply total_const
    intro t
    unfold Adder.written
    rw [(hfinished t).1, (hfinished t).2]
    rfl
  rw [h.cnt_eq, htotal]
  push_cast
  rfl

/-- **No increment is lost, and no thread waits for ever.** -/
theorem add_exact (n rounds : Nat) (hfit : n * rounds < 2 ^ 31) (schedule : List (Fin n)) :
    ∃ s, run rounds schedule = .ok s ∧
      (∀ t u, (s.thread t).inside = true → (s.thread u).inside = true → t = u) ∧
      s.cnt = total Adder.written s.thread ∧
      ((∀ t, Finished rounds s t) → s.cnt = n * rounds) ∧
      ∃ more s', run rounds (schedule ++ more) = .ok s' ∧ ∀ t, Finished rounds s' t := by
  obtain ⟨s, hrun⟩ := run_isOk hfit schedule
  have hinv := invariant_run hrun
  exact ⟨s, hrun, fun t u => hinv.guarded.unique, hinv.cnt_eq, hinv.cnt_finished,
    exists_finish (run_isOk hfit) hrun⟩

/-- The threads of `counters_mutex`, the second one waiting for the first. -/
theorem add_exact_two : ∃ s, run 1000 ([0, 1, 0, 0, 1, 0, 1] : List (Fin 2)) = .ok s ∧
    (∀ t u, (s.thread t).inside = true → (s.thread u).inside = true → t = u) ∧
      s.cnt = total Adder.written s.thread ∧
      ((∀ t, Finished 1000 s t) → s.cnt = (2 : Nat) * (1000 : Nat)) ∧
      ∃ more s', run 1000 (([0, 1, 0, 0, 1, 0, 1] : List (Fin 2)) ++ more) = .ok s' ∧
        ∀ t, Finished 1000 s' t :=
  add_exact 2 1000 (by decide) [0, 1, 0, 0, 1, 0, 1]

/-- **The `int` holds in every interleaving exactly when it holds the last count.** -/
theorem add_returns_iff (n rounds : Nat) :
    (∀ schedule : List (Fin n), ∃ s, run rounds schedule = .ok s) ↔ n * rounds < 2 ^ 31 := by
  constructor
  · intro hok
    have hstart : run rounds ([] : List (Fin n)) = .ok (start n) := rfl
    obtain ⟨more, s, hrun, hfinished⟩ := exists_finish hok hstart
    have hinv := invariant_run hrun
    have hcnt := hinv.cnt_finished hfinished
    have hlt := hinv.cnt_lt
    rw [hcnt] at hlt
    exact_mod_cast hlt
  · exact run_isOk

end Counters

/-! ## Without a lock -/

/-- The counter of `counters_atomic` and how often each of its threads has been round. -/
structure AtomicCounter (n : Nat) where
  counter : UInt64
  i : Fin n → Nat

namespace AtomicCounter

variable {n : Nat}

def start (n : Nat) : AtomicCounter n := { counter := 0, i := fun _ => 0 }

/-- `counter.fetch_add(1, std::memory_order_relaxed)`, with `rounds` for the 100 of the loop. -/
def step (rounds : Nat) (s : AtomicCounter n) (t : Fin n) : AtomicCounter n :=
  if s.i t < rounds then
    { counter := s.counter + 1, i := Function.update s.i t (s.i t + 1) }
  else s

def run (rounds : Nat) (schedule : List (Fin n)) : AtomicCounter n :=
  schedule.foldl (step rounds) (start n)

/-- The counter holds what has been added, from the first step to the last. -/
theorem atomic_exact (n rounds : Nat) (schedule : List (Fin n)) :
    (run rounds schedule).counter.toNat = total id (run rounds schedule).i % 2 ^ 64 ∧
      ((∀ t, (run rounds schedule).i t = rounds) →
        (run rounds schedule).counter.toNat = n * rounds % 2 ^ 64) := by
  have hsum : (run rounds schedule).counter.toNat = total id (run rounds schedule).i % 2 ^ 64 := by
    unfold run
    induction schedule using List.reverseRecOn with
    | nil =>
      have hzero : total id (start n).i = n * 0 := total_const fun _ => rfl
      rw [List.foldl_nil, hzero]
      rfl
    | append_singleton schedule t ih =>
      rw [List.foldl_append, List.foldl_cons, List.foldl_nil]
      generalize schedule.foldl (step rounds) (start n) = s at ih ⊢
      unfold step
      split
      · have htotal := total_update id s.i t (s.i t + 1)
        simp only [id_eq] at htotal
        show (s.counter + 1).toNat = total id (Function.update s.i t (s.i t + 1)) % 2 ^ 64
        rw [UInt64.toNat_add, ih]
        show (total id s.i % 2 ^ 64 + 1) % 2 ^ 64 = _
        omega
      · exact ih
  refine ⟨hsum, fun hfinished => ?_⟩
  have hall : total id (run rounds schedule).i = n * rounds := total_const hfinished
  rw [hsum, hall]

end AtomicCounter

end Lbos
