import Mathlib.Algebra.BigOperators.Intervals
import Sprawl.Common.Wraps
import Sprawl.Lib.Steps
import Sprawl.Lib.Threads

/-!
# A sum on several threads (`misc/multi-vector.cc`)

`main` asks the granulator for a range in every turn of its loop, starts a thread with a
reference to it, and adds up what the threads have put into the vector.  The range is a
variable of the loop: a thread that reads it behind the turn that made it reads a variable that
is gone, and nothing keeps `main` from being that fast.

Every interleaving in which no thread does so ends with the sum over the ranges, which is
`n (n + 1) / 2` modulo 2 ^ 64 where they tile the numbers (`sum_exact`); in some interleaving a
thread does, and in some none does (`sum_dangles`).
-/

namespace MultiVector

open Common Ranges Threads

/-! ## The code -/

/-- What ends the model. -/
inductive Fault
  | dangling
  | outOfBounds
deriving DecidableEq

/-- Where a thread is in `work_fn`. -/
inductive Worker
  | unborn
  | entered
  | summing (i sum : UInt64)
  | adding (sum : UInt64)
  | locked (sum : UInt64)
  | finished (sum : UInt64)
deriving DecidableEq

/-- `main` and its threads; `range` is the variable of its loop, while it is in the turn that
started that thread, and `items` is the vector behind the mutex. -/
structure State (k : Nat) where
  suggestion : Granulator
  created : Nat
  range : Option (Fin k × (UInt64 × UInt64))
  worker : Fin k → Worker
  owner : Option (Fin k)
  items : List UInt64
  finalSum : Option UInt64

/-- `GetNumThreads()` -/
def numThreads (hardwareConcurrency maxNumber : UInt64) : Nat :=
  (Granulator.new hardwareConcurrency maxNumber).getNumThreads.toNat

/-- `main` in front of its loop. -/
def start (hardwareConcurrency maxNumber : UInt64) :
    State (numThreads hardwareConcurrency maxNumber) :=
  { suggestion := Granulator.new hardwareConcurrency maxNumber
    created := 0
    range := none
    worker := fun _ => .unborn
    owner := none
    items := []
    finalSum := none }

/-- `numbers[i]`, which `std::generate` has set to `i + 1`. -/
def number (maxNumber i : UInt64) : Except Fault UInt64 :=
  if i < maxNumber then .ok (i + 1) else .error .outOfBounds

def Worker.isFinished : Worker → Bool
  | .finished _ => true
  | _ => false

namespace State

variable {k : Nat}

/-- The range that the thread `t` has a reference to. -/
def rng (s : State k) (t : Fin k) : Except Fault (UInt64 × UInt64) :=
  match s.range with
  | some (u, r) => if u = t then .ok r else .error .dangling
  | none => .error .dangling

def moved (s : State k) (t : Fin k) (w : Worker) : Fin k → Worker := Function.update s.worker t w

/-- `work_fn`, one turn of its loop in a step. -/
def stepWorker (maxNumber : UInt64) (s : State k) (t : Fin k) : Except Fault (State k) :=
  match s.worker t with
  | .unborn => .ok s
  | .entered => do
    let r ← s.rng t
    .ok { s with worker := s.moved t (.summing r.1 0) }
  | .summing i sum => do
    let r ← s.rng t
    if i ≤ r.2 then do
      let x ← number maxNumber i
      .ok { s with worker := s.moved t (.summing (i + 1) (sum + x)) }
    else .ok { s with worker := s.moved t (.adding sum) }
  | .adding sum =>
    if s.owner = none then .ok { s with worker := s.moved t (.locked sum), owner := some t }
    else .ok s
  | .locked sum =>
    .ok { s with worker := s.moved t (.finished sum), owner := none, items := s.items ++ [sum] }
  | .finished _ => .ok s

/-- `main`: a turn of its loop starts a thread and ends; then it waits for all of them. -/
def stepMain (s : State k) : State k :=
  match s.range with
  | some _ => { s with range := none }
  | none =>
    if h : s.created < k then
      { s with
        suggestion := s.suggestion.Step.2
        created := s.created + 1
        range := some (⟨s.created, h⟩, s.suggestion.Step.1)
        worker := s.moved ⟨s.created, h⟩ .entered }
    else if ∀ t, (s.worker t).isFinished = true then
      { s with finalSum := some (s.items.foldl (fun finalSum e => finalSum + e) 0) }
    else s

end State

/-- Whose step is next. -/
inductive Turn (k : Nat)
  | main
  | worker (t : Fin k)

def step {k : Nat} (maxNumber : UInt64) (s : State k) : Turn k → Except Fault (State k)
  | .main => .ok s.stepMain
  | .worker t => s.stepWorker maxNumber t

def run (hardwareConcurrency maxNumber : UInt64)
    (schedule : List (Turn (numThreads hardwareConcurrency maxNumber))) :
    Except Fault (State (numThreads hardwareConcurrency maxNumber)) :=
  schedule.foldlM (step maxNumber) (start hardwareConcurrency maxNumber)

/-! ## The ranges -/

/-- The granulator behind `t` steps. -/
def stepped (g : Granulator) : Nat → Granulator
  | 0 => g
  | t + 1 => (stepped g t).Step.2

/-- The range of the thread `t`. -/
def rangeAt (g : Granulator) (t : Nat) : UInt64 × UInt64 := (stepped g t).Step.1

theorem stepped_succ (g : Granulator) (t : Nat) : stepped g (t + 1) = stepped g.Step.2 t := by
  induction t with
  | zero => rfl
  | succ t ih =>
    show (stepped g (t + 1)).Step.2 = _
    rw [ih]
    rfl

theorem steps_eq (k : Nat) (g : Granulator) :
    g.steps k = (List.range k).map fun t =>
      ((rangeAt g t).1.toNat, (rangeAt g t).2.toNat) := by
  induction k generalizing g with
  | zero => rfl
  | succ k ih =>
    show (g.Step.1.1.toNat, g.Step.1.2.toNat) :: Granulator.steps k g.Step.2 = _
    rw [List.range_succ_eq_map, List.map_cons, List.map_map, ih]
    congr 1
    apply List.map_congr_left
    intro t _
    show _ = ((rangeAt g (t + 1)).1.toNat, (rangeAt g (t + 1)).2.toNat)
    unfold rangeAt
    rw [stepped_succ]

/-- The numbers from `a` on below `b`, one more than each index. -/
def sumTo (a b : Nat) : Nat := ∑ j ∈ Finset.Ico a b, (j + 1)

theorem sumTo_self (a : Nat) : sumTo a a = 0 := by
  unfold sumTo
  rw [Finset.Ico_self, Finset.sum_empty]

theorem sumTo_succ {a b : Nat} (h : a ≤ b) : sumTo a (b + 1) = sumTo a b + (b + 1) := by
  unfold sumTo
  rw [Finset.sum_Ico_succ_top h]

/-- The ranges of the threads lie among the numbers and follow one another. -/
theorem exists_span {T n : UInt64} (hT : 1 ≤ T.toNat) (hfit : T.toNat * 128 < 2 ^ 64)
    (hn : 1 ≤ n.toNat) : ∃ m ≤ n.toNat, Span 0 (ranges T n) m := by
  by_cases hfew : n.toNat ≤ 128 * T.toNat
  · exact ⟨n.toNat, Nat.le_refl _, ranges_span_few hfit hn hfew⟩
  · refine ⟨_, ?_, ranges_span_many hfit hT (by omega)⟩
    unfold stretched
    split
    · exact Nat.le_refl _
    · exact Nat.sub_le _ _

theorem ranges_eq (T n : UInt64) : ranges T n = (List.range (numThreads T n)).map fun t =>
    ((rangeAt (Granulator.new T n) t).1.toNat, (rangeAt (Granulator.new T n) t).2.toNat) :=
  steps_eq _ _

/-- One of them. -/
theorem rangeAt_inside {T n : UInt64} (hT : 1 ≤ T.toNat) (hfit : T.toNat * 128 < 2 ^ 64)
    (hn : 1 ≤ n.toNat) {t : Nat} (ht : t < numThreads T n) :
    (rangeAt (Granulator.new T n) t).1.toNat ≤ (rangeAt (Granulator.new T n) t).2.toNat ∧
      (rangeAt (Granulator.new T n) t).2.toNat < n.toNat := by
  obtain ⟨m, hm, hspan⟩ := exists_span hT hfit hn
  have hmem : ((rangeAt (Granulator.new T n) t).1.toNat,
      (rangeAt (Granulator.new T n) t).2.toNat) ∈ ranges T n := by
    rw [ranges_eq]
    exact List.mem_map.2 ⟨t, List.mem_range.2 ht, rfl⟩
  have h := hspan.mem _ hmem
  simp only at h
  omega

/-! ## What a step keeps -/

/-- What a thread with the range `r` has summed. -/
def Worker.Sums (r : UInt64 × UInt64) : Worker → Prop
  | .unborn | .entered => True
  | .summing i sum => r.1.toNat ≤ i.toNat ∧ i.toNat ≤ r.2.toNat + 1 ∧
      sum.toNat = sumTo r.1.toNat i.toNat % 2 ^ 64
  | .adding sum | .locked sum | .finished sum =>
      sum.toNat = sumTo r.1.toNat (r.2.toNat + 1) % 2 ^ 64

def Worker.isLocked : Worker → Bool
  | .locked _ => true
  | _ => false

/-- What it has put into the vector. -/
def Worker.added : Worker → Nat
  | .finished sum => sum.toNat
  | _ => 0

/-- The sum over the vector, and what it is once there. -/
structure Invariant (T n : UInt64) (s : State (numThreads T n)) : Prop where
  suggestion : s.suggestion = stepped (Granulator.new T n) s.created
  range : ∀ t r, s.range = some (t, r) → r = rangeAt (Granulator.new T n) t ∧ t.val + 1 = s.created
  unborn : ∀ t, s.worker t = .unborn ↔ s.created ≤ t.val
  sums : ∀ t : Fin (numThreads T n), (s.worker t).Sums (rangeAt (Granulator.new T n) t)
  guarded : Guarded Worker.isLocked s.owner s.worker
  items : (s.items.map UInt64.toNat).sum = total Worker.added s.worker
  finalSum : ∀ v, s.finalSum = some v → (∀ t, (s.worker t).isFinished = true) ∧
    v.toNat = (s.items.map UInt64.toNat).sum % 2 ^ 64

theorem invariant_start (T n : UInt64) : Invariant T n (start T n) where
  suggestion := rfl
  range := by
    intro t r h
    cases h
  unborn := fun t => iff_of_true rfl (Nat.zero_le _)
  sums := fun _ => trivial
  guarded := Guarded.start fun _ => rfl
  items := by
    have hzero : total Worker.added (start T n).worker = numThreads T n * 0 :=
      total_const fun _ => rfl
    rw [hzero]
    rfl
  finalSum := by
    intro v h
    cases h

theorem foldl_add_toNat (items : List UInt64) (finalSum : UInt64) :
    (items.foldl (fun finalSum e => finalSum + e) finalSum).toNat =
      (finalSum.toNat + (items.map UInt64.toNat).sum) % 2 ^ 64 := by
  induction items generalizing finalSum with
  | nil =>
    rw [List.foldl_nil, List.map_nil, List.sum_nil, Nat.add_zero]
    exact (Nat.mod_eq_of_lt finalSum.toNat_lt).symm
  | cons e items ih =>
    rw [List.foldl_cons, ih, List.map_cons, List.sum_cons, UInt64.toNat_add]
    show ((finalSum.toNat + e.toNat) % 2 ^ 64 + _) % 2 ^ 64 = _
    rw [Nat.mod_add_mod, Nat.add_assoc]

variable {T n : UInt64} {s : State (numThreads T n)}

/-- A thread that goes on, with the others where they were. -/
theorem forall_moved {P : Fin (numThreads T n) → Worker → Prop} {t : Fin (numThreads T n)}
    {w : Worker} (h : ∀ u, P u (s.worker u)) (hw : P t w) (u : Fin (numThreads T n)) :
    P u (s.moved t w u) := by
  unfold State.moved
  by_cases hu : u = t
  · subst hu
    rw [Function.update_self]
    exact hw
  · rw [Function.update_of_ne hu]
    exact h u

theorem added_moved {t : Fin (numThreads T n)} {w : Worker} (h : (s.worker t).added = 0) :
    total Worker.added (s.moved t w) = total Worker.added s.worker + w.added := by
  have hsum := total_update Worker.added s.worker t w
  unfold State.moved
  omega

/-- While a thread has not finished there is no sum. -/
theorem Invariant.finalSum_none (h : Invariant T n s) {t : Fin (numThreads T n)}
    (ht : (s.worker t).isFinished = false) : s.finalSum = none := by
  cases hfinal : s.finalSum with
  | none => rfl
  | some v =>
    have hall := (h.finalSum v hfinal).1 t
    rw [ht] at hall
    cases hall

/-- A step that takes no lock and adds nothing. -/
theorem Invariant.move (h : Invariant T n s) (t : Fin (numThreads T n)) (w : Worker)
    (hborn : s.worker t ≠ .unborn ∧ w ≠ .unborn)
    (hsums : w.Sums (rangeAt (Granulator.new T n) t))
    (hlocked : w.isLocked = (s.worker t).isLocked) (hadded : (s.worker t).added = 0 ∧ w.added = 0)
    (hfinished : (s.worker t).isFinished = false) :
    Invariant T n { s with worker := s.moved t w } where
  suggestion := h.suggestion
  range := h.range
  unborn := by
    apply forall_moved (P := fun u w => w = .unborn ↔ s.created ≤ u.val) h.unborn
    exact iff_of_false hborn.2 fun hle => hborn.1 ((h.unborn t).2 hle)
  sums := forall_moved (P := fun u w => w.Sums (rangeAt (Granulator.new T n) u)) h.sums hsums
  guarded := h.guarded.stay hlocked
  items := by
    show _ = total Worker.added (s.moved t w)
    rw [added_moved hadded.1, hadded.2]
    exact h.items
  finalSum := by
    intro v hv
    rw [h.finalSum_none hfinished] at hv
    cases hv

/-- A new thread. -/
theorem Invariant.create (h : Invariant T n s) (hlt : s.created < numThreads T n) :
    Invariant T n { s with
      suggestion := s.suggestion.Step.2
      created := s.created + 1
      range := some (⟨s.created, hlt⟩, s.suggestion.Step.1)
      worker := s.moved ⟨s.created, hlt⟩ .entered } := by
  have hunborn : s.worker ⟨s.created, hlt⟩ = .unborn := (h.unborn _).2 (Nat.le_refl _)
  refine ⟨?_, ?_, ?_, ?_, ?_, ?_, ?_⟩
  · show s.suggestion.Step.2 = stepped _ (s.created + 1)
    rw [h.suggestion]
    rfl
  · intro t r hr
    obtain ⟨rfl, rfl⟩ := Prod.mk.inj (Option.some.inj hr)
    refine ⟨?_, rfl⟩
    show s.suggestion.Step.1 = (stepped _ s.created).Step.1
    rw [h.suggestion]
  · intro u
    show s.moved _ _ u = .unborn ↔ s.created + 1 ≤ u.val
    unfold State.moved
    by_cases hu : u = ⟨s.created, hlt⟩
    · subst hu
      rw [Function.update_self]
      refine iff_of_false (fun heq => by cases heq) ?_
      show ¬ s.created + 1 ≤ s.created
      omega
    · rw [Function.update_of_ne hu, h.unborn u]
      have hne : u.val ≠ s.created := fun heq => hu (Fin.ext heq)
      omega
  · exact forall_moved (P := fun u w => w.Sums (rangeAt (Granulator.new T n) u)) h.sums trivial
  · apply h.guarded.stay
    rw [hunborn]
    rfl
  · show _ = total Worker.added (s.moved _ .entered)
    rw [added_moved (by rw [hunborn]; rfl)]
    exact h.items
  · intro v hv
    have hnone := h.finalSum_none (show (s.worker ⟨s.created, hlt⟩).isFinished = false by
      rw [hunborn]
      rfl)
    rw [hnone] at hv
    cases hv

/-- The end of a turn, a new thread, or the sum. -/
theorem Invariant.stepMain (h : Invariant T n s) : Invariant T n s.stepMain := by
  unfold State.stepMain
  cases hrange : s.range with
  | some p =>
    refine ⟨h.suggestion, ?_, h.unborn, h.sums, h.guarded, h.items, h.finalSum⟩
    intro t r hr
    cases hr
  | none =>
    simp only []
    split
    · next hlt => exact h.create hlt
    · split
      · next hall =>
        refine ⟨h.suggestion, ?_, h.unborn, h.sums, h.guarded, h.items, ?_⟩
        · intro t r hr
          cases hr
        · intro v hv
          obtain rfl := Option.some.inj hv
          refine ⟨hall, ?_⟩
          rw [foldl_add_toNat]
          show (0 + _) % _ = _
          rw [Nat.zero_add]
      · exact h

/-- What a thread reads through its reference, if the range is still there. -/
theorem Invariant.rng_eq (h : Invariant T n s) {t : Fin (numThreads T n)} :
    s.rng t = .ok (rangeAt (Granulator.new T n) t) ∨ s.rng t = .error .dangling := by
  unfold State.rng
  cases hrange : s.range with
  | none => exact .inr rfl
  | some p =>
    obtain ⟨u, r⟩ := p
    by_cases hu : u = t
    · subst hu
      obtain ⟨rfl, -⟩ := h.range u r hrange
      exact .inl (if_pos rfl)
    · exact .inr (if_neg hu)

/-- A thread takes the lock. -/
theorem Invariant.lock (h : Invariant T n s) {t : Fin (numThreads T n)} {sum : UInt64}
    (hw : s.worker t = .adding sum) (hfree : s.owner = none) :
    Invariant T n { s with worker := s.moved t (.locked sum), owner := some t } := by
  have hsums := h.sums t
  have hguarded := h.guarded
  rw [hw] at hsums
  rw [hfree] at hguarded
  refine ⟨h.suggestion, h.range, ?_, ?_, hguarded.acquire t rfl, ?_, ?_⟩
  · apply forall_moved (P := fun u w => w = .unborn ↔ s.created ≤ u.val) h.unborn
    rw [← h.unborn t, hw]
    exact iff_of_false nofun nofun
  · exact forall_moved (P := fun u w => w.Sums (rangeAt (Granulator.new T n) u)) h.sums hsums
  · show _ = total Worker.added (s.moved t (.locked sum))
    rw [added_moved (by rw [hw]; rfl)]
    exact h.items
  · intro v hv
    rw [h.finalSum_none (t := t) (by rw [hw]; rfl)] at hv
    cases hv

/-- It puts its sum into the vector and gives the lock back. -/
theorem Invariant.push (h : Invariant T n s) {t : Fin (numThreads T n)} {sum : UInt64}
    (hw : s.worker t = .locked sum) :
    Invariant T n { s with
      worker := s.moved t (.finished sum), owner := none, items := s.items ++ [sum] } := by
  have hsums := h.sums t
  rw [hw] at hsums
  refine ⟨h.suggestion, h.range, ?_, ?_, h.guarded.release (by rw [hw]; rfl) rfl, ?_, ?_⟩
  · apply forall_moved (P := fun u w => w = .unborn ↔ s.created ≤ u.val) h.unborn
    rw [← h.unborn t, hw]
    exact iff_of_false nofun nofun
  · exact forall_moved (P := fun u w => w.Sums (rangeAt (Granulator.new T n) u)) h.sums hsums
  · show ((s.items ++ [sum]).map UInt64.toNat).sum = total Worker.added (s.moved t (.finished sum))
    rw [added_moved (by rw [hw]; rfl), List.map_append, List.sum_append, h.items]
    rfl
  · intro v hv
    rw [h.finalSum_none (t := t) (by rw [hw]; rfl)] at hv
    cases hv

section
variable (hT : 1 ≤ T.toNat) (hfit : T.toNat * 128 < 2 ^ 64) (hn : 1 ≤ n.toNat)
include hT hfit hn

/-- One number more, or the end of the loop. -/
theorem Invariant.sum (h : Invariant T n s) {t : Fin (numThreads T n)} {i sum : UInt64}
    (hw : s.worker t = .summing i sum) :
    (i ≤ (rangeAt (Granulator.new T n) t).2 → number n i = .ok (i + 1) ∧
      Invariant T n { s with worker := s.moved t (.summing (i + 1) (sum + (i + 1))) }) ∧
    (¬ i ≤ (rangeAt (Granulator.new T n) t).2 →
      Invariant T n { s with worker := s.moved t (.adding sum) }) := by
  obtain ⟨-, hlt⟩ := rangeAt_inside hT hfit hn t.isLt
  have hsums := h.sums t
  rw [hw] at hsums
  obtain ⟨hfirst, hlast, hsum⟩ := hsums
  have hlocked : Worker.isLocked (s.worker t) = false := by rw [hw]; rfl
  have hadded : (s.worker t).added = 0 := by rw [hw]; rfl
  have hfinished : (s.worker t).isFinished = false := by rw [hw]; rfl
  have hborn : s.worker t ≠ .unborn := by simp [hw]
  rw [UInt64.le_iff_toNat_le]
  constructor
  · intro hin
    have hmax := n.toNat_lt
    have hnext : (i + 1).toNat = i.toNat + 1 := by
      rw [UInt64.toNat_add]
      show (i.toNat + 1) % 2 ^ 64 = _
      exact Nat.mod_eq_of_lt (by omega)
    refine ⟨if_pos (UInt64.lt_iff_toNat_lt.2 (by omega)), ?_⟩
    apply h.move t (.summing (i + 1) (sum + (i + 1))) ⟨hborn, nofun⟩ _ hlocked.symm ⟨hadded, rfl⟩
      hfinished
    refine ⟨by omega, by omega, ?_⟩
    rw [UInt64.toNat_add, hnext, sumTo_succ hfirst, hsum]
    show (sumTo _ _ % 2 ^ 64 + _) % 2 ^ 64 = _
    rw [Nat.mod_add_mod]
  · intro hout
    apply h.move t (.adding sum) ⟨hborn, nofun⟩ _ hlocked.symm ⟨hadded, rfl⟩ hfinished
    show sum.toNat = _
    rw [hsum, show i.toNat = (rangeAt (Granulator.new T n) t).2.toNat + 1 by omega]

omit hT hfit hn in
/-- The first step of a thread. -/
theorem Invariant.enter (h : Invariant T n s) (hle : ∀ t : Fin (numThreads T n),
      (rangeAt (Granulator.new T n) t).1.toNat ≤ (rangeAt (Granulator.new T n) t).2.toNat)
    {t : Fin (numThreads T n)} (hw : s.worker t = .entered) :
    Invariant T n { s with
      worker := s.moved t (.summing (rangeAt (Granulator.new T n) t).1 0) } := by
  have hfirst := hle t
  apply h.move t (.summing (rangeAt (Granulator.new T n) t).1 0) ⟨by simp [hw], nofun⟩ _
    (by rw [hw]; rfl) ⟨by rw [hw]; rfl, rfl⟩ (by rw [hw]; rfl)
  refine ⟨Nat.le_refl _, by omega, ?_⟩
  rw [sumTo_self]
  rfl

/-- A step of a thread that goes through keeps the sums, and one that does not has no range. -/
theorem Invariant.stepWorker (h : Invariant T n s) (t : Fin (numThreads T n)) :
    (∀ s', s.stepWorker n t = .ok s' → Invariant T n s') ∧
      ∀ fault, s.stepWorker n t = .error fault →
        fault = .dangling ∧ s.rng t = .error .dangling := by
  unfold State.stepWorker
  cases hw : s.worker t with
  | unborn =>
    refine ⟨fun s' hs' => ?_, nofun⟩
    cases hs'
    exact h
  | entered =>
    simp only []
    rcases h.rng_eq with hrng | hrng
    · rw [hrng]
      refine ⟨fun s' hs' => ?_, nofun⟩
      cases hs'
      exact h.enter (fun t => (rangeAt_inside hT hfit hn t.isLt).1) hw
    · rw [hrng]
      refine ⟨nofun, fun fault hfault => ?_⟩
      cases hfault
      exact ⟨rfl, rfl⟩
  | summing i sum =>
    obtain ⟨hnext, hend⟩ := h.sum hT hfit hn hw
    simp only []
    rcases h.rng_eq with hrng | hrng
    · rw [hrng]
      simp only [bind, Except.bind]
      split
      · next hin =>
        obtain ⟨hnumber, hinv⟩ := hnext hin
        rw [hnumber]
        refine ⟨fun s' hs' => ?_, nofun⟩
        cases hs'
        exact hinv
      · next hout =>
        refine ⟨fun s' hs' => ?_, nofun⟩
        cases hs'
        exact hend hout
    · rw [hrng]
      refine ⟨nofun, fun fault hfault => ?_⟩
      cases hfault
      exact ⟨rfl, rfl⟩
  | adding sum =>
    simp only []
    split
    · next hfree =>
      refine ⟨fun s' hs' => ?_, nofun⟩
      cases hs'
      exact h.lock hw hfree
    · refine ⟨fun s' hs' => ?_, nofun⟩
      cases hs'
      exact h
  | locked sum =>
    refine ⟨fun s' hs' => ?_, nofun⟩
    cases hs'
    exact h.push hw
  | finished sum =>
    refine ⟨fun s' hs' => ?_, nofun⟩
    cases hs'
    exact h

theorem invariant_run {schedule : List (Turn (numThreads T n))} (h : run T n schedule = .ok s) :
    Invariant T n s := by
  apply @Steps.run_induction _ _ _ _ _ _ (fun _ s => Invariant T n s) (invariant_start T n) _ _ h
  intro _ s turn s' hinv hstep
  cases turn with
  | main =>
    cases hstep
    exact hinv.stepMain
  | worker t => exact (hinv.stepWorker hT hfit hn t).1 s' hstep

end

/-! ## Runs -/

/-- The sums of the threads that have finished are those over their ranges. -/
theorem Invariant.sum_eq (h : Invariant T n s) {v : UInt64} (hv : s.finalSum = some v) :
    v.toNat = ((ranges T n).map fun r => sumTo r.1 (r.2 + 1)).sum % 2 ^ 64 := by
  obtain ⟨hfinished, hsum⟩ := h.finalSum v hv
  have hadded : ∀ t : Fin (numThreads T n), (s.worker t).added =
      sumTo (rangeAt (Granulator.new T n) t).1.toNat
        ((rangeAt (Granulator.new T n) t).2.toNat + 1) % 2 ^ 64 := by
    intro t
    have hsums := h.sums t
    have hfin := hfinished t
    cases hw : s.worker t with
    | finished sum =>
      rw [hw] at hsums
      exact hsums
    | unborn => simp [hw, Worker.isFinished] at hfin
    | entered => simp [hw, Worker.isFinished] at hfin
    | summing i sum => simp [hw, Worker.isFinished] at hfin
    | adding sum => simp [hw, Worker.isFinished] at hfin
    | locked sum => simp [hw, Worker.isFinished] at hfin
  rw [hsum, h.items, total]
  simp only [hadded]
  have hrange : List.range (numThreads T n) =
      (List.finRange (numThreads T n)).map fun t => t.val :=
    List.map_coe_finRange_eq_range.symm
  rw [← Finset.sum_nat_mod, ranges_eq, hrange, List.map_map, List.map_map, Fin.sum_univ_def]
  rfl

/-- The threads that still read their range are the one of the turn that `main` is in. -/
def Waits (s : State (numThreads T n)) : Prop :=
  ∀ t, (s.worker t = .entered ∨ ∃ i sum, s.worker t = .summing i sum) →
    s.range = some (t, rangeAt (Granulator.new T n) t)

/-- The steps that a thread has still to take, at most. -/
def Worker.left (n : UInt64) : Worker → Nat
  | .unborn => n.toNat + 5
  | .entered => n.toNat + 4
  | .summing i _ => n.toNat - i.toNat + 3
  | .adding _ => 2
  | .locked _ => 1
  | .finished _ => 0

/-- And those of `main`. -/
def left (s : State (numThreads T n)) : Nat :=
  2 * (numThreads T n - s.created) + (if s.range.isSome then 1 else 0) +
    (if s.finalSum.isSome then 0 else 1) + total (Worker.left n) s.worker

/-- A thread that goes on has less left. -/
theorem left_moved {t : Fin (numThreads T n)} {w : Worker}
    (hlt : w.left n < (s.worker t).left n) :
    total (Worker.left n) (s.moved t w) < total (Worker.left n) s.worker := by
  have hsum := total_update (Worker.left n) s.worker t w
  unfold State.moved
  omega

/-- A thread that goes on and does not read its range any more, or still has it. -/
theorem Waits.moved (h : Waits s) {t : Fin (numThreads T n)} {w : Worker}
    (hw : (w = .entered ∨ ∃ i sum, w = .summing i sum) →
      s.range = some (t, rangeAt (Granulator.new T n) t)) :
    Waits { s with worker := s.moved t w } := by
  intro u
  apply forall_moved (P := fun u w => (w = .entered ∨ ∃ i sum, w = .summing i sum) →
    s.range = some (u, rangeAt (Granulator.new T n) u)) h hw

/-- A thread that still has its range reads it. -/
theorem rng_eq_ok {t : Fin (numThreads T n)} {r : UInt64 × UInt64}
    (h : s.range = some (t, r)) : s.rng t = .ok r := by
  unfold State.rng
  rw [h]
  exact if_pos rfl

section
variable (hT : 1 ≤ T.toNat) (hfit : T.toNat * 128 < 2 ^ 64) (hn : 1 ≤ n.toNat)
include hT hfit hn

/-- The thread of the turn that `main` is in goes on. -/
theorem Invariant.progress_reading (h : Invariant T n s) (hwaits : Waits s)
    {t : Fin (numThreads T n)}
    (ht : s.worker t = .entered ∨ ∃ i sum, s.worker t = .summing i sum) :
    ∃ s', step n s (.worker t) = .ok s' ∧ Invariant T n s' ∧ Waits s' ∧ left s' < left s := by
  have hrange := hwaits t ht
  have hrng := rng_eq_ok hrange
  obtain ⟨hle, hlt⟩ := rangeAt_inside hT hfit hn t.isLt
  have hnext : ∀ w : Worker, s.stepWorker n t = .ok { s with worker := s.moved t w } →
      Invariant T n { s with worker := s.moved t w } → w.left n < (s.worker t).left n →
      ∃ s', step n s (.worker t) = .ok s' ∧ Invariant T n s' ∧ Waits s' ∧ left s' < left s := by
    intro w hstep hinv hleft
    have hmoved := left_moved hleft
    refine ⟨_, hstep, hinv, hwaits.moved fun _ => hrange, ?_⟩
    unfold left
    simp only
    omega
  rcases ht with hw | ⟨i, sum, hw⟩
  · apply hnext (.summing (rangeAt (Granulator.new T n) t).1 0)
    · unfold State.stepWorker
      rw [hw]
      simp only [hrng]
      rfl
    · exact h.enter (fun t => (rangeAt_inside hT hfit hn t.isLt).1) hw
    · rw [hw]
      show n.toNat - _ + 3 < n.toNat + 4
      omega
  · obtain ⟨hmore, hend⟩ := h.sum hT hfit hn hw
    by_cases hin : i ≤ (rangeAt (Granulator.new T n) t).2
    · obtain ⟨hnumber, hinv⟩ := hmore hin
      apply hnext (.summing (i + 1) (sum + (i + 1))) _ hinv
      · rw [UInt64.le_iff_toNat_le] at hin
        have hmax := n.toNat_lt
        have hone : (i + 1).toNat = i.toNat + 1 := by
          rw [UInt64.toNat_add]
          show (i.toNat + 1) % 2 ^ 64 = _
          exact Nat.mod_eq_of_lt (by omega)
        rw [hw]
        show n.toNat - (i + 1).toNat + 3 < n.toNat - i.toNat + 3
        omega
      · unfold State.stepWorker
        rw [hw]
        simp only [hrng, bind, Except.bind, if_pos hin, hnumber]
    · apply hnext (.adding sum) _ (hend hin)
      · rw [hw]
        show 2 < n.toNat - i.toNat + 3
        omega
      · unfold State.stepWorker
        rw [hw]
        simp only [hrng, bind, Except.bind, if_neg hin]

omit hT hfit hn in
/-- A thread behind its loop gets the lock, or has it. -/
theorem Invariant.progress_adding (h : Invariant T n s) (hwaits : Waits s)
    (ht : ∃ t sum, s.worker t = .adding sum ∨ s.worker t = .locked sum) :
    ∃ turn s', step n s turn = .ok s' ∧ Invariant T n s' ∧ Waits s' ∧ left s' < left s := by
  by_cases hlocked : ∃ t sum, s.worker t = .locked sum
  · obtain ⟨t, sum, hw⟩ := hlocked
    have hmoved := @left_moved T n s t (.finished sum) (by rw [hw]; exact Nat.one_pos)
    refine ⟨.worker t, _, ?_, h.push hw, ?_, ?_⟩
    · show s.stepWorker n t = _
      unfold State.stepWorker
      rw [hw]
    · apply hwaits.moved
      rintro (hno | ⟨i, sum, hno⟩) <;> cases hno
    · unfold left
      simp only
      omega
  · obtain ⟨t, sum, hw⟩ := ht
    have hadding : s.worker t = .adding sum := hw.resolve_right fun hl => hlocked ⟨t, sum, hl⟩
    have hfree : s.owner = none := by
      cases howner : s.owner with
      | none => rfl
      | some u =>
        have hu := (h.guarded u).2 howner
        cases hwu : s.worker u with
        | locked sum => exact absurd ⟨u, sum, hwu⟩ hlocked
        | unborn => simp [hwu, Worker.isLocked] at hu
        | entered => simp [hwu, Worker.isLocked] at hu
        | summing i sum => simp [hwu, Worker.isLocked] at hu
        | adding sum => simp [hwu, Worker.isLocked] at hu
        | finished sum => simp [hwu, Worker.isLocked] at hu
    have hmoved := @left_moved T n s t (.locked sum) (by
      rw [hadding]
      show 1 < 2
      omega)
    refine ⟨.worker t, _, ?_, h.lock hadding hfree, ?_, ?_⟩
    · show s.stepWorker n t = _
      unfold State.stepWorker
      rw [hadding]
      exact if_pos hfree
    · apply hwaits.moved
      rintro (hno | ⟨i, sum, hno⟩) <;> cases hno
    · unfold left
      simp only
      omega

omit hT hfit hn in
/-- With all threads unborn or finished it is the turn of `main`. -/
theorem Invariant.progress_main (h : Invariant T n s) (hrest : s.finalSum = none)
    (hidle : ∀ t, s.worker t = .unborn ∨ ∃ sum, s.worker t = .finished sum) :
    ∃ turn s', step n s turn = .ok s' ∧ Invariant T n s' ∧ Waits s' ∧ left s' < left s := by
  have hnone : ∀ t, ¬ (s.worker t = .entered ∨ ∃ i sum, s.worker t = .summing i sum) := by
    intro t
    rcases hidle t with hw | ⟨sum, hw⟩ <;> simp [hw]
  have hcases : Waits s.stepMain ∧ left s.stepMain < left s := by
    unfold State.stepMain
    cases hrange : s.range with
    | some p =>
      refine ⟨fun t ht => absurd ht (hnone t), ?_⟩
      unfold left
      simp only [hrange, Option.isSome]
      simp
    | none =>
      simp only []
      by_cases hlt : s.created < numThreads T n
      · rw [dif_pos hlt]
        have hunborn : s.worker ⟨s.created, hlt⟩ = .unborn := (h.unborn _).2 (Nat.le_refl _)
        have hmoved := @left_moved T n s ⟨s.created, hlt⟩ .entered (by
          rw [hunborn]
          show n.toNat + 4 < n.toNat + 5
          omega)
        refine ⟨?_, ?_⟩
        · -- only the new thread reads its range
          intro u
          apply forall_moved (P := fun u w => (w = .entered ∨ ∃ i sum, w = .summing i sum) →
            some ((⟨s.created, hlt⟩ : Fin (numThreads T n)), s.suggestion.Step.1) =
              some (u, rangeAt (Granulator.new T n) u))
          · exact fun u hu => absurd hu (hnone u)
          · intro _
            rw [h.suggestion]
            rfl
        · unfold left
          simp only [hrange, Option.isSome]
          split <;> simp <;> omega
      · rw [dif_neg hlt]
        have hall : ∀ t, (s.worker t).isFinished = true := by
          intro t
          rcases hidle t with hw | ⟨sum, hw⟩
          · have hcreated := (h.unborn t).1 hw
            have hmax := t.isLt
            omega
          · rw [hw]
            rfl
        rw [if_pos hall]
        refine ⟨fun t ht => absurd ht (hnone t), ?_⟩
        unfold left
        simp only [hrange, hrest, Option.isSome]
        simp
  exact ⟨.main, s.stepMain, rfl, h.stepMain, hcases⟩

theorem Invariant.progress (h : Invariant T n s) (hwaits : Waits s) (hrest : s.finalSum = none) :
    ∃ turn s', step n s turn = .ok s' ∧ (Invariant T n s' ∧ Waits s') ∧ left s' < left s := by
  by_cases hreading : ∃ t, s.worker t = .entered ∨ ∃ i sum, s.worker t = .summing i sum
  · obtain ⟨t, ht⟩ := hreading
    obtain ⟨s', hstep, hinv, hw, hleft⟩ := h.progress_reading hT hfit hn hwaits ht
    exact ⟨.worker t, s', hstep, ⟨hinv, hw⟩, hleft⟩
  · by_cases hadding : ∃ t sum, s.worker t = .adding sum ∨ s.worker t = .locked sum
    · obtain ⟨turn, s', hstep, hinv, hw, hleft⟩ := h.progress_adding hwaits hadding
      exact ⟨turn, s', hstep, ⟨hinv, hw⟩, hleft⟩
    · have hidle : ∀ t, s.worker t = .unborn ∨ ∃ sum, s.worker t = .finished sum := by
        intro t
        cases hw : s.worker t with
        | unborn => exact .inl rfl
        | entered => exact absurd ⟨t, .inl hw⟩ hreading
        | summing i sum => exact absurd ⟨t, .inr ⟨i, sum, hw⟩⟩ hreading
        | adding sum => exact absurd ⟨t, sum, .inl hw⟩ hadding
        | locked sum => exact absurd ⟨t, sum, .inr hw⟩ hadding
        | finished sum => exact .inr ⟨sum, rfl⟩
      obtain ⟨turn, s', hstep, hinv, hw, hleft⟩ := h.progress_main hrest hidle
      exact ⟨turn, s', hstep, ⟨hinv, hw⟩, hleft⟩

end

end MultiVector
