import Sprawl.Lib.Threads

/-!
# The semaphore of the multiplex (`misc/lbos.cc`)

`Semaphore` holds a 64-bit value.  `signal` adds one to it; `wait` spins until the value is
positive, and takes nothing from it.  The threads of `multiplex` wait, increment a counter
and signal.  A value that is positive at the start lets every thread through, so more than
`m` of them can be between their wait and their signal exactly when there are more than `m`
(`multiplex_inside_iff`).
-/

namespace Lbos

open Threads

/-! ## The code -/

/-- Where a thread of `multiplex` is; `counter++` is a load and a store. -/
inductive Pc
  | waiting
  | entered
  | loaded (counter : UInt64)
  | counted
  | finished
deriving DecidableEq

/-- Between the end of the wait and the signal. -/
def Pc.inside : Pc → Bool
  | .waiting | .finished => false
  | .entered | .loaded _ | .counted => true

/-- The semaphore, the counter and the threads. -/
structure State (n : Nat) where
  value : Int64
  counter : UInt64
  pc : Fin n → Pc

/-- `Semaphore(max_threads)` and the threads, before their first steps. -/
def start (maxThreads : Int64) (n : Nat) : State n :=
  { value := maxThreads, counter := 0, pc := fun _ => .waiting }

/-- The next atomic step of the thread `i`; one that has finished takes none. -/
def step {n : Nat} (s : State n) (i : Fin n) : State n :=
  match s.pc i with
  | .waiting =>
    -- `while (value_.load() <= 0) std::this_thread::yield();`
    if s.value ≤ 0 then s else { s with pc := Function.update s.pc i .entered }
  | .entered => { s with pc := Function.update s.pc i (.loaded s.counter) }
  | .loaded counter => { s with
      counter := counter + 1
      pc := Function.update s.pc i .counted }
  | .counted => { s with
      value := s.value + 1
      pc := Function.update s.pc i .finished }
  | .finished => s

/-- The state in which a schedule ends. -/
def run (maxThreads : Int64) {n : Nat} (schedule : List (Fin n)) : State n :=
  schedule.foldl step (start maxThreads n)

/-- The number of threads between their wait and their signal. -/
def State.inside {n : Nat} (s : State n) : Nat := count Pc.inside s.pc

/-- The next step of the thread `i` is the last of its wait. -/
def State.EndsWait {n : Nat} (s : State n) (i : Fin n) : Prop := s.pc i = .waiting ∧ 0 < s.value

/-! ## One step -/

section
variable {n : Nat} {s : State n} {i : Fin n}

theorem step_endsWait (h : s.EndsWait i) :
    step s i = { s with pc := Function.update s.pc i .entered } := by
  obtain ⟨hpc, hvalue⟩ := h
  rw [step, hpc]
  exact if_neg (Int64.not_le.2 hvalue)

/-- The wait of the thread `i` ends, and nothing is taken from the value. -/
theorem inside_endsWait (h : s.EndsWait i) : (step s i).inside = s.inside + 1 := by
  have hout : (s.pc i).inside = false := by
    rw [h.1]
    rfl
  rw [step_endsWait h]
  exact count_enter hout rfl

/-- No other step lets a thread in. -/
theorem inside_step_le (h : ¬ s.EndsWait i) : (step s i).inside ≤ s.inside := by
  unfold step
  cases hpc : s.pc i with
  | waiting =>
    have hvalue : s.value ≤ 0 := Int64.not_lt.1 fun hlt => h ⟨hpc, hlt⟩
    show (if s.value ≤ 0 then s else _).inside ≤ s.inside
    rw [if_pos hvalue]
  | entered =>
    apply Nat.le_of_eq
    apply count_stay
    rw [hpc]
    rfl
  | loaded counter =>
    apply Nat.le_of_eq
    apply count_stay
    rw [hpc]
    rfl
  | counted =>
    have hin : (s.pc i).inside = true := by
      rw [hpc]
      rfl
    have hleave := count_leave hin (show Pc.inside .finished = false from rfl)
    show count Pc.inside (Function.update s.pc i .finished) ≤ count Pc.inside s.pc
    omega
  | finished => exact Nat.le_refl _

end

/-! ## Runs -/

theorem inside_start (maxThreads : Int64) (n : Nat) : (start maxThreads n).inside = 0 :=
  count_eq_zero fun _ => rfl

/-- Threads that wait at a positive value all get in, one after the other. -/
theorem inside_waits {n : Nat} {waits : List (Fin n)} (hnodup : waits.Nodup) {s : State n}
    (hvalue : 0 < s.value) (hpc : ∀ i ∈ waits, s.pc i = .waiting) :
    (waits.foldl step s).inside = s.inside + waits.length := by
  induction waits generalizing s with
  | nil => rfl
  | cons i waits ih =>
    obtain ⟨hnotMem, hnodup⟩ := List.nodup_cons.1 hnodup
    have hends : s.EndsWait i := ⟨hpc i List.mem_cons_self, hvalue⟩
    have hstep := step_endsWait hends
    have hothers : ∀ j ∈ waits, (step s i).pc j = .waiting := by
      intro j hj
      have hne : j ≠ i := by
        rintro rfl
        exact hnotMem hj
      rw [hstep]
      show Function.update s.pc i .entered j = .waiting
      rw [Function.update_of_ne hne]
      exact hpc j (List.mem_cons_of_mem i hj)
    have hpositive : 0 < (step s i).value := by
      rw [hstep]
      exact hvalue
    rw [List.foldl_cons, ih hnodup hpositive hothers, inside_endsWait hends, List.length_cons]
    omega

/-- Each thread takes one step: all of them are inside. -/
theorem inside_all {maxThreads : Int64} (h : 0 < maxThreads) (n : Nat) :
    (run maxThreads (List.finRange n)).inside = n := by
  have hwaits := @inside_waits n _ (List.nodup_finRange n) (start maxThreads n) h fun _ _ => rfl
  rw [inside_start, List.length_finRange, Nat.zero_add] at hwaits
  exact hwaits

/-- **At most `m` threads are inside exactly when no more than `m` run**, and along one
schedule exactly when each wait ends with fewer than `m` inside. -/
theorem multiplex_inside_iff (m : Int64) (hm : 0 < m) (n : Nat) :
    ((∀ schedule : List (Fin n), ((run m schedule).inside : Int) ≤ m.toInt) ↔
        (n : Int) ≤ m.toInt) ∧
      ∀ schedule : List (Fin n),
        (∀ pre, pre <+: schedule → ((run m pre).inside : Int) ≤ m.toInt) ↔
          ∀ pre i, pre ++ [i] <+: schedule → (run m pre).EndsWait i →
            ((run m pre).inside : Int) < m.toInt := by
  have hpos : 0 < m.toInt := Int64.lt_iff_toInt_lt.1 hm
  refine ⟨⟨fun h => ?_, fun hn schedule => ?_⟩, fun schedule => ?_⟩
  · have hall := h (List.finRange n)
    rw [inside_all hm] at hall
    exact hall
  · have hle : (run m schedule).inside ≤ n := count_le _ _
    omega
  · apply @bounded_along_iff _ _ step State.inside State.EndsWait
    · exact fun _ _ => inside_endsWait
    · exact fun _ _ => inside_step_le
    · rw [inside_start]
      exact Int.le_of_lt hpos

/-- A semaphore for one thread, shared by two. -/
theorem multiplex_inside_iff_two :
    ((∀ schedule : List (Fin 2), ((run 1 schedule).inside : Int) ≤ (1 : Int64).toInt) ↔
        ((2 : Nat) : Int) ≤ (1 : Int64).toInt) ∧
      ∀ schedule : List (Fin 2),
        (∀ pre, pre <+: schedule → ((run 1 pre).inside : Int) ≤ (1 : Int64).toInt) ↔
          ∀ pre i, pre ++ [i] <+: schedule → (run 1 pre).EndsWait i →
            ((run 1 pre).inside : Int) < (1 : Int64).toInt :=
  multiplex_inside_iff 1 (by decide) 2

/-- Five are allowed in, and six of the 100 threads of `multiplex` are inside after six waits. -/
theorem not_multiplex_inside :
    ¬ ∀ (m : Int64) (n : Nat) (schedule : List (Fin n)), 0 < m →
      ((run m schedule).inside : Int) ≤ m.toInt := by
  intro h
  have hsix := h 5 100 [0, 1, 2, 3, 4, 5] (by decide)
  have hinside : (run 5 ([0, 1, 2, 3, 4, 5] : List (Fin 100))).inside = 6 := by decide +kernel
  have hfive : (5 : Int64).toInt = 5 := by decide
  omega

end Lbos
