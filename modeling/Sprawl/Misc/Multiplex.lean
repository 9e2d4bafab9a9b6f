import Sprawl.Misc.Semaphore

/-!
# The counter of the multiplex (`section_3_5` of `misc/lbos.cc`)

`counter++` between `wait` and `signal` is a load and a store, and the semaphore lets in every
thread.  So increments are lost: when all threads have finished the counter may be any number
from 1 to the number of threads, and nothing else (`multiplex_counter_iff`), whatever positive
value the semaphore was made with.
-/

namespace Lbos

open Threads

/-- The increment is written. -/
def Pc.written : Pc → Bool
  | .waiting | .entered | .loaded _ => false
  | .counted | .finished => true

/-! ## What the counter can be -/

section
variable {n : Nat} {s : State n}

/-- The counter, and what a thread has loaded of it, is a number of written increments; the
counter is 0 only before the first of them. -/
structure Counted (s : State n) : Prop where
  counter_le : s.counter.toNat ≤ count Pc.written s.pc
  loaded_le : ∀ i c, s.pc i = .loaded c → c.toNat ≤ count Pc.written s.pc
  pos : 0 < count Pc.written s.pc → 0 < s.counter.toNat

theorem counted_start (m : Int64) : Counted (start m n) where
  counter_le := Nat.zero_le _
  loaded_le := by
    intro i c h
    cases h
  pos := by
    intro h
    have hzero : count Pc.written (start m n).pc = 0 := count_eq_zero fun _ => rfl
    omega

/-- A step that writes nothing. -/
theorem Counted.stay (h : Counted s) {i : Fin n} {c : Pc} (hc : c.written = (s.pc i).written)
    (hloaded : ∀ v, c = .loaded v → v = s.counter) (value : Int64) :
    Counted { s with value := value, pc := Function.update s.pc i c } := by
  have hcount : count Pc.written (Function.update s.pc i c) = count Pc.written s.pc :=
    count_stay hc
  refine ⟨?_, ?_, ?_⟩
  · show s.counter.toNat ≤ count Pc.written (Function.update s.pc i c)
    rw [hcount]
    exact h.counter_le
  · intro j v hj
    change Function.update s.pc i c j = .loaded v at hj
    show v.toNat ≤ count Pc.written (Function.update s.pc i c)
    rw [hcount]
    by_cases hne : j = i
    · subst hne
      rw [Function.update_self] at hj
      rw [hloaded v hj]
      exact h.counter_le
    · rw [Function.update_of_ne hne] at hj
      exact h.loaded_le j v hj
  · show 0 < count Pc.written (Function.update s.pc i c) → 0 < s.counter.toNat
    rw [hcount]
    exact h.pos

/-- A store. -/
theorem Counted.store (h : Counted s) (hn : n < 2 ^ 64) {i : Fin n} {c : UInt64}
    (hpc : s.pc i = .loaded c) :
    Counted { s with counter := c + 1, pc := Function.update s.pc i .counted } := by
  have hcount : count Pc.written (Function.update s.pc i .counted) = count Pc.written s.pc + 1 :=
    count_enter (by rw [hpc]; rfl) rfl
  have hle := h.loaded_le i c hpc
  have hmax : count Pc.written (Function.update s.pc i .counted) ≤ n := count_le _ _
  have hnext : (c + 1).toNat = c.toNat + 1 := by
    rw [UInt64.toNat_add]
    show (c.toNat + 1) % 2 ^ 64 = _
    exact Nat.mod_eq_of_lt (by omega)
  refine ⟨?_, ?_, ?_⟩
  · show (c + 1).toNat ≤ count Pc.written (Function.update s.pc i .counted)
    omega
  · intro j v hj
    change Function.update s.pc i .counted j = .loaded v at hj
    show v.toNat ≤ count Pc.written (Function.update s.pc i .counted)
    have hne : j ≠ i := by
      rintro rfl
      rw [Function.update_self] at hj
      cases hj
    rw [Function.update_of_ne hne] at hj
    have hold := h.loaded_le j v hj
    omega
  · intro _
    show 0 < (c + 1).toNat
    omega

theorem Counted.step (h : Counted s) (hn : n < 2 ^ 64) (i : Fin n) : Counted (Lbos.step s i) := by
  unfold Lbos.step
  cases hpc : s.pc i with
  | waiting =>
    show Counted (if s.value ≤ 0 then s else _)
    split
    · exact h
    · exact h.stay (by rw [hpc]; rfl) (fun v hv => by cases hv) s.value
  | entered =>
    apply h.stay (by rw [hpc]; rfl)
    intro v hv
    cases hv
    rfl
  | loaded c => exact h.store hn hpc
  | counted => exact h.stay (by rw [hpc]; rfl) (fun v hv => by cases hv) (s.value + 1)
  | finished => exact h

end

theorem counted_run (m : Int64) {n : Nat} (hn : n < 2 ^ 64) (schedule : List (Fin n)) :
    Counted (run m schedule) := by
  unfold run
  induction schedule using List.reverseRecOn with
  | nil => exact counted_start m
  | append_singleton schedule i ih =>
    rw [List.foldl_append, List.foldl_cons, List.foldl_nil]
    exact ih.step hn i

/-! ## Every such number is reached -/

section
variable {n : Nat}

/-- A load and a store of the same thread. -/
def increment (s : State n) (i : Fin n) : State n := step (step s i) i

theorem increments_eq (threads : List (Fin n)) (s : State n) :
    (threads.flatMap fun i => [i, i]).foldl step s = threads.foldl increment s := by
  induction threads generalizing s with
  | nil => rw [List.flatMap_nil, List.foldl_nil, List.foldl_nil]
  | cons i threads ih =>
    have hboth : [i, i].foldl step s = increment s i := by
      rw [List.foldl_cons, List.foldl_cons, List.foldl_nil, increment]
    rw [List.flatMap_cons, List.foldl_append, hboth, ih, List.foldl_cons]

variable {threads : List (Fin n)} (hnodup : threads.Nodup) {s : State n}
include hnodup

/-- Threads that get in, one after the other. -/
theorem waits_spec (hvalue : 0 < s.value) (hpc : ∀ i ∈ threads, s.pc i = .waiting) :
    (threads.foldl step s).counter = s.counter ∧
      ∀ j, (threads.foldl step s).pc j = if j ∈ threads then .entered else s.pc j := by
  obtain ⟨⟨-, hcounter⟩, hplaces⟩ := @foldl_each _ _ _ step State.pc .waiting .entered
    (fun _ t => 0 < t.value ∧ t.counter = s.counter) (by
      rintro k t i ⟨hvalue, hcounter⟩ hi
      rw [step_endsWait ⟨hi, hvalue⟩]
      exact ⟨⟨hvalue, hcounter⟩, rfl⟩) _ hnodup 0 s ⟨hvalue, rfl⟩ hpc
  exact ⟨hcounter, hplaces⟩

/-- Threads that all load the same counter. -/
theorem loads_spec (hpc : ∀ i ∈ threads, s.pc i = .entered) :
    (threads.foldl step s).counter = s.counter ∧
      ∀ j, (threads.foldl step s).pc j = if j ∈ threads then .loaded s.counter else s.pc j := by
  obtain ⟨hcounter, hplaces⟩ := @foldl_each _ _ _ step State.pc .entered (.loaded s.counter)
    (fun _ t => t.counter = s.counter) (by
      intro k t i hcounter hi
      unfold step
      rw [hi, hcounter]
      exact ⟨rfl, rfl⟩) _ hnodup 0 s rfl hpc
  exact ⟨hcounter, hplaces⟩

/-- And then all store it, plus one. -/
theorem stores_spec {c : UInt64} (hne : threads ≠ []) (hpc : ∀ i ∈ threads, s.pc i = .loaded c) :
    (threads.foldl step s).counter = c + 1 ∧
      ∀ j, (threads.foldl step s).pc j = if j ∈ threads then .counted else s.pc j := by
  obtain ⟨hcounter, hplaces⟩ := @foldl_each _ _ _ step State.pc (.loaded c) .counted
    (fun k t => 0 < k → t.counter = c + 1) (by
      intro k t i _ hi
      unfold step
      rw [hi]
      exact ⟨fun _ => rfl, rfl⟩) _ hnodup 0 s (fun h => absurd h (Nat.lt_irrefl 0)) hpc
  refine ⟨hcounter ?_, hplaces⟩
  rw [Nat.zero_add]
  exact List.length_pos_iff.2 hne

/-- Threads that load and store one after the other lose nothing. -/
theorem increments_spec (hpc : ∀ i ∈ threads, s.pc i = .entered) :
    (threads.foldl increment s).counter = s.counter + threads.length.toUInt64 ∧
      ∀ j, (threads.foldl increment s).pc j = if j ∈ threads then .counted else s.pc j := by
  have hall := @foldl_each _ _ _ increment State.pc .entered .counted
    (fun k t => t.counter = s.counter + k.toUInt64) (by
      intro k t i hcounter hi
      have hload : step t i = { t with pc := Function.update t.pc i (.loaded t.counter) } := by
        unfold step
        rw [hi]
      have hloaded : (step t i).pc i = .loaded t.counter := by
        rw [hload]
        exact Function.update_self i _ t.pc
      unfold increment
      rw [step, hloaded, hload]
      refine ⟨?_, ?_⟩
      · show t.counter + 1 = s.counter + (k + 1).toUInt64
        rw [hcounter]
        simp [UInt64.add_assoc]
      · show Function.update (Function.update t.pc i _) i _ = _
        rw [Function.update_idem]) _ hnodup 0 s (by simp) hpc
  rw [Nat.zero_add] at hall
  exact hall

/-- Threads that signal. -/
theorem signals_spec (hpc : ∀ i ∈ threads, s.pc i = .counted) :
    (threads.foldl step s).counter = s.counter ∧
      ∀ j, (threads.foldl step s).pc j = if j ∈ threads then .finished else s.pc j := by
  obtain ⟨hcounter, hplaces⟩ := @foldl_each _ _ _ step State.pc .counted .finished
    (fun _ t => t.counter = s.counter) (by
      intro k t i hcounter hi
      unfold step
      rw [hi]
      exact ⟨hcounter, rfl⟩) _ hnodup 0 s rfl hpc
  exact ⟨hcounter, hplaces⟩

end

/-- All but `k` threads store the same 1, and the others add theirs. -/
theorem exists_schedule {m : Int64} (hm : 0 < m) {n k : Nat} (hk : k < n) :
    ∃ schedule : List (Fin n), (∀ i, (run m schedule).pc i = .finished) ∧
      (run m schedule).counter = 1 + k.toUInt64 := by
  have hsplit : (List.finRange n).take k ++ (List.finRange n).drop k = List.finRange n :=
    List.take_append_drop k _
  have hnodup := List.nodup_finRange n
  have hparts := hnodup
  rw [← hsplit] at hparts
  obtain ⟨htake, hdrop, hdisjoint⟩ := List.nodup_append.1 hparts
  have hmem : ∀ i : Fin n, i ∈ (List.finRange n).take k ∨ i ∈ (List.finRange n).drop k := by
    intro i
    rw [← List.mem_append, hsplit]
    exact List.mem_finRange i
  have hne : (List.finRange n).drop k ≠ [] := by
    apply List.ne_nil_of_length_pos
    rw [List.length_drop, List.length_finRange]
    omega
  have hlen : ((List.finRange n).take k).length = k := by
    rw [List.length_take, List.length_finRange]
    omega
  -- all get in
  obtain ⟨hcounter1, hpc1⟩ := waits_spec hnodup (show 0 < (start m n).value from hm) fun _ _ => rfl
  -- those behind `k` load 0
  obtain ⟨hcounter2, hpc2⟩ := loads_spec hdrop fun i _ => by
    rw [hpc1 i, if_pos (List.mem_finRange i)]
  -- and store 1
  obtain ⟨hcounter3, hpc3⟩ := stores_spec hdrop hne fun i hi => by rw [hpc2 i, if_pos hi]
  -- the others add to it
  obtain ⟨hcounter4, hpc4⟩ := increments_spec htake fun i hi => by
    have hnot : i ∉ (List.finRange n).drop k := fun hi' => hdisjoint i hi i hi' rfl
    rw [hpc3 i, if_neg hnot, hpc2 i, if_neg hnot, hpc1 i, if_pos (List.mem_finRange i)]
  -- all signal
  obtain ⟨hcounter5, hpc5⟩ := signals_spec hnodup fun i _ => by
    rw [hpc4 i]
    rcases hmem i with hi | hi
    · rw [if_pos hi]
    · have hnot : i ∉ (List.finRange n).take k := fun hi' => hdisjoint i hi' i hi rfl
      rw [if_neg hnot, hpc3 i, if_pos hi]
  refine ⟨List.finRange n ++ (List.finRange n).drop k ++ (List.finRange n).drop k ++
    ((List.finRange n).take k).flatMap (fun i => [i, i]) ++ List.finRange n, ?_⟩
  unfold run
  rw [List.foldl_append, List.foldl_append, List.foldl_append, List.foldl_append, increments_eq]
  refine ⟨fun i => ?_, ?_⟩
  · rw [hpc5 i, if_pos (List.mem_finRange i)]
  · rw [hcounter5, hcounter4, hcounter3, hcounter1, hlen]
    rfl

/-- **The counter behind all threads is any number from 1 to theirs**, and no other. -/
theorem multiplex_counter_iff (m : Int64) (hm : 0 < m) (n : Nat) (hn : 0 < n) (hn' : n < 2 ^ 64)
    (v : UInt64) :
    (∃ schedule : List (Fin n), (∀ i, (run m schedule).pc i = .finished) ∧
        (run m schedule).counter = v) ↔
      1 ≤ v.toNat ∧ v.toNat ≤ n := by
  constructor
  · rintro ⟨schedule, hfinished, rfl⟩
    have hcounted := counted_run m hn' schedule
    have hall : count Pc.written (run m schedule).pc = n := by
      unfold count
      rw [List.countP_eq_length.2, List.length_finRange]
      intro i _
      rw [hfinished i]
      rfl
    have hle := hcounted.counter_le
    have hpos := hcounted.pos
    rw [hall] at hle hpos
    exact ⟨hpos hn, hle⟩
  · rintro ⟨hone, hle⟩
    obtain ⟨schedule, hfinished, hcounter⟩ := exists_schedule hm (show v.toNat - 1 < n by omega)
    refine ⟨schedule, hfinished, ?_⟩
    rw [hcounter, ← UInt64.toNat_inj, UInt64.toNat_add]
    have hlt := v.toNat_lt
    have hnat : (v.toNat - 1).toUInt64.toNat = v.toNat - 1 := UInt64.toNat_ofNat_of_lt' (by
      show v.toNat - 1 < 2 ^ 64
      omega)
    rw [hnat]
    show (1 + (v.toNat - 1)) % 2 ^ 64 = v.toNat
    omega

/-- The 100 threads of `multiplex` may leave the counter at 1. -/
theorem multiplex_counter_iff_hundred :
    (∃ schedule : List (Fin 100), (∀ i, (run 5 schedule).pc i = .finished) ∧
        (run 5 schedule).counter = 1) ↔
      1 ≤ (1 : UInt64).toNat ∧ (1 : UInt64).toNat ≤ 100 :=
  multiplex_counter_iff 5 (by decide) 100 (by decide) (by decide) 1

end Lbos
