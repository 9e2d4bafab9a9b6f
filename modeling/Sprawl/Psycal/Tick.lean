import Sprawl.Psycal.Server

/-!
# One pass of `Tick` and the order of its queue

`SoonerCmp` compares the times as unsigned numbers, so the heap has the events before 1970
behind all others, and the loop stops at the first event that is not due.  For any queue
content and clock:

* `movesDue_iff`: when a pass moves exactly the due events, in the order of their times.
* `popDue_ok_iff`: when it returns without a look at `top()` of the empty queue, and
  `neverEmpty_iff` over any number of passes.
-/

namespace Psycal

open Cxx Loop

/-! ## The order of the heap -/

section
variable {libc : Libc} {e e' : Event}

/-- The unsigned time: behind the largest time come the negative ones. -/
theorem timestamp_toNat : ((e.getUnixTimestamp libc).toNat : Int) =
    if e.time libc < 0 then e.time libc + 2 ^ 64 else e.time libc := by
  have hlt : (e.getUnixTimestamp libc).toNat < 2 ^ 64 := UInt64.toNat_lt _
  have hcond : e.time libc = if 2 * (e.getUnixTimestamp libc).toNat < 2 ^ 64
      then ((e.getUnixTimestamp libc).toNat : Int)
      else (e.getUnixTimestamp libc).toNat - (2 ^ 64 : Nat) :=
    BitVec.toInt_eq_toNat_cond (libc.mktime e.tm).toBitVec
  split at hcond
  · rw [if_neg (by omega)]
    omega
  · rw [if_pos (by omega)]
    omega

theorem time_lt : -2 ^ 63 ≤ e.time libc ∧ e.time libc < 2 ^ 63 :=
  ⟨Int64.le_toInt _, Int64.toInt_lt _⟩

/-- On one side of 1970 the order of the heap is the order of the times. -/
theorem time_le (h : ¬ Event.SoonerCmp libc e e') (hsign : e'.time libc < 0 → e.time libc < 0) :
    e.time libc ≤ e'.time libc := by
  have hle : (e.getUnixTimestamp libc).toNat ≤ (e'.getUnixTimestamp libc).toNat :=
    UInt64.le_iff_toNat_le.1 (UInt64.not_lt.1 h)
  have he := @timestamp_toNat libc e
  have he' := @timestamp_toNat libc e'
  have hlo := (@time_lt libc e).1
  split at he <;> split at he' <;> omega

/-- Behind an event before 1970 there are only such events. -/
theorem time_neg (h : ¬ Event.SoonerCmp libc e e') (hneg : e.time libc < 0) : e'.time libc < 0 := by
  have hle : (e.getUnixTimestamp libc).toNat ≤ (e'.getUnixTimestamp libc).toNat :=
    UInt64.le_iff_toNat_le.1 (UInt64.not_lt.1 h)
  have he := @timestamp_toNat libc e
  have he' := @timestamp_toNat libc e'
  have hlo := (@time_lt libc e).1
  have hhi := (@time_lt libc e').2
  rw [if_pos hneg] at he
  split at he' <;> omega

end

/-! ## Which events a pass moves -/

section
variable {libc : Libc} {Q : PriorityQueue Event (Event.SoonerCmp libc)}
  {emptyTop : Except Stop Event} {now : Int64} {q r : Q.Queue} {e : Event}

/-- What a pass that returns has done to a queue that is not empty. -/
theorem tick_ok {s s' : Server Q} (hsize : Q.size s.events ≠ 0)
    (h : s.Tick emptyTop now (.ok s')) :
    ∃ as, s'.old = s.old ++ as ∧
      PriorityQueue.TakesWhile (Event.Due libc now) s.events as s'.events ∧
      (∀ e ∈ as, e.InRange libc) ∧ (∀ e, Q.top? s'.events = some e → e.InRange libc) ∧
      (Q.top? s'.events = none → ∃ tp, emptyTop >>= Event.timePoint libc = .ok tp) := by
  rw [tick_iff, if_neg hsize] at h
  cases hpop : popDue emptyTop now s.events with
  | error x =>
    rw [hpop] at h
    cases h
  | ok popped =>
    rw [hpop] at h
    cases h
    exact ⟨popped.1, rfl, popDue_eq_ok.1 hpop⟩

/-- One pass of `Tick` moves exactly the due events to `old_`, the earlier ones first. -/
def Server.MovesDue (emptyTop : Except Stop Event) (now : Int64) (s : Server Q) : Prop :=
  ∃ (s' : Server Q) (moved : List Event), s.Tick emptyTop now (.ok s') ∧
    s'.old = s.old ++ moved ∧ moved.Pairwise (fun e e' => e.time libc ≤ e'.time libc) ∧
    (moved : Multiset Event) = (Q.items s.events).filter (Event.Due libc now) ∧
    Q.items s'.events = (Q.items s.events).filter fun e => ¬ e.Due libc now

/-- The due events stand in front of the heap in the order of their times, and every time the
loop looks at has a time point. -/
structure Orderly (libc : Libc) (emptyTop : Except Stop Event) (now : Int64)
    (events : Multiset Event) : Prop where
  /-- No event before 1970 is due while a later one is pending. -/
  one_side : ∀ e ∈ events, e.Due libc now → e.time libc < 0 → ∀ e' ∈ events, e'.time libc < 0
  /-- In range is the time of every event behind due ones only. -/
  in_range : ∀ e ∈ events, (∀ e' ∈ events, Event.SoonerCmp libc e e' → e'.Due libc now) →
    e.InRange libc
  /-- Where all events are due, what `top()` gives on the empty queue has a time in range. -/
  empty_top : events ≠ 0 → (∀ e ∈ events, e.Due libc now) →
    ∃ tp, emptyTop >>= Event.timePoint libc = .ok tp

section
variable {as : List Event}
  (hfront : ∀ e ∈ Q.items q, (∀ e' ∈ Q.items q, Event.SoonerCmp libc e e' → e'.Due libc now) →
    e.InRange libc)
  (htakes : PriorityQueue.TakesWhile (Event.Due libc now) q as r)

include hfront htakes

/-- The times of the popped events are in range if all behind due ones only are. -/
theorem popped_inRange : ∀ e ∈ as, e.InRange libc := by
  intro e he
  refine hfront e ((htakes.mem_iff e).2 (.inl he)) fun e' he' hsooner => ?_
  rcases (htakes.mem_iff e').1 he' with hmem | hmem
  · exact htakes.holds e' hmem
  · exact absurd hsooner (htakes.first e he e' hmem)

theorem top_inRange : ∀ e, Q.top? r = some e → e.InRange libc := by
  intro e he
  refine hfront e ((htakes.mem_iff e).2 (.inr (Q.top_mem r e he))) fun e' he' hsooner => ?_
  rcases (htakes.mem_iff e').1 he' with hmem | hmem
  · exact htakes.holds e' hmem
  · exact absurd hsooner (Q.top_first r e he e' hmem)

end

section
variable {as : List Event} (h : Orderly libc emptyTop now (Q.items q))
  (htakes : PriorityQueue.TakesWhile (Event.Due libc now) q as r)

include h htakes

/-- No due event is left behind. -/
theorem Orderly.not_due : ∀ e ∈ Q.items r, ¬ e.Due libc now := by
  intro e he hdue
  obtain ⟨f, hf⟩ := PriorityQueue.exists_top_of_mem he
  have hfirst : ¬ Event.SoonerCmp libc f e := Q.top_first r f hf e he
  have hnot : ¬ f.Due libc now := htakes.top_not hf
  have hfmem : f ∈ Q.items q := (htakes.mem_iff f).2 (.inr (Q.top_mem r f hf))
  -- `f` is not due and not later than `e`, unless they stand on two sides of 1970
  have hle : f.time libc ≤ e.time libc := by
    refine time_le hfirst fun hneg => ?_
    exact h.one_side e ((htakes.mem_iff e).2 (.inr he)) hdue hneg f hfmem
  unfold Event.Due at hnot hdue
  omega

theorem Orderly.pairwise : as.Pairwise fun e e' => e.time libc ≤ e'.time libc := by
  refine htakes.pairwise.imp_of_mem fun {e e'} he he' hfirst => ?_
  refine time_le hfirst fun hneg => ?_
  exact h.one_side e' ((htakes.mem_iff e').2 (.inl he')) (htakes.holds e' he') hneg e
    ((htakes.mem_iff e).2 (.inl he))

end

theorem movesDue_of_orderly {s : Server Q} (h : Orderly libc emptyTop now (Q.items s.events)) :
    s.MovesDue emptyTop now := by
  by_cases hsize : Q.size s.events = 0
  · have hitems := PriorityQueue.size_eq_zero_iff.1 hsize
    refine ⟨s, [], tick_iff.2 (by rw [if_pos hsize]), by simp, List.Pairwise.nil, ?_, ?_⟩
    · rw [hitems]
      rfl
    · rw [hitems]
      rfl
  · obtain ⟨as, r, htakes⟩ :=
      PriorityQueue.TakesWhile.exists_takesWhile (Event.Due libc now) s.events
    have hempty : Q.top? r = none → ∃ tp, emptyTop >>= Event.timePoint libc = .ok tp := by
      intro hnone
      refine h.empty_top (fun hzero => hsize (PriorityQueue.size_eq_zero_iff.2 hzero)) ?_
      intro e he
      rcases (htakes.mem_iff e).1 he with hmem | hmem
      · exact htakes.holds e hmem
      · rw [PriorityQueue.items_eq_zero hnone] at hmem
        exact absurd hmem (Multiset.notMem_zero e)
    have hpop : popDue emptyTop now s.events = .ok (as, r) :=
      popDue_eq_ok.2
        ⟨htakes, popped_inRange h.in_range htakes, top_inRange h.in_range htakes, hempty⟩
    refine ⟨s.moved (as, r), as, tick_iff.2 (by rw [if_neg hsize, hpop]; rfl), rfl,
      h.pairwise htakes, ?_, ?_⟩
    · rw [← htakes.items_eq, Multiset.filter_add, Multiset.filter_eq_self.2 htakes.holds,
        Multiset.filter_eq_nil.2 (h.not_due htakes), Multiset.add_zero]
    · show Q.items r = _
      rw [← htakes.items_eq, Multiset.filter_add, Multiset.filter_eq_self.2 (h.not_due htakes),
        Multiset.filter_eq_nil.2 fun e he hnot => hnot (htakes.holds e he), Multiset.zero_add]

/-- Popped in the order of the times, and of the heap: all on one side of 1970. -/
theorem popped_one_side {as : List Event}
    (htakes : PriorityQueue.TakesWhile (Event.Due libc now) q as r)
    (hsorted : as.Pairwise fun e e' => e.time libc ≤ e'.time libc) :
    ∀ e ∈ as, ∀ e' ∈ as, e.time libc < 0 ↔ e'.time libc < 0 := by
  have hside : as.Pairwise fun e e' => e.time libc < 0 ↔ e'.time libc < 0 := by
    refine (htakes.pairwise.and hsorted).imp fun {e e'} horders => ?_
    exact ⟨time_neg horders.1, fun hneg => Int.lt_of_le_of_lt horders.2 hneg⟩
  exact List.Pairwise.forall_of_forall_of_flip
    (R := fun e e' : Event => e.time libc < 0 ↔ e'.time libc < 0)
    (fun _ _ => Iff.rfl) hside (hside.imp fun hiff => hiff.symm)

/-- Two events of which neither is before the other in the heap have the same time. -/
theorem time_eq {f : Event} (h : ¬ Event.SoonerCmp libc e f) (h' : ¬ Event.SoonerCmp libc f e) :
    e.time libc = f.time libc :=
  Int.le_antisymm (time_le h (time_neg h')) (time_le h' (time_neg h))

theorem inRange_congr {f : Event} (h : ¬ Event.SoonerCmp libc e f)
    (h' : ¬ Event.SoonerCmp libc f e) : e.InRange libc ↔ f.InRange libc := by
  unfold Event.InRange
  rw [time_eq h h']

/-- An event left behind, with only due ones before it, has a time like the top's. -/
theorem left_inRange {as : List Event}
    (htakes : PriorityQueue.TakesWhile (Event.Due libc now) q as r) (hleft : e ∈ Q.items r)
    (hbehind : ∀ f ∈ Q.items q, Event.SoonerCmp libc e f → f.Due libc now)
    (htop : ∀ f, Q.top? r = some f → f.InRange libc) : e.InRange libc := by
  obtain ⟨f, hf⟩ := PriorityQueue.exists_top_of_mem hleft
  have hfmem : f ∈ Q.items q := (htakes.mem_iff f).2 (.inr (Q.top_mem _ f hf))
  -- the loop has stopped at `f`, which is not before `e` then
  have hlast : ¬ Event.SoonerCmp libc e f := fun hsooner =>
    htakes.top_not hf (hbehind f hfmem hsooner)
  exact (inRange_congr hlast (Q.top_first _ f hf e hleft)).2 (htop f hf)

theorem orderly_of_movesDue {s : Server Q} (h : s.MovesDue emptyTop now) :
    Orderly libc emptyTop now (Q.items s.events) := by
  obtain ⟨s', as, htick, hold, hsorted, hmoved, hpending⟩ := h
  by_cases hsize : Q.size s.events = 0
  · have hitems := PriorityQueue.size_eq_zero_iff.1 hsize
    constructor <;> simp [hitems]
  · obtain ⟨as', hold', htakes, hin, htop, hempty⟩ := tick_ok hsize htick
    have has : as' = as := List.append_cancel_left (hold'.symm.trans hold)
    subst has
    have hmem : ∀ e ∈ Q.items s.events, e.Due libc now → e ∈ as' := by
      intro e he hdue
      rw [← Multiset.mem_coe, hmoved]
      exact Multiset.mem_filter.2 ⟨he, hdue⟩
    refine ⟨fun e he hdue hneg e' he' => ?_, fun e he hbehind => ?_, fun hne hall => ?_⟩
    · rcases (htakes.mem_iff e').1 he' with hpopped | hleft
      · exact (popped_one_side htakes hsorted e (hmem e he hdue) e' hpopped).1 hneg
      · exact time_neg (htakes.first e (hmem e he hdue) e' hleft) hneg
    · rcases (htakes.mem_iff e).1 he with hpopped | hleft
      · exact hin e hpopped
      · exact left_inRange htakes hleft hbehind htop
    · apply hempty
      apply PriorityQueue.top_eq_none
      rw [hpending]
      exact Multiset.filter_eq_nil.2 fun e he hnot => hnot (hall e he)

/-- **A pass moves the due events in their order exactly if they stand in front of the heap.** -/
theorem movesDue_iff (emptyTop : Except Stop Event) (now : Int64) (s : Server Q) :
    s.MovesDue emptyTop now ↔ Orderly libc emptyTop now (Q.items s.events) :=
  ⟨orderly_of_movesDue, movesDue_of_orderly⟩

end

/-- A minute before 1970. -/
def lastMinute : Event :=
  ⟨{ min := 59, hour := 23, mday := 31, mon := 11, year := 69, wday := 3 }, ⟨[], by decide⟩⟩

/-- The first day of 2100. -/
def nextCentury : Event := ⟨{ mday := 1, year := 200, wday := 5 }, ⟨[], by decide⟩⟩

/-- In 2021 the event of 1969 is due, and stays behind the one of 2100. -/
theorem lastMinute_not_moved :
    ¬ Server.MovesDue (.ok hiYou) 1609502401000000000
      { events := utcQueue.push (utcQueue.push utcQueue.empty lastMinute) nextCentury,
        eventsFile := [], history := [] } := by
  intro h
  have horderly := orderly_of_movesDue h
  have hneg := horderly.one_side lastMinute (by decide) (by decide) (by decide) nextCentury
    (by decide)
  exact absurd hneg (by decide)

/-! ## The empty queue -/

/-- `top()` on the empty queue: undefined. -/
def emptyFront : Except Stop Event := .error (.undefined .outOfBounds)

/-- Some event is not due, and every time the loop looks at is in range. -/
structure Passable (libc : Libc) (now : Int64) (events : Multiset Event) : Prop where
  late : ∃ e ∈ events, ¬ e.Due libc now
  in_range : ∀ e ∈ events, (∀ e' ∈ events, Event.SoonerCmp libc e e' → e'.Due libc now) →
    e.InRange libc

section
variable {libc : Libc} {Q : PriorityQueue Event (Event.SoonerCmp libc)} {now : Int64}
  {q r : Q.Queue} {s s' : Server Q}

/-- Passes of `Tick` at these clock values, one after the other. -/
inductive Passes : Server Q → List Int64 → Server Q → Prop
  | nil (s : Server Q) : Passes s [] s
  | cons {s s' s'' : Server Q} {now : Int64} {nows : List Int64} :
      s.Tick emptyFront now (.ok s') → Passes s' nows s'' → Passes s (now :: nows) s''

/-- Every pass at these clock values returns: none calls `top()` on the empty queue, and none
overflows, behind which anything may be called.  (`pop()` is only called behind a `top()` on
the same queue.) -/
def Server.NeverEmpty (s : Server Q) (nows : List Int64) : Prop :=
  ∀ before now after, nows = before ++ now :: after →
    ∀ s', Passes s before s' → ∃ s'', s'.Tick emptyFront now (.ok s'')

theorem neverEmpty_cons {nows : List Int64} :
    s.NeverEmpty (now :: nows) ↔ (∃ s', s.Tick emptyFront now (.ok s')) ∧
      ∀ s', s.Tick emptyFront now (.ok s') → s'.NeverEmpty nows := by
  constructor
  · intro h
    refine ⟨h [] now nows rfl s (.nil s), ?_⟩
    rintro s' htick before now' after rfl s'' hpasses
    exact h (now :: before) now' after rfl s'' (.cons htick hpasses)
  · rintro ⟨hfirst, hrest⟩ before now' after heq s'' hpasses
    cases hpasses with
    | nil =>
      cases heq
      exact hfirst
    | cons htick hpasses =>
      cases heq
      exact hrest _ htick _ now' after rfl s'' hpasses

/-- The loop returns if some event is not due and the times in front are in range. -/
theorem popDue_ok_iff :
    (∃ popped, popDue emptyFront now q = .ok popped) ↔ Passable libc now (Q.items q) := by
  constructor
  · rintro ⟨⟨as, r⟩, hpop⟩
    obtain ⟨htakes, hin, htop, hempty⟩ := popDue_eq_ok.1 hpop
    refine ⟨?_, fun e he hbehind => ?_⟩
    · cases hf : Q.top? r with
      | none =>
        obtain ⟨tp, htp⟩ := hempty hf
        cases htp
      | some f => exact ⟨f, (htakes.mem_iff f).2 (.inr (Q.top_mem r f hf)), htakes.top_not hf⟩
    · rcases (htakes.mem_iff e).1 he with hpopped | hleft
      · exact hin e hpopped
      · exact left_inRange htakes hleft hbehind htop
  · rintro ⟨⟨e, he, hnot⟩, hfront⟩
    obtain ⟨as, r, htakes⟩ := PriorityQueue.TakesWhile.exists_takesWhile (Event.Due libc now) q
    refine ⟨(as, r), popDue_eq_ok.2
      ⟨htakes, popped_inRange hfront htakes, top_inRange hfront htakes, fun hnone => ?_⟩⟩
    rcases (htakes.mem_iff e).1 he with hmem | hmem
    · exact absurd (htakes.holds e hmem) hnot
    · rw [PriorityQueue.items_eq_zero hnone] at hmem
      exact absurd hmem (Multiset.notMem_zero e)

theorem tick_ok_iff (hsize : Q.size s.events ≠ 0) :
    (∃ s', s.Tick emptyFront now (.ok s')) ↔ Passable libc now (Q.items s.events) := by
  rw [← popDue_ok_iff]
  constructor
  · rintro ⟨s', htick⟩
    rw [tick_iff, if_neg hsize] at htick
    cases hpop : popDue emptyFront now s.events with
    | error x =>
      rw [hpop] at htick
      cases htick
    | ok popped => exact ⟨popped, rfl⟩
  · rintro ⟨popped, hpop⟩
    exact ⟨s.moved popped, tick_iff.2 (by rw [if_neg hsize, hpop]; rfl)⟩

/-- Whether a later pass returns does not depend on the one before. -/
theorem passable_left {now' : Int64} {as : List Event} (h : Passable libc now (Q.items q))
    (htakes : PriorityQueue.TakesWhile (Event.Due libc now) q as r) :
    Passable libc now' (Q.items r) ↔ Passable libc now' (Q.items q) := by
  have hpopped := popped_inRange h.in_range htakes
  have htop := top_inRange h.in_range htakes
  have hmem : ∀ {e}, e ∈ Q.items r → e ∈ Q.items q := fun he => (htakes.mem_iff _).2 (.inr he)
  constructor
  · rintro ⟨⟨e, he, hnot⟩, hfront⟩
    refine ⟨⟨e, hmem he, hnot⟩, fun e he hbehind => ?_⟩
    rcases (htakes.mem_iff e).1 he with hgone | hleft
    · exact hpopped e hgone
    · exact hfront e hleft fun f hf => hbehind f (hmem hf)
  · rintro ⟨⟨e, he, hnot⟩, hfront⟩
    -- the first pass has stopped at `f`, which is later than what it popped
    obtain ⟨f, hf⟩ : ∃ f, Q.top? r = some f := by
      obtain ⟨g, hg, hglate⟩ := h.late
      rcases (htakes.mem_iff g).1 hg with hgone | hleft
      · exact absurd (htakes.holds g hgone) hglate
      · exact PriorityQueue.exists_top_of_mem hleft
    have hfmem := Q.top_mem r f hf
    have hflate : ¬ f.Due libc now := htakes.top_not hf
    have hdue : ∀ g ∈ as, f.Due libc now' → g.Due libc now' := by
      intro g hg hfdue
      have hgdue := htakes.holds g hg
      unfold Event.Due at hflate hgdue hfdue ⊢
      omega
    refine ⟨?_, fun g hg hbehind => ?_⟩
    · rcases (htakes.mem_iff e).1 he with hgone | hleft
      · exact ⟨f, hfmem, fun hfdue => hnot (hdue e hgone hfdue)⟩
      · exact ⟨e, hleft, hnot⟩
    · by_cases hfdue : f.Due libc now'
      · refine hfront g (hmem hg) fun x hx hsooner => ?_
        rcases (htakes.mem_iff x).1 hx with hgone | hleft
        · exact hdue x hgone hfdue
        · exact hbehind x hleft hsooner
      · have hlast : ¬ Event.SoonerCmp libc g f := fun hsooner => hfdue (hbehind f hfmem hsooner)
        exact (inRange_congr hlast (Q.top_first r f hf g hg)).2 (htop f hf)

/-- **No pass calls `top()` on the empty queue, and none overflows, exactly if the queue is empty
from the start, or holds at every clock value an event that is not due and in front of it only
times in range.** -/
theorem neverEmpty_iff (s : Server Q) (nows : List Int64) :
    s.NeverEmpty nows ↔ Q.items s.events = 0 ∨
      ∀ now ∈ nows, Passable libc now (Q.items s.events) := by
  induction nows generalizing s with
  | nil =>
    have hnever : s.NeverEmpty [] := by
      intro before now after heq
      simp at heq
    exact ⟨fun _ => .inr nofun, fun _ => hnever⟩
  | cons now nows ih =>
    rw [neverEmpty_cons]
    by_cases hsize : Q.size s.events = 0
    · have hitems := PriorityQueue.size_eq_zero_iff.1 hsize
      refine ⟨fun _ => .inl hitems, fun _ => ⟨⟨s, tick_iff.2 (if_pos hsize).symm⟩, ?_⟩⟩
      intro s' htick
      rw [tick_iff, if_pos hsize] at htick
      cases htick
      exact (ih s).2 (.inl hitems)
    · have hne : Q.items s.events ≠ 0 := fun hzero =>
        hsize (PriorityQueue.size_eq_zero_iff.2 hzero)
      rw [tick_ok_iff hsize, or_iff_right hne, List.forall_mem_cons]
      refine and_congr_right fun hpass => ?_
      have hrest : ∀ s', s.Tick emptyFront now (.ok s') →
          (s'.NeverEmpty nows ↔ ∀ now' ∈ nows, Passable libc now' (Q.items s.events)) := by
        intro s' htick
        obtain ⟨as, -, htakes, -⟩ := tick_ok hsize htick
        have hleft : Q.items s'.events ≠ 0 := by
          obtain ⟨e, he, hnot⟩ := hpass.late
          rcases (htakes.mem_iff e).1 he with hgone | hleft
          · exact absurd (htakes.holds e hgone) hnot
          · exact fun hzero => Multiset.notMem_zero e (hzero ▸ hleft)
        rw [ih s', or_iff_right hleft]
        exact forall₂_congr fun now' _ => passable_left hpass htakes
      obtain ⟨s', htick⟩ := (tick_ok_iff hsize).2 hpass
      exact ⟨fun h => (hrest s' htick).1 (h s' htick), fun h s'' htick' => (hrest s'' htick').2 h⟩

end

/-- The event of the tests is pending. -/
def pendingHiYou : Server utcQueue :=
  { events := utcQueue.push utcQueue.empty hiYou, eventsFile := [], history := [] }

theorem size_pendingHiYou : utcQueue.size pendingHiYou.events ≠ 0 := by decide

/-- A second after the only event is due, `Tick` pops it and looks at the top of what is left. -/
theorem tick_pendingHiYou :
    pendingHiYou.Tick emptyFront 1609502401000000000 (.error (.undefined .outOfBounds)) := by
  have hpoint : (topOr emptyFront pendingHiYou.events >>= Event.timePoint .utc) =
      .ok 1609502400000000000 := by decide +kernel
  unfold Server.Tick
  rw [if_neg size_pendingHiYou, hpoint]
  exact ⟨_, ⟨1, rfl⟩, rfl⟩

theorem hiYou_empties :
    pendingHiYou.Tick emptyFront 1609502401000000000 (.error (.undefined .outOfBounds)) ∧
      ¬ pendingHiYou.NeverEmpty [1609502401000000000] := by
  refine ⟨tick_pendingHiYou, fun h => ?_⟩
  obtain ⟨⟨s', htick⟩, -⟩ := neverEmpty_cons.1 h
  have herror := tick_iff.1 tick_pendingHiYou
  rw [← tick_iff.1 htick] at herror
  cases herror

end Psycal
