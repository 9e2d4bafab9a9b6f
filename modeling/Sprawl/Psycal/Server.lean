import Sprawl.Net.Udp
import Sprawl.Psycal.Dump
import Sprawl.Psycal.Message

/-!
# The calendar server (`psycal/server.cc`)

The state of `Server` with its two files, and what its threads do under the lock: a
datagram arrives (`listen`), `Tick` looks at the clock, `Snapshot` writes the files.
`Run` is any order of these.

What one pass of `Tick` does is `popDue`, by recursion on the queue (`tick_iff`); `tick_spec`
says of it what a run needs.  After any run that has changed the server, no event is lost or
doubled, and while `make_snapshot_` is false everything is on disk (`accounted_of_ne`).  In the
state that `Start` leaves, the second part holds of the empty events file only, since
`ReadEventsFrom` never gives back what was saved (`server_invariant_iff`).

The queue is any `PriorityQueue` for `SoonerCmp`.  `Tick` looks at `top()` once more behind
the last `pop()`; `emptyTop` is what it finds there.
-/

namespace Psycal

open Cxx Loop Net

/-- The time an event is due, in nanoseconds. -/
def Event.timePoint (libc : Libc) (e : Event) : Except Stop Int :=
  let ns := (e.getUnixTimestamp libc).toInt64.toInt * 10 ^ 9
  if -2 ^ 63 ≤ ns ∧ ns < 2 ^ 63 then .ok ns else .error (.undefined .signedOverflow)

section
variable {libc : Libc}

/-- The queue, `old_`, `make_snapshot_` and the contents of the two files. -/
structure Server (Q : PriorityQueue Event (Event.SoonerCmp libc)) where
  events : Q.Queue
  old : List Event := []
  makeSnapshot : Bool := false
  eventsFile : List UInt8
  history : List UInt8

variable (Q : PriorityQueue Event (Event.SoonerCmp libc))

/-- `Start`, when it has read the events `loaded` from the events file. -/
def Server.start (eventsFile history : List UInt8) (loaded : List Event) : Server Q :=
  { events := Q.pushAll Q.empty loaded, eventsFile, history }

variable {Q}

/-- `listen_fn`; an exception does not leave it. -/
def Server.listen (s : Server Q) (bf : List UInt8) : Except Stop (Server Q) :=
  match fromBuffer libc bf kMaxUDPSize with
  | .error .exception => .error .abort
  | .error e => .error e
  | .ok received => .ok { s with events := Q.pushAll s.events received, makeSnapshot := true }

/-- `events_.top()`. -/
def topOr (emptyTop : Except Stop Event) (events : Q.Queue) : Except Stop Event :=
  match Q.top? events with
  | some e => .ok e
  | none => emptyTop

/-- The variables of the loop in `Tick`. -/
structure TickState (Q : PriorityQueue Event (Event.SoonerCmp libc)) where
  events : Q.Queue
  old : List Event
  poppedEvent : Bool := false
  eventTimepoint : Int

section
variable (emptyTop : Except Stop Event) (now : Int64)

/-- The body of `while (events_.size() > 0 && now > event_timepoint)`. -/
def TickState.popEvent (t : TickState Q) : Except Stop (TickState Q) := do
  let old := t.old ++ [← topOr emptyTop t.events]
  let events := Q.pop t.events
  let eventTimepoint ← (← topOr emptyTop events).timePoint libc
  return { events, old, poppedEvent := true, eventTimepoint }

def tickBody (t : TickState Q) : Turn (TickState Q) (Except Stop (TickState Q)) :=
  if 0 < Q.size t.events ∧ t.eventTimepoint < now.toInt then
    match t.popEvent emptyTop with
    | .error e => .done (.error e)
    | .ok t => .again t
  else .done (.ok t)

/-- The server behind the loop. -/
def Server.afterTick (s : Server Q) (t : TickState Q) : Server Q :=
  { s with events := t.events, old := t.old, makeSnapshot := s.makeSnapshot || t.poppedEvent }

/-- One pass of `Tick` at the clock value `now` ends with `r`. -/
def Server.Tick (s : Server Q) (r : Except Stop (Server Q)) : Prop :=
  if Q.size s.events = 0 then r = .ok s
  else
    match topOr emptyTop s.events >>= Event.timePoint libc with
    | .error e => r = .error e
    | .ok eventTimepoint =>
      ∃ t, Returns (tickBody emptyTop now) { events := s.events, old := s.old, eventTimepoint } t ∧
        r = t.map s.afterTick

end

/-- One pass of `Snapshot`, when `make_snapshot_` is true. -/
def Server.snapshot (s : Server Q) : Server Q :=
  { s with
    eventsFile := saveCurrentEvents libc Q s.events
    history := saveOld libc s.history s.old
    old := []
    makeSnapshot := false }

/-- What a thread does while it has the lock, and the events that arrive there. -/
inductive Step : Server Q → List Event → Server Q → Prop
  | listen {s s' : Server Q} {bf : List UInt8} {received : List Event} :
      fromBuffer libc bf kMaxUDPSize = .ok received → s.listen bf = .ok s' → Step s received s'
  | tick {s s' : Server Q} (emptyTop : Except Stop Event) (now : Int64) :
      s.Tick emptyTop now (.ok s') → Step s [] s'
  | snapshot {s : Server Q} : s.makeSnapshot = true → Step s [] s.snapshot

/-- Any number of steps, and all events that arrive on the way. -/
inductive Run (s₀ : Server Q) : List Event → Server Q → Prop
  | start : Run s₀ [] s₀
  | step {s s' : Server Q} {received new : List Event} :
      Run s₀ received s → Step s new s' → Run s₀ (received ++ new) s'

end

/-! ## Times -/

section
variable (libc : Libc)

/-- The time of an event in seconds, as `mktime` gives it. -/
def Event.time (e : Event) : Int := (libc.mktime e.tm).toInt

/-- The time is strictly before the clock, which counts nanoseconds. -/
def Event.Due (now : Int64) (e : Event) : Prop := e.time libc * 10 ^ 9 < now.toInt

/-- The time fits a clock of signed 64-bit nanoseconds. -/
def Event.InRange (e : Event) : Prop :=
  -2 ^ 63 ≤ e.time libc * 10 ^ 9 ∧ e.time libc * 10 ^ 9 < 2 ^ 63

instance (now : Int64) : DecidablePred (Event.Due libc now) := fun _ => Int.decLt _ _

instance : DecidablePred (Event.InRange libc) := fun _ => inferInstanceAs (Decidable (_ ∧ _))

end

section
variable {libc : Libc} {e e' : Event}

theorem timePoint_eq : e.timePoint libc =
    if e.InRange libc then .ok (e.time libc * 10 ^ 9) else .error (.undefined .signedOverflow) := by
  unfold Event.timePoint Event.getUnixTimestamp
  rw [Int64.toInt64_toUInt64]
  rfl

end

/-! ## The loop of `Tick` as a function of the queue -/

section
variable {libc : Libc} {Q : PriorityQueue Event (Event.SoonerCmp libc)}

/-- The events that the loop pops and the queue behind it.  Where the queue is empty `top()` has
been called on it. -/
def popDue (emptyTop : Except Stop Event) (now : Int64) (q : Q.Queue) :
    Except Stop (List Event × Q.Queue) :=
  match _h : Q.top? q with
  | none => (emptyTop >>= Event.timePoint libc).map fun _ => ([], q)
  | some e =>
    match e.timePoint libc with
    | .error x => .error x
    | .ok eventTimepoint =>
      if eventTimepoint < now.toInt then
        (popDue emptyTop now (Q.pop q)).map fun popped => (e :: popped.1, popped.2)
      else .ok ([], q)
termination_by Q.size q
decreasing_by
  have h := PriorityQueue.size_pop _h
  omega

variable {emptyTop : Except Stop Event} {now : Int64} {q r : Q.Queue} {e : Event}

theorem popDue_none (h : Q.top? q = none) :
    popDue emptyTop now q = (emptyTop >>= Event.timePoint libc).map fun _ => ([], q) := by
  rw [popDue]
  split
  · rfl
  · next h' => rw [h] at h'; cases h'

theorem popDue_some (h : Q.top? q = some e) :
    popDue emptyTop now q =
      match e.timePoint libc with
      | .error x => .error x
      | .ok eventTimepoint =>
        if eventTimepoint < now.toInt then
          (popDue emptyTop now (Q.pop q)).map fun popped => (e :: popped.1, popped.2)
        else .ok ([], q) := by
  rw [popDue]
  split
  · next h' => rw [h] at h'; cases h'
  · next h' =>
    rw [h] at h'
    cases h'
    rfl

theorem popDue_overflow (h : Q.top? q = some e) (hrange : ¬ e.InRange libc) :
    popDue emptyTop now q = .error (.undefined .signedOverflow) := by
  rw [popDue_some h, timePoint_eq, if_neg hrange]

theorem popDue_stop (h : Q.top? q = some e) (hrange : e.InRange libc) (hdue : ¬ e.Due libc now) :
    popDue emptyTop now q = .ok ([], q) := by
  rw [popDue_some h, timePoint_eq, if_pos hrange]
  exact if_neg hdue

theorem popDue_pop (h : Q.top? q = some e) (hrange : e.InRange libc) (hdue : e.Due libc now) :
    popDue emptyTop now q =
      (popDue emptyTop now (Q.pop q)).map fun popped => (e :: popped.1, popped.2) := by
  rw [popDue_some h, timePoint_eq, if_pos hrange]
  exact if_pos hdue

theorem tickBody_stop {t : TickState Q}
    (h : ¬ (0 < Q.size t.events ∧ t.eventTimepoint < now.toInt)) :
    tickBody emptyTop now t = .done (.ok t) := if_neg h

/-- A turn that pops `e`. -/
theorem tickBody_pop {t : TickState Q} (htop : Q.top? t.events = some e)
    (hdue : t.eventTimepoint < now.toInt) :
    tickBody emptyTop now t =
      match topOr emptyTop (Q.pop t.events) >>= Event.timePoint libc with
      | .error x => .done (.error x)
      | .ok eventTimepoint =>
        .again { events := Q.pop t.events, old := t.old ++ [e], poppedEvent := true,
                 eventTimepoint } := by
  have hsize : 0 < Q.size t.events := by
    have h := PriorityQueue.size_pop htop
    omega
  have htopOr : topOr emptyTop t.events = .ok e := by simp only [topOr, htop]
  have hpop : t.popEvent emptyTop =
      (topOr emptyTop (Q.pop t.events) >>= Event.timePoint libc).map fun eventTimepoint =>
        { events := Q.pop t.events, old := t.old ++ [e], poppedEvent := true, eventTimepoint } := by
    unfold TickState.popEvent
    rw [htopOr, ok_bind]
    show (topOr emptyTop (Q.pop t.events) >>= fun next => next.timePoint libc >>= _) = _
    cases topOr emptyTop (Q.pop t.events) with
    | error x => rfl
    | ok next =>
      rw [ok_bind, ok_bind]
      cases next.timePoint libc <;> rfl
  unfold tickBody
  rw [if_pos ⟨hsize, hdue⟩, hpop]
  cases topOr emptyTop (Q.pop t.events) >>= Event.timePoint libc <;> rfl

/-- The server behind a pass that moves these events. -/
def Server.moved (s : Server Q) (popped : List Event × Q.Queue) : Server Q :=
  { s with
    events := popped.2
    old := s.old ++ popped.1
    makeSnapshot := s.makeSnapshot || !popped.1.isEmpty }

/-- The loop, entered with the time of the top, does what `popDue` does. -/
theorem tickLoop_popDue (s : Server Q) (t : TickState Q) (htop : Q.top? t.events = some e)
    (hrange : e.InRange libc) (hpoint : t.eventTimepoint = e.time libc * 10 ^ 9) :
    ∃ r, Returns (tickBody emptyTop now) t r ∧ r.map s.afterTick =
      (popDue emptyTop now t.events).map fun popped =>
        { s with
          events := popped.2
          old := t.old ++ popped.1
          makeSnapshot := s.makeSnapshot || (t.poppedEvent || !popped.1.isEmpty) } := by
  induction hsize : Q.size t.events using Nat.strongRecOn generalizing t e with
  | ind n ih =>
    by_cases hdue : e.Due libc now
    · have hturn := @tickBody_pop libc Q emptyTop now e t htop (hpoint ▸ hdue)
      rw [popDue_pop htop hrange hdue]
      cases hnext : Q.top? (Q.pop t.events) with
      | none =>
        have htopOr : topOr emptyTop (Q.pop t.events) = emptyTop := by simp only [topOr, hnext]
        rw [htopOr] at hturn
        rw [popDue_none hnext]
        cases hempty : emptyTop >>= Event.timePoint libc with
        | error x =>
          rw [hempty] at hturn
          exact ⟨_, returns_of_done hturn, rfl⟩
        | ok eventTimepoint =>
          rw [hempty] at hturn
          -- the queue is empty, so the loop stops whatever it has found there
          have hzero : Q.size (Q.pop t.events) = 0 := by
            rw [Q.size_eq, PriorityQueue.items_eq_zero hnext, Multiset.card_zero]
          refine ⟨_, (returns_again_iff hturn).2 (returns_of_done (tickBody_stop ?_)), ?_⟩
          · show ¬ (0 < Q.size (Q.pop t.events) ∧ _)
            omega
          · simp [Server.afterTick, Except.map]
      | some e' =>
        have htopOr : topOr emptyTop (Q.pop t.events) = .ok e' := by simp only [topOr, hnext]
        rw [htopOr, ok_bind, timePoint_eq] at hturn
        by_cases hrange' : e'.InRange libc
        · rw [if_pos hrange'] at hturn
          have hlt := PriorityQueue.size_pop htop
          obtain ⟨r, hr, hmap⟩ := ih (Q.size (Q.pop t.events)) (by omega)
            { events := Q.pop t.events, old := t.old ++ [e], poppedEvent := true,
              eventTimepoint := e'.time libc * 10 ^ 9 } hnext hrange' rfl rfl
          refine ⟨r, (returns_again_iff hturn).2 hr, ?_⟩
          rw [hmap]
          cases popDue emptyTop now (Q.pop t.events) <;> simp [Except.map]
        · rw [if_neg hrange'] at hturn
          rw [popDue_overflow hnext hrange']
          exact ⟨_, returns_of_done hturn, rfl⟩
    · rw [popDue_stop htop hrange hdue]
      refine ⟨_, returns_of_done (tickBody_stop fun h => hdue ?_), ?_⟩
      · rw [Event.Due, ← hpoint]
        exact h.2
      · simp [Server.afterTick, Except.map]

/-- **A pass of `Tick` is `popDue` on a queue that is not empty.** -/
theorem tick_iff {s : Server Q} {r : Except Stop (Server Q)} :
    s.Tick emptyTop now r ↔
      r = if Q.size s.events = 0 then .ok s else (popDue emptyTop now s.events).map s.moved := by
  unfold Server.Tick
  by_cases hsize : Q.size s.events = 0
  · rw [if_pos hsize, if_pos hsize]
  · rw [if_neg hsize, if_neg hsize]
    obtain ⟨e, htop⟩ := PriorityQueue.exists_top (Nat.pos_of_ne_zero hsize)
    have htopOr : topOr emptyTop s.events = .ok e := by simp only [topOr, htop]
    rw [htopOr, ok_bind, timePoint_eq]
    by_cases hrange : e.InRange libc
    · rw [if_pos hrange]
      obtain ⟨t, ht, hmap⟩ := tickLoop_popDue s
        { events := s.events, old := s.old, eventTimepoint := e.time libc * 10 ^ 9 } htop hrange rfl
      constructor
      · rintro ⟨t', ht', rfl⟩
        rw [ht'.unique ht, hmap]
        rfl
      · rintro rfl
        exact ⟨t, ht, hmap.symm⟩
    · rw [if_neg hrange, popDue_overflow htop hrange]
      rfl

/-- What it takes for the loop to end without an error, and what it has popped then. -/
theorem popDue_eq_ok {as : List Event} :
    popDue emptyTop now q = .ok (as, r) ↔
      PriorityQueue.TakesWhile (Event.Due libc now) q as r ∧ (∀ e ∈ as, e.InRange libc) ∧
        (∀ e, Q.top? r = some e → e.InRange libc) ∧
        (Q.top? r = none → ∃ tp, emptyTop >>= Event.timePoint libc = .ok tp) := by
  constructor
  · intro h
    induction hsize : Q.size q using Nat.strongRecOn generalizing q as with
    | ind n ih =>
      cases htop : Q.top? q with
      | none =>
        rw [popDue_none htop] at h
        cases hempty : emptyTop >>= Event.timePoint libc with
        | error x =>
          rw [hempty] at h
          cases h
        | ok tp =>
          rw [hempty] at h
          cases h
          refine ⟨.stop fun e he => ?_, by simp, fun e he => ?_, fun _ => ⟨tp, rfl⟩⟩
          · rw [htop] at he
            cases he
          · rw [htop] at he
            cases he
      | some e =>
        by_cases hrange : e.InRange libc
        · by_cases hdue : e.Due libc now
          · rw [popDue_pop htop hrange hdue] at h
            cases hrest : popDue emptyTop now (Q.pop q) with
            | error x =>
              rw [hrest] at h
              cases h
            | ok popped =>
              rw [hrest] at h
              cases h
              have hlt := PriorityQueue.size_pop htop
              obtain ⟨htakes, hin, hstop, hnone⟩ :=
                ih (Q.size (Q.pop q)) (by omega) hrest rfl
              exact ⟨.take htop hdue htakes, List.forall_mem_cons.2 ⟨hrange, hin⟩, hstop, hnone⟩
          · rw [popDue_stop htop hrange hdue] at h
            cases h
            refine ⟨.stop fun e' he' => ?_, by simp, fun e' he' => ?_, fun hnone => ?_⟩
            · rw [htop] at he'
              cases he'
              exact hdue
            · rw [htop] at he'
              cases he'
              exact hrange
            · rw [htop] at hnone
              cases hnone
        · rw [popDue_overflow htop hrange] at h
          cases h
  · rintro ⟨htakes, hin, hstop, hnone⟩
    induction htakes with
    | @stop q hdue =>
      cases htop : Q.top? q with
      | none =>
        obtain ⟨tp, htp⟩ := hnone htop
        rw [popDue_none htop, htp]
        rfl
      | some e => exact popDue_stop htop (hstop e htop) (hdue e htop)
    | take htop hdue _ ih =>
      obtain ⟨hrange, hin⟩ := List.forall_mem_cons.1 hin
      rw [popDue_pop htop hrange hdue, ih hin hstop hnone]
      rfl

/-- **One pass of `Tick`** moves events from the queue to `old_`, and asks for a snapshot if it
has moved any. -/
theorem tick_spec {s s' : Server Q} (h : s.Tick emptyTop now (.ok s')) :
    ∃ popped, s' = s.moved popped ∧
      (popped.1 : Multiset Event) + Q.items popped.2 = Q.items s.events ∧
      (popped.1 = [] → s' = s) := by
  have hmoved : s.moved ([], s.events) = s := by simp [Server.moved]
  rw [tick_iff] at h
  by_cases hsize : Q.size s.events = 0
  · rw [if_pos hsize] at h
    cases h
    exact ⟨([], s.events), hmoved.symm, by simp, fun _ => rfl⟩
  · rw [if_neg hsize] at h
    cases hpop : popDue emptyTop now s.events with
    | error x =>
      rw [hpop] at h
      cases h
    | ok popped =>
      rw [hpop] at h
      cases h
      have htakes := (popDue_eq_ok.1 hpop).1
      refine ⟨popped, rfl, htakes.items_eq, fun hnil => ?_⟩
      obtain ⟨as, r⟩ := popped
      obtain rfl : as = [] := hnil
      cases htakes
      exact hmoved

end

/-! ## What holds after any run -/

/-- A file of the records of these events, in some order. -/
def Holds (libc : Libc) (file : List UInt8) (events : Multiset Event) : Prop :=
  ∃ es : List Event, file = es.flatMap (Event.record libc) ∧ (es : Multiset Event) = events

section
variable {libc : Libc} {Q : PriorityQueue Event (Event.SoonerCmp libc)}

/-- The invariant of the server since `s₀`, with the events `arrived` loaded and received. -/
structure Server.Invariant (s₀ : Server Q) (arrived : Multiset Event) (s : Server Q) : Prop where
  conserved : ∃ saved : List Event, s.history = s₀.history ++ saved.flatMap (Event.record libc) ∧
    arrived = Q.items s.events + s.old + saved
  onDisk : s.makeSnapshot = false →
    s.old = [] ∧ (Holds libc s.eventsFile (Q.items s.events) ∨ s = s₀)

theorem holds_snapshot (s : Server Q) :
    Holds libc s.snapshot.eventsFile (Q.items s.snapshot.events) :=
  ⟨Q.drain s.events, foldl_writeEvent [] _, PriorityQueue.coe_drain s.events⟩

/-- **Every step keeps the invariant.** -/
theorem Server.Invariant.step {s₀ s s' : Server Q} {arrived : Multiset Event} {new : List Event}
    (h : s₀.Invariant arrived s) (hstep : Step s new s') :
    s₀.Invariant (arrived + new) s' := by
  obtain ⟨⟨saved, hhistory, hsum⟩, hdisk⟩ := h
  cases hstep with
  | @listen _ bf _ hbf hlisten =>
    unfold Server.listen at hlisten
    rw [hbf] at hlisten
    cases hlisten
    refine ⟨⟨saved, hhistory, ?_⟩, fun hflag => by cases hflag⟩
    rw [hsum, PriorityQueue.items_pushAll]
    abel
  | tick emptyTop now htick =>
    obtain ⟨popped, rfl, hitems, hsame⟩ := tick_spec htick
    refine ⟨⟨saved, hhistory, ?_⟩, fun hfalse => ?_⟩
    · show _ = Q.items popped.2 + ((s.old ++ popped.1 : List Event) : Multiset Event) + _
      rw [hsum, ← hitems, ← Multiset.coe_add, Multiset.coe_nil, Multiset.add_zero]
      abel
    · obtain ⟨hflag, hnone⟩ := Bool.or_eq_false_iff.1 hfalse
      have hnil : popped.1 = [] := by simpa using hnone
      rw [hsame hnil]
      exact hdisk hflag
  | snapshot hflag =>
    refine ⟨⟨saved ++ s.old, ?_, ?_⟩, fun _ => ⟨rfl, .inl (holds_snapshot s)⟩⟩
    · show saveOld libc s.history s.old = _
      rw [saveOld_eq, hhistory, List.flatMap_append, List.append_assoc]
    · rw [hsum]
      show _ = Q.items s.events + (([] : List Event) : Multiset Event) + _
      rw [← Multiset.coe_add, Multiset.coe_nil, Multiset.add_zero, Multiset.add_zero]
      abel

theorem Server.Invariant.run {s₀ s : Server Q} {arrived : Multiset Event} {received : List Event}
    (h : s₀.Invariant arrived s₀) (hrun : Run s₀ received s) :
    s₀.Invariant (arrived + received) s := by
  induction hrun with
  | start =>
    rw [Multiset.coe_nil, Multiset.add_zero]
    exact h
  | step _ hstep ih =>
    rw [← Multiset.coe_add, ← Multiset.add_assoc]
    exact ih.step hstep

theorem invariant_start (eventsFile history : List UInt8) (loaded : List Event) :
    (Server.start Q eventsFile history loaded).Invariant loaded
      (Server.start Q eventsFile history loaded) := by
  refine ⟨⟨[], (List.append_nil _).symm, ?_⟩, fun _ => ⟨rfl, .inr rfl⟩⟩
  show _ = Q.items (Q.pushAll Q.empty loaded) + (([] : List Event) : Multiset Event) + _
  rw [PriorityQueue.items_pushAll, Q.items_empty]
  simp

/-- No event is lost and none doubled: what arrived is in the queue, in `old_` or in the history
file.  While `make_snapshot_` is false everything is on disk: `old_` is empty and the events
file holds the queue. -/
structure Server.Accounted (history : List UInt8) (arrived : Multiset Event) (s : Server Q) :
    Prop where
  conserved : ∃ saved : List Event, s.history = history ++ saved.flatMap (Event.record libc) ∧
    arrived = Q.items s.events + s.old + saved
  onDisk : s.makeSnapshot = false → s.old = [] ∧ Holds libc s.eventsFile (Q.items s.events)

section
variable {eventsFile history : List UInt8} {loaded received : List Event} {s : Server Q}

theorem items_start : Q.items (Server.start Q eventsFile history loaded).events = loaded := by
  show Q.items (Q.pushAll Q.empty loaded) = _
  rw [PriorityQueue.items_pushAll, Q.items_empty, Multiset.zero_add]

/-- A server that has changed since `Start` accounts for its events, and so does the one that
`Start` leaves if the file holds what was loaded from it. -/
theorem accounted_of_ne (h : Run (Server.start Q eventsFile history loaded) received s)
    (hfile : s ≠ Server.start Q eventsFile history loaded ∨ Holds libc eventsFile loaded) :
    s.Accounted history (loaded + received) := by
  obtain ⟨hconserved, hdisk⟩ := (invariant_start eventsFile history loaded).run h
  refine ⟨hconserved, fun hflag => ?_⟩
  obtain ⟨hold, hholds⟩ := hdisk hflag
  refine ⟨hold, ?_⟩
  rcases hholds with hholds | hsame
  · exact hholds
  · rcases hfile with hne | hfile
    · exact absurd hsame hne
    · rw [hsame, items_start]
      exact hfile

theorem readEventsFrom_nil : ReadEventsFrom libc [] (.ok []) := @read_records libc [] []

/-- What is read from the empty file it holds. -/
theorem holds_empty (hread : ReadEventsFrom libc [] (.ok loaded)) : Holds libc [] loaded := by
  have hnil : loaded = [] := Except.ok.inj (Returns.unique hread readEventsFrom_nil)
  exact ⟨[], rfl, by rw [hnil]⟩

/-- What is read from any other file is never what the file holds. -/
theorem eventsFile_eq_nil (hread : ReadEventsFrom libc eventsFile (.ok loaded))
    (hholds : Holds libc eventsFile loaded) : eventsFile = [] := by
  obtain ⟨es, rfl, hes⟩ := hholds
  have hback := Returns.unique (@read_records libc es []) hread
  cases hm : es.mapM (Event.restored libc) with
  | error x =>
    rw [hm] at hback
    cases hback
  | ok r =>
    rw [hm] at hback
    cases hback
    obtain ⟨hzero, hnone⟩ := mapM_restored hm
    cases es with
    | nil => rfl
    | cons e es =>
      have hmem : e ∈ [] ++ r := by
        rw [← Multiset.mem_coe, ← hes, Multiset.mem_coe]
        exact List.mem_cons_self
      exact absurd (hzero e List.mem_cons_self) (hnone e hmem)

/-- **In every state of every run the events are accounted for exactly if the events file is
empty when `Start` reads it.** -/
theorem server_invariant_iff (history : List UInt8)
    (hread : ReadEventsFrom libc eventsFile (.ok loaded)) :
    (∀ received s, Run (Server.start Q eventsFile history loaded) received s →
      s.Accounted history (loaded + received)) ↔ eventsFile = [] := by
  constructor
  · intro h
    have hstart := (h [] _ .start).onDisk rfl
    rw [items_start] at hstart
    exact eventsFile_eq_nil hread hstart.2
  · rintro rfl received s hrun
    exact accounted_of_ne hrun (.inr (holds_empty hread))

end

end

/-- The queue of a host in UTC. -/
def utcQueue : PriorityQueue Event (Event.SoonerCmp .utc) :=
  PriorityQueue.ofRank fun e : Event => (e.getUnixTimestamp .utc).toNat

/-- The event of the tests arrives. -/
theorem listen_hiYou (s : Server utcQueue) :
    fromBuffer .utc (hiYou.record .utc) kMaxUDPSize = .ok [hiYou] ∧
      s.listen (hiYou.record .utc) =
        .ok { s with events := utcQueue.push s.events hiYou, makeSnapshot := true } := by
  have hread : fromBuffer .utc (hiYou.record .utc) kMaxUDPSize = .ok [hiYou] := by decide +kernel
  refine ⟨hread, ?_⟩
  unfold Server.listen
  rw [hread]
  rfl

/-- A second after it is due, `Tick` takes it out of the queue. -/
theorem tick_hiYou (makeSnapshot : Bool) (eventsFile history : List UInt8) :
    Server.Tick (.ok hiYou) 1609502401000000000
      { events := utcQueue.push utcQueue.empty hiYou, makeSnapshot, eventsFile, history }
      (.ok { events := utcQueue.empty, old := [hiYou], makeSnapshot := true, eventsFile,
             history }) := by
  have hpoint : (topOr (.ok hiYou) (utcQueue.push utcQueue.empty hiYou) >>= Event.timePoint .utc) =
      .ok 1609502400000000000 := by decide +kernel
  have hsize : utcQueue.size (utcQueue.push utcQueue.empty hiYou) ≠ 0 := by decide
  unfold Server.Tick
  rw [if_neg hsize, hpoint]
  refine ⟨_, ⟨2, rfl⟩, ?_⟩
  cases makeSnapshot <;> rfl

theorem saveCurrentEvents_empty : saveCurrentEvents .utc utcQueue utcQueue.empty = [] := by
  rw [saveCurrentEvents, PriorityQueue.drain_none rfl]
  rfl

/-- An event with a zero byte in its message, and what comes back of it. -/
def zeroHi : Event := ⟨hiYou.tm, ⟨[104, 0, 105], by decide⟩⟩

def cutHi : Event := ⟨hiYou.tm, ⟨[104], by decide⟩⟩

theorem read_zeroHi : ReadEventsFrom .utc (zeroHi.record .utc) (.ok [cutHi]) := by
  have hread := @read_records .utc [zeroHi] []
  have hback : [zeroHi].mapM (Event.restored .utc) = .ok [cutHi] := by decide +kernel
  rw [hback, List.flatMap_singleton] at hread
  exact hread

theorem server_invariant_iff_zeroHi :
    (∀ received s, Run (Server.start utcQueue (zeroHi.record .utc) [] [cutHi]) received s →
      s.Accounted [] (([cutHi] : List Event) + received)) ↔ zeroHi.record .utc = [] :=
  server_invariant_iff [] read_zeroHi

/-- The events file has the message with the zero byte, the queue has it without. -/
theorem zeroHi_not_accounted : ReadEventsFrom .utc (zeroHi.record .utc) (.ok [cutHi]) ∧
    ∃ s, Run (Server.start utcQueue (zeroHi.record .utc) [] [cutHi]) [] s ∧
      ¬ s.Accounted [] (([cutHi] : List Event) + ([] : List Event) : Multiset Event) := by
  refine ⟨read_zeroHi, _, .start, fun h => ?_⟩
  have hdisk := h.onDisk rfl
  rw [items_start] at hdisk
  exact absurd (eventsFile_eq_nil read_zeroHi hdisk.2) (by decide)

end Psycal
