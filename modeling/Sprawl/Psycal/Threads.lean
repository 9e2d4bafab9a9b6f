import Sprawl.Psycal.Durable

/-!
# The threads of the server

`listen_fn`, `Tick` and `Snapshot` run in three threads over one mutex and one condition
variable.  Here they move statement by statement: a thread waits for `lock_`, goes through
its section, and leaves; `Snapshot` also lets go of `lock_` in `wait`, and sleeps there until
it is notified, or wakes for no reason.

    whenever the lock is free, the server is one the whole sections reach    (run_of_free)

No wakeup is lost (`Threads.Invariant.notified`): while `Snapshot` sleeps and the lock is
free, everything is on disk (`at_rest`), and with nothing else to do it always gets there
(`reaches_rest`).
-/

namespace Psycal

open Cxx Loop Net

inductive Thread
  | listener | ticker | snapshotter
deriving DecidableEq, Repr

/-- The statement in front of which the thread is that has `lock_`. -/
inductive Inside
  | free
  | pushing (bf : List UInt8)
  | popping
  /-- `make_snapshot_ = true`, of `listen_fn` or of `Tick`. -/
  | flagging (thread : Thread)
  /-- `snapshot_cv_.notify_one()`. -/
  | notifying (thread : Thread)
  /-- The predicate of `snapshot_cv_.wait`. -/
  | checking
  | savingCurrent
  | savingOld
  /-- `std::vector<Event>().swap(old_)`. -/
  | swapping
  /-- `make_snapshot_ = false`. -/
  | clearing
  /-- The end of the scope of the guard. -/
  | leaving (thread : Thread)
deriving DecidableEq, Repr

def Inside.holder : Inside → Option Thread
  | free => none
  | pushing _ => some .listener
  | popping => some .ticker
  | flagging thread | notifying thread | leaving thread => some thread
  | checking | savingCurrent | savingOld | swapping | clearing => some .snapshotter

section
variable {libc : Libc} {Q : PriorityQueue Event (Event.SoonerCmp libc)}

/-- `bf` is the datagram with which `listen_fn` stands in front of `lock_`, `asleep` says that
`Snapshot` sleeps in `wait`. -/
structure Threads (Q : PriorityQueue Event (Event.SoonerCmp libc)) where
  server : Server Q
  inside : Inside := .free
  bf : Option (List UInt8) := none
  asleep : Bool := false

/-- One statement of one thread, and the events that arrive there. -/
inductive Threads.Statement : Threads Q → List Event → Threads Q → Prop
  | receive {T : Threads Q} (bf : List UInt8) :
      T.bf = none → T.inside.holder ≠ some .listener → Statement T [] { T with bf := some bf }
  | lockListener {T : Threads Q} {bf : List UInt8} :
      T.inside = .free → T.bf = some bf →
        Statement T [] { T with inside := .pushing bf, bf := none }
  | push {T : Threads Q} {bf : List UInt8} {received : List Event} :
      T.inside = .pushing bf → fromBuffer libc bf kMaxUDPSize = .ok received →
      Statement T received
        { T with
          server := { T.server with events := Q.pushAll T.server.events received }
          inside := .flagging .listener }
  | lockTicker {T : Threads Q} : T.inside = .free → Statement T [] { T with inside := .popping }
  | popNone {T : Threads Q} : T.inside = .popping → Q.size T.server.events = 0 →
      Statement T [] { T with inside := .leaving .ticker }
  | pop {T : Threads Q} (emptyTop : Except Stop Event) (now : Int64) {eventTimepoint : Int}
      {t : TickState Q} :
      T.inside = .popping → Q.size T.server.events ≠ 0 →
      topOr emptyTop T.server.events >>= Event.timePoint libc = .ok eventTimepoint →
      Returns (tickBody emptyTop now)
        { events := T.server.events, old := T.server.old, eventTimepoint } (.ok t) →
      Statement T []
        { T with
          server := { T.server with events := t.events, old := t.old }
          inside := if t.poppedEvent then .flagging .ticker else .leaving .ticker }
  | flag {T : Threads Q} {thread : Thread} : T.inside = .flagging thread →
      Statement T []
        { T with server := { T.server with makeSnapshot := true }, inside := .notifying thread }
  | notify {T : Threads Q} {thread : Thread} : T.inside = .notifying thread →
      Statement T [] { T with inside := .leaving thread, asleep := false }
  | leave {T : Threads Q} {thread : Thread} : T.inside = .leaving thread →
      Statement T [] { T with inside := .free }
  | lockSnapshotter {T : Threads Q} : T.inside = .free → T.asleep = false →
      Statement T [] { T with inside := .checking }
  | wait {T : Threads Q} : T.inside = .checking → T.server.makeSnapshot = false →
      Statement T [] { T with inside := .free, asleep := true }
  | wake {T : Threads Q} : T.asleep = true → Statement T [] { T with asleep := false }
  | pass {T : Threads Q} : T.inside = .checking → T.server.makeSnapshot = true →
      Statement T [] { T with inside := .savingCurrent }
  | saveCurrent {T : Threads Q} : T.inside = .savingCurrent →
      Statement T []
        { T with
          server := { T.server with eventsFile := saveCurrentEvents libc Q T.server.events }
          inside := .savingOld }
  | saveOld {T : Threads Q} : T.inside = .savingOld →
      Statement T []
        { T with
          server := { T.server with history := saveOld libc T.server.history T.server.old }
          inside := .swapping }
  | swap {T : Threads Q} : T.inside = .swapping →
      Statement T [] { T with server := { T.server with old := [] }, inside := .clearing }
  | clear {T : Threads Q} : T.inside = .clearing →
      Statement T []
        { T with
          server := { T.server with makeSnapshot := false }
          inside := .leaving .snapshotter }

/-- Any number of statements, and all events that arrive on the way. -/
inductive Threads.Execution (s₀ : Server Q) : List Event → Threads Q → Prop
  | start : Execution s₀ [] { server := s₀ }
  | step {T T' : Threads Q} {received new : List Event} :
      Execution s₀ received T → T.Statement new T' → Execution s₀ (received ++ new) T'

/-! ## The sections -/

/-- Inside a section the server is on the way from one that whole sections reach to another. -/
def Threads.Consistent (s₀ : Server Q) (received : List Event) (T : Threads Q) : Prop :=
  match T.inside with
  | .free | .pushing _ | .popping | .checking | .leaving _ => Run s₀ received T.server
  | .flagging _ => Run s₀ received { T.server with makeSnapshot := true }
  | .notifying _ | .savingCurrent => Run s₀ received T.server ∧ T.server.makeSnapshot = true
  | .savingOld => ∃ s, Run s₀ received s ∧ s.makeSnapshot = true ∧
      T.server = { s with eventsFile := saveCurrentEvents libc Q s.events }
  | .swapping => ∃ s, Run s₀ received s ∧ s.makeSnapshot = true ∧
      T.server = { s.snapshot with old := s.old, makeSnapshot := true }
  | .clearing => ∃ s, Run s₀ received s ∧ s.makeSnapshot = true ∧
      T.server = { s.snapshot with makeSnapshot := true }

structure Threads.Invariant (s₀ : Server Q) (received : List Event) (T : Threads Q) : Prop where
  consistent : T.Consistent s₀ received
  /-- A flag raised while `Snapshot` sleeps is about to be notified. -/
  notified : T.asleep = true → T.server.makeSnapshot = true → ∃ thread, T.inside = .notifying thread
  awake : T.inside.holder = some .snapshotter → T.asleep = false

section
variable {s₀ : Server Q} {received : List Event} {T : Threads Q}

theorem Run.silent {s s' : Server Q} (h : Run s₀ received s) (hstep : Step s [] s') :
    Run s₀ received s' := by
  have := h.step hstep
  rwa [List.append_nil] at this

theorem Threads.Execution.silent {T' : Threads Q} (h : T.Execution s₀ received)
    (hstep : T.Statement [] T') : T'.Execution s₀ received := by
  have := h.step hstep
  rwa [List.append_nil] at this

/-- What `Tick` has popped without its flag set yet. -/
theorem consistent_pop (h : Run s₀ received T.server) {emptyTop : Except Stop Event} {now : Int64}
    {eventTimepoint : Int} {t : TickState Q} (hsize : Q.size T.server.events ≠ 0)
    (htop : topOr emptyTop T.server.events >>= Event.timePoint libc = .ok eventTimepoint)
    (hloop : Returns (tickBody emptyTop now)
      { events := T.server.events, old := T.server.old, eventTimepoint } (.ok t)) :
    Run s₀ received (T.server.afterTick t) := by
  refine h.silent (.tick emptyTop now ?_)
  unfold Server.Tick
  rw [if_neg hsize, htop]
  exact ⟨.ok t, hloop, rfl⟩

/-- **A statement keeps the invariant.** -/
theorem Threads.Invariant.step {T' : Threads Q} {new : List Event} (h : T.Invariant s₀ received)
    (hstep : T.Statement new T') : T'.Invariant s₀ (received ++ new) := by
  obtain ⟨hcons, hnot, hawake⟩ := h
  unfold Threads.Consistent at hcons
  -- in front of any other statement than `notify_one` the flag is down while `Snapshot` sleeps
  have hdown : (∀ thread, T.inside ≠ .notifying thread) → T.asleep = true →
      T.server.makeSnapshot ≠ true := by
    intro hne ha hm
    obtain ⟨thread, heq⟩ := hnot ha hm
    exact hne thread heq
  cases hstep with
  | push hinside hread =>
    rw [hinside] at hcons
    refine ⟨hcons.step (.listen hread ?_), fun ha hm => ?_, nofun⟩
    · unfold Server.listen
      rw [hread]
    · exact absurd hm (hdown (by rw [hinside]; nofun) ha)
  | receive bf hbf hholder =>
    rw [List.append_nil]
    exact ⟨hcons, hnot, hawake⟩
  | lockListener hinside hbf =>
    rw [List.append_nil]
    rw [hinside] at hcons
    exact ⟨hcons, fun ha hm => absurd hm (hdown (by rw [hinside]; nofun) ha), nofun⟩
  | lockTicker hinside =>
    rw [List.append_nil]
    rw [hinside] at hcons
    exact ⟨hcons, fun ha hm => absurd hm (hdown (by rw [hinside]; nofun) ha), nofun⟩
  | popNone hinside hsize =>
    rw [List.append_nil]
    rw [hinside] at hcons
    exact ⟨hcons, fun ha hm => absurd hm (hdown (by rw [hinside]; nofun) ha), nofun⟩
  | @pop emptyTop now eventTimepoint t hinside hsize htop hloop =>
    rw [List.append_nil]
    rw [hinside] at hcons
    have hrun := consistent_pop hcons hsize htop hloop
    refine ⟨?_, fun ha hm => absurd hm (hdown (by rw [hinside]; nofun) ha), fun hh => ?_⟩
    · unfold Server.afterTick at hrun
      unfold Threads.Consistent
      cases hp : t.poppedEvent with
      | true =>
        rw [hp, Bool.or_true] at hrun
        exact hrun
      | false =>
        rw [hp, Bool.or_false] at hrun
        exact hrun
    · cases hp : t.poppedEvent <;> rw [hp] at hh <;> cases hh
  | flag hinside =>
    rw [List.append_nil]
    rw [hinside] at hcons
    refine ⟨⟨hcons, rfl⟩, fun _ _ => ⟨_, rfl⟩, fun hh => hawake ?_⟩
    rw [hinside]
    exact hh
  | notify hinside =>
    rw [List.append_nil]
    rw [hinside] at hcons
    exact ⟨hcons.1, nofun, fun _ => rfl⟩
  | leave hinside =>
    rw [List.append_nil]
    rw [hinside] at hcons
    exact ⟨hcons, fun ha hm => absurd hm (hdown (by rw [hinside]; nofun) ha), nofun⟩
  | lockSnapshotter hinside ha =>
    rw [List.append_nil]
    rw [hinside] at hcons
    exact ⟨hcons, fun ha' _ => (by rw [ha] at ha'; cases ha'), fun _ => ha⟩
  | wait hinside hm =>
    rw [List.append_nil]
    rw [hinside] at hcons
    exact ⟨hcons, fun _ hm' => (by rw [hm] at hm'; cases hm'), nofun⟩
  | wake ha =>
    rw [List.append_nil]
    exact ⟨hcons, nofun, fun _ => rfl⟩
  | pass hinside hm =>
    rw [List.append_nil]
    rw [hinside] at hcons hawake
    have ha := hawake rfl
    exact ⟨⟨hcons, hm⟩, fun ha' _ => (by rw [ha] at ha'; cases ha'), fun _ => ha⟩
  | saveCurrent hinside =>
    rw [List.append_nil]
    rw [hinside] at hcons hawake
    have ha := hawake rfl
    exact ⟨⟨T.server, hcons.1, hcons.2, rfl⟩, fun ha' _ => (by rw [ha] at ha'; cases ha'),
      fun _ => ha⟩
  | saveOld hinside =>
    rw [List.append_nil]
    rw [hinside] at hcons hawake
    have ha := hawake rfl
    obtain ⟨s, hrun, hm, heq⟩ := hcons
    refine ⟨⟨s, hrun, hm, ?_⟩, fun ha' _ => (by rw [ha] at ha'; cases ha'), fun _ => ha⟩
    show { T.server with history := Psycal.saveOld libc T.server.history T.server.old } = _
    rw [heq]
    unfold Server.snapshot
    simp only [hm]
  | swap hinside =>
    rw [List.append_nil]
    rw [hinside] at hcons hawake
    have ha := hawake rfl
    obtain ⟨s, hrun, hm, heq⟩ := hcons
    refine ⟨⟨s, hrun, hm, ?_⟩, fun ha' _ => (by rw [ha] at ha'; cases ha'), fun _ => ha⟩
    show { T.server with old := [] } = _
    rw [heq]
    rfl
  | clear hinside =>
    rw [List.append_nil]
    rw [hinside] at hcons hawake
    have ha := hawake rfl
    obtain ⟨s, hrun, hm, heq⟩ := hcons
    refine ⟨?_, fun ha' _ => (by rw [ha] at ha'; cases ha'), fun _ => ha⟩
    show Run s₀ received { T.server with makeSnapshot := false }
    have hsnapshot : { T.server with makeSnapshot := false } = s.snapshot := by
      rw [heq]
      rfl
    rw [hsnapshot]
    exact hrun.silent (.snapshot hm)

theorem Threads.Execution.invariant (h : T.Execution s₀ received) : T.Invariant s₀ received := by
  induction h with
  | start => exact ⟨.start, nofun, nofun⟩
  | step _ hstep ih => exact ih.step hstep

/-- **Whenever the lock is free, whole sections have brought the server where it is.** -/
theorem run_of_free (h : T.Execution s₀ received) (hfree : T.inside = .free) :
    Run s₀ received T.server := by
  have hcons := h.invariant.consistent
  unfold Threads.Consistent at hcons
  rwa [hfree] at hcons

/-- While `Snapshot` sleeps and nobody has the lock, the flag is down. -/
theorem run_of_asleep (h : T.Execution s₀ received) (hfree : T.inside = .free)
    (hasleep : T.asleep = true) : Run s₀ received T.server ∧ T.server.makeSnapshot = false := by
  have hinv := h.invariant
  have hcons := hinv.consistent
  unfold Threads.Consistent at hcons
  rw [hfree] at hcons
  refine ⟨hcons, ?_⟩
  rw [← Bool.not_eq_true]
  intro hm
  obtain ⟨thread, heq⟩ := hinv.notified hasleep hm
  rw [hfree] at heq
  cases heq

/-- Everything is on disk: `old_` is empty, the history has grown by what was popped, and the
events file holds the queue as soon as an event has been received or saved (or if it was empty
when `Start` read it). -/
def Server.Settled (eventsFile history : List UInt8) (loaded received : List Event)
    (s : Server Q) : Prop :=
  s.old = [] ∧
    ∃ saved : List Event, s.history = history ++ saved.flatMap (Event.record libc) ∧
      (loaded : Multiset Event) + received = Q.items s.events + saved ∧
      (received ≠ [] ∨ saved ≠ [] ∨ eventsFile = [] → Holds libc s.eventsFile (Q.items s.events))

section
variable {eventsFile history : List UInt8} {loaded received : List Event}

/-- Behind an event that was received or saved the server is not the one `Start` left. -/
theorem ne_start {s : Server Q} {saved : List Event}
    (hhistory : s.history = history ++ saved.flatMap (Event.record libc))
    (hsum : (loaded : Multiset Event) + received = Q.items s.events + saved)
    (hsome : received ≠ [] ∨ saved ≠ []) : s ≠ Server.start Q eventsFile history loaded := by
  rintro rfl
  have hnone : saved = [] := by
    have hrecords : saved.flatMap (Event.record libc) = [] :=
      List.append_cancel_left (hhistory.symm.trans (List.append_nil _).symm)
    have hcontent := (@records_inj libc saved []).1 hrecords
    exact List.map_eq_nil_iff.1 hcontent
  rw [items_start, hnone, Multiset.coe_nil, add_right_inj, Multiset.coe_eq_zero] at hsum
  rcases hsome with hreceived | hsaved
  · exact hreceived hsum
  · exact hsaved hnone

/-- With the flag down, what was loaded and received is on disk. -/
theorem Run.settled {s : Server Q} (hload : ReadEventsFrom libc eventsFile (.ok loaded))
    (hrun : Run (Server.start Q eventsFile history loaded) received s)
    (hdown : s.makeSnapshot = false) : s.Settled eventsFile history loaded received := by
  obtain ⟨⟨saved, hhistory, hsum⟩, hdisk⟩ :=
    (invariant_start eventsFile history loaded).run hrun
  obtain ⟨hold, -⟩ := hdisk hdown
  rw [hold, Multiset.coe_nil, Multiset.add_zero] at hsum
  refine ⟨hold, saved, hhistory, hsum, fun hsome => ?_⟩
  have hchanged : s ≠ Server.start Q eventsFile history loaded ∨ Holds libc eventsFile loaded := by
    rcases hsome with hreceived | hsaved | rfl
    · exact .inl (ne_start hhistory hsum (.inl hreceived))
    · exact .inl (ne_start hhistory hsum (.inr hsaved))
    · exact .inr (holds_empty hload)
  exact ((accounted_of_ne hrun hchanged).onDisk hdown).2

/-- **No wakeup is lost**: while `Snapshot` sleeps and nobody has the lock, everything is on
disk. -/
theorem at_rest {T : Threads Q} (hload : ReadEventsFrom libc eventsFile (.ok loaded))
    (h : T.Execution (Server.start Q eventsFile history loaded) received)
    (hfree : T.inside = .free) (hasleep : T.asleep = true) :
    T.server.Settled eventsFile history loaded received := by
  obtain ⟨hrun, hdown⟩ := run_of_asleep h hfree hasleep
  exact hrun.settled hload hdown

end

/-! ## Coming to rest -/

/-- Statements with which nothing arrives. -/
def Threads.Silent : Threads Q → Threads Q → Prop :=
  Relation.ReflTransGen fun T T' => T.Statement [] T' ∧ T'.bf = T.bf

theorem Threads.Silent.head {T' T'' : Threads Q} (h : T.Statement [] T') (hbf : T'.bf = T.bf)
    (h' : T'.Silent T'') : T.Silent T'' := Relation.ReflTransGen.head ⟨h, hbf⟩ h'

theorem Threads.Silent.bf_eq {T' : Threads Q} (h : T.Silent T') : T'.bf = T.bf := by
  induction h with
  | refl => rfl
  | tail _ hstep ih => rw [hstep.2, ih]

theorem Threads.Execution.silently {T' : Threads Q} (h : T.Execution s₀ received)
    (hsilent : T.Silent T') : T'.Execution s₀ received := by
  induction hsilent with
  | refl => exact h
  | tail _ hstep ih => exact ih.silent hstep.1

/-- `Snapshot` can go to sleep with nothing arriving and nothing popped before. -/
def Threads.Rests (T : Threads Q) : Prop :=
  ∃ T' : Threads Q, T.Silent T' ∧ T'.inside = .free ∧ T'.asleep = true ∧
    T'.server.events = T.server.events

theorem Threads.Rests.head {T' : Threads Q} (h : T'.Rests) (hstep : T.Statement [] T')
    (hbf : T'.bf = T.bf) (hevents : T'.server.events = T.server.events) : T.Rests := by
  obtain ⟨T'', hsilent, hfree, hasleep, heq⟩ := h
  exact ⟨T'', hsilent.head hstep hbf, hfree, hasleep, heq.trans hevents⟩

/-- `Snapshot` finds the flag down. -/
theorem rests_of_down (hinside : T.inside = .free) (hm : T.server.makeSnapshot = false)
    (ha : T.asleep = false) : T.Rests := by
  refine ⟨{ T with inside := .free, asleep := true }, ?_, rfl, rfl, rfl⟩
  have hwait : Threads.Silent { T with inside := .checking }
      { T with inside := .free, asleep := true } := .single ⟨.wait rfl hm, rfl⟩
  exact hwait.head (.lockSnapshotter hinside ha) rfl

theorem rests_of_clearing (hinside : T.inside = .clearing) (ha : T.asleep = false) : T.Rests := by
  have hrest := rests_of_down (T := { T with
    server := { T.server with makeSnapshot := false }, inside := .free }) rfl rfl ha
  have hleave := hrest.head (T := { T with
    server := { T.server with makeSnapshot := false }
    inside := .leaving .snapshotter }) (.leave rfl) rfl rfl
  exact hleave.head (.clear hinside) rfl rfl

theorem rests_of_swapping (hinside : T.inside = .swapping) (ha : T.asleep = false) : T.Rests := by
  have hrest := rests_of_clearing
    (T := { T with server := { T.server with old := [] }, inside := .clearing }) rfl ha
  exact hrest.head (.swap hinside) rfl rfl

theorem rests_of_savingOld (hinside : T.inside = .savingOld) (ha : T.asleep = false) :
    T.Rests := by
  have hrest := rests_of_swapping (T := { T with
    server := { T.server with history := saveOld libc T.server.history T.server.old }
    inside := .swapping }) rfl ha
  exact hrest.head (.saveOld hinside) rfl rfl

theorem rests_of_savingCurrent (hinside : T.inside = .savingCurrent) (ha : T.asleep = false) :
    T.Rests := by
  have hrest := rests_of_savingOld (T := { T with
    server := { T.server with eventsFile := saveCurrentEvents libc Q T.server.events }
    inside := .savingOld }) rfl ha
  exact hrest.head (.saveCurrent hinside) rfl rfl

theorem rests_of_checking (hinside : T.inside = .checking) (ha : T.asleep = false) : T.Rests := by
  cases hm : T.server.makeSnapshot with
  | true =>
    have hrest := rests_of_savingCurrent (T := { T with inside := .savingCurrent }) rfl ha
    exact hrest.head (.pass hinside hm) rfl rfl
  | false => exact ⟨_, .single ⟨.wait hinside hm, rfl⟩, rfl, rfl, rfl⟩

theorem rests_of_free (hinside : T.inside = .free) : T.Rests := by
  cases ha : T.asleep with
  | true => exact ⟨T, .refl, hinside, ha, rfl⟩
  | false =>
    have hrest := rests_of_checking (T := { T with inside := .checking }) rfl ha
    exact hrest.head (.lockSnapshotter hinside ha) rfl rfl

theorem rests_of_leaving {thread : Thread} (hinside : T.inside = .leaving thread) : T.Rests := by
  have hrest := rests_of_free (T := { T with inside := .free }) rfl
  exact hrest.head (.leave hinside) rfl rfl

theorem rests_of_notifying {thread : Thread} (hinside : T.inside = .notifying thread) :
    T.Rests := by
  have hrest := rests_of_leaving
    (T := { T with inside := .leaving thread, asleep := false }) rfl
  exact hrest.head (.notify hinside) rfl rfl

theorem rests_of_flagging {thread : Thread} (hinside : T.inside = .flagging thread) :
    T.Rests := by
  have hrest := rests_of_notifying (T := { T with
    server := { T.server with makeSnapshot := true }, inside := .notifying thread }) rfl
  exact hrest.head (.flag hinside) rfl rfl

/-- Wherever the threads are, apart from a datagram being read and events being popped. -/
theorem Threads.Invariant.rests (h : T.Invariant s₀ received)
    (hpush : ∀ bf, T.inside ≠ .pushing bf) (hpop : T.inside ≠ .popping) : T.Rests := by
  have hawake := h.awake
  cases hinside : T.inside with
  | free => exact rests_of_free hinside
  | pushing bf => exact absurd hinside (hpush bf)
  | popping => exact absurd hinside hpop
  | flagging thread => exact rests_of_flagging hinside
  | notifying thread => exact rests_of_notifying hinside
  | leaving thread => exact rests_of_leaving hinside
  | checking => exact rests_of_checking hinside (hawake (by rw [hinside]; rfl))
  | savingCurrent => exact rests_of_savingCurrent hinside (hawake (by rw [hinside]; rfl))
  | savingOld => exact rests_of_savingOld hinside (hawake (by rw [hinside]; rfl))
  | swapping => exact rests_of_swapping hinside (hawake (by rw [hinside]; rfl))
  | clearing => exact rests_of_clearing hinside (hawake (by rw [hinside]; rfl))

end
end

/-! ## The event of the tests -/

/-- It has arrived, and `Snapshot` sleeps again. -/
def restHiYou : Threads utcQueue := { server := receivedHiYou.snapshot, asleep := true }

/-- `listen_fn` is about to set the flag. -/
def flagHiYou : Threads utcQueue :=
  { server := { receivedHiYou with makeSnapshot := false }, inside := .flagging .listener }

theorem execution_flag : flagHiYou.Execution (Server.start utcQueue [] [] []) [hiYou] := by
  have hread := (listen_hiYou (Server.start utcQueue [] [] [])).1
  have hstart := @Threads.Execution.start _ _ (Server.start utcQueue [] [] [])
  have hreceive := hstart.silent (.receive (hiYou.record .utc) rfl nofun)
  exact (hreceive.silent (.lockListener rfl rfl)).step (.push rfl hread)

theorem execution_rest : restHiYou.Execution (Server.start utcQueue [] [] []) [hiYou] := by
  have hleave := ((execution_flag.silent (.flag rfl)).silent (.notify rfl)).silent (.leave rfl)
  have hpass := (hleave.silent (.lockSnapshotter rfl rfl)).silent (.pass rfl rfl)
  have hsave := (hpass.silent (.saveCurrent rfl)).silent (.saveOld rfl)
  have hclear := ((hsave.silent (.swap rfl)).silent (.clear rfl)).silent (.leave rfl)
  exact (hclear.silent (.lockSnapshotter rfl rfl)).silent (.wait rfl rfl)

theorem run_of_free_hiYou :
    Run (Server.start utcQueue [] [] []) [hiYou] receivedHiYou.snapshot :=
  run_of_free execution_rest rfl

theorem at_rest_hiYou : receivedHiYou.snapshot.Settled [] [] [] [hiYou] :=
  at_rest readEventsFrom_nil execution_rest rfl rfl

end Psycal
