import Sprawl.Psycal.Server

/-!
# Stopping and starting again

The server with its process: it may stop at any time, also between the two writes of
`Snapshot`, and another one is started on the files it left (`System.Step`).  Nothing
else happens between the two writes, since `Snapshot` holds the lock.

An event on disk stays there, except in two ways.  `Snapshot` writes the queue first, so
an event of `old_` is in neither file until the history is written too; and what `Start`
reads back is not what was saved (`restored_ne`), so the first snapshot of the new
process overwrites events that it does not have.  `durable` says that nothing else goes
wrong: in a run without these steps (`Keeps`) what is on disk after a snapshot is on disk
after every later start.
-/

namespace Psycal

open Cxx Loop Net LittleEndian

variable (libc : Libc)

/-! ## Events on disk and in memory -/

/-- The file is a sequence of records, one of them of this event. -/
def OnRecord (e : Event) (file : List UInt8) : Prop :=
  ∃ es : List Event, file = es.flatMap (Event.record libc) ∧
    e.content libc ∈ es.map (Event.content libc)

/-- An event with this content is among the events. -/
def Event.Among (e : Event) (es : Multiset Event) : Prop :=
  e.content libc ∈ es.map (Event.content libc)

section
variable {libc : Libc} (Q : PriorityQueue Event (Event.SoonerCmp libc))

/-- The server of the running process. -/
structure System where
  server : Server Q
  /-- No snapshot so far: the events file is the one that was loaded. -/
  asLoaded : Bool

variable {Q}

/-- The event is in one of the two files. -/
def System.OnDisk (σ : System Q) (e : Event) : Prop :=
  OnRecord libc e σ.server.eventsFile ∨ OnRecord libc e σ.server.history

/-- The event is in the queue or in the history file. -/
def System.Secure (σ : System Q) (e : Event) : Prop :=
  e.Among libc (Q.items σ.server.events) ∨ OnRecord libc e σ.server.history

inductive Action
  | receive
  | tick
  | snapshot
  | restart
  /-- A stop between `SaveCurrentEvents` and `SaveOld`. -/
  | restartBetween
deriving DecidableEq

/-- A process is started on these files. -/
inductive Starts (eventsFile history : List UInt8) : System Q → Prop
  | start {loaded : List Event} : ReadEventsFrom libc eventsFile (.ok loaded) →
      Starts eventsFile history ⟨Server.start Q eventsFile history loaded, true⟩

inductive System.Step : Action → System Q → System Q → Prop
  | receive {s s' : Server Q} {asLoaded : Bool} {bf : List UInt8} :
      s.listen bf = .ok s' → Step .receive ⟨s, asLoaded⟩ ⟨s', asLoaded⟩
  | tick {s s' : Server Q} {asLoaded : Bool} (emptyTop : Except Stop Event) (now : Int64) :
      s.Tick emptyTop now (.ok s') → Step .tick ⟨s, asLoaded⟩ ⟨s', asLoaded⟩
  | snapshot {s : Server Q} {asLoaded : Bool} :
      s.makeSnapshot = true → Step .snapshot ⟨s, asLoaded⟩ ⟨s.snapshot, false⟩
  | restart {s : Server Q} {asLoaded : Bool} {τ : System Q} :
      Starts s.eventsFile s.history τ → Step .restart ⟨s, asLoaded⟩ τ
  | restartBetween {s : Server Q} {asLoaded : Bool} {τ : System Q} :
      s.makeSnapshot = true → Starts (saveCurrentEvents libc Q s.events) s.history τ →
      Step .restartBetween ⟨s, asLoaded⟩ τ

/-- A step that loses nothing.  The first snapshot of a process has in memory what it
overwrites; and where the process stops between the two writes, what stands in the events
file and in `old_` is also in the queue or in the history. -/
def System.Keeps (σ : System Q) : Action → Prop
  | .snapshot => σ.asLoaded = true →
      ∀ e, OnRecord libc e σ.server.eventsFile → e.Among libc σ.server.old ∨ σ.Secure e
  | .restartBetween =>
      (σ.asLoaded = true →
        ∀ e, OnRecord libc e σ.server.eventsFile → e.Among libc σ.server.old ∨ σ.Secure e) ∧
      ∀ e, e.Among libc σ.server.old → OnRecord libc e σ.server.eventsFile → σ.Secure e
  | _ => True

/-- A run whose steps all meet a condition. -/
def System.Run (P : System Q → Action → Prop) : System Q → System Q → Prop :=
  Relation.ReflTransGen fun σ τ => ∃ a, P σ a ∧ System.Step a σ τ

/-- The system is started on two files of records. -/
def System.Initial (σ : System Q) : Prop :=
  ∃ es olds : List Event,
    Starts (es.flatMap (Event.record libc)) (olds.flatMap (Event.record libc)) σ

end

/-! ## Files of records -/

section
variable {libc : Libc}

theorem onRecord_records {e : Event} {es : List Event} :
    OnRecord libc e (es.flatMap (Event.record libc)) ↔ e.Among libc (es : Multiset Event) := by
  unfold OnRecord Event.Among
  rw [Multiset.map_coe, Multiset.mem_coe]
  constructor
  · rintro ⟨es', hfile, hmem⟩
    rw [records_inj.1 hfile]
    exact hmem
  · exact fun hmem => ⟨es, rfl, hmem⟩

theorem among_add {e : Event} {es es' : Multiset Event} :
    e.Among libc (es + es') ↔ e.Among libc es ∨ e.Among libc es' := by
  unfold Event.Among
  rw [Multiset.map_add, Multiset.mem_add]

end

/-! ## What one step keeps -/

section
variable {libc : Libc} {Q : PriorityQueue Event (Event.SoonerCmp libc)}

/-- What a step under the lock does to the files and to what is in memory. -/
theorem listen_spec {s s' : Server Q} {bf : List UInt8} (h : s.listen bf = .ok s') :
    s'.eventsFile = s.eventsFile ∧ s'.history = s.history ∧ s'.old = s.old ∧
      Q.items s.events ≤ Q.items s'.events := by
  unfold Server.listen at h
  split at h
  · cases h
  · cases h
  · cases h
    refine ⟨rfl, rfl, rfl, ?_⟩
    rw [PriorityQueue.items_pushAll]
    exact Multiset.le_add_right _ _

/-- The files are records, and since its first snapshot the process has what is in the
events file in memory or in the history. -/
structure System.Invariant (σ : System Q) : Prop where
  events_records : ∃ es : List Event, σ.server.eventsFile = es.flatMap (Event.record libc)
  history_records : ∃ es : List Event, σ.server.history = es.flatMap (Event.record libc)
  known : σ.asLoaded = false →
    ∀ e, OnRecord libc e σ.server.eventsFile → e.Among libc σ.server.old ∨ σ.Secure e

/-- The events file that `SaveCurrentEvents` writes. -/
theorem saveCurrentEvents_eq (events : Q.Queue) :
    saveCurrentEvents libc Q events = (Q.drain events).flatMap (Event.record libc) :=
  foldl_writeEvent [] _

theorem onRecord_saveCurrentEvents {e : Event} {events : Q.Queue} :
    OnRecord libc e (saveCurrentEvents libc Q events) ↔ e.Among libc (Q.items events) := by
  rw [saveCurrentEvents_eq, onRecord_records, PriorityQueue.coe_drain]

/-- The history that `SaveOld` extends. -/
theorem onRecord_saveOld {e : Event} {history : List UInt8} {old : List Event}
    (hrecords : ∃ es : List Event, history = es.flatMap (Event.record libc)) :
    OnRecord libc e (saveOld libc history old) ↔
      OnRecord libc e history ∨ e.Among libc (old : Multiset Event) := by
  obtain ⟨es, rfl⟩ := hrecords
  rw [saveOld_eq, ← List.flatMap_append, onRecord_records, onRecord_records, ← Multiset.coe_add,
    among_add]

theorem among_of_le {e : Event} {es es' : Multiset Event} (hle : es ≤ es')
    (h : e.Among libc es) : e.Among libc es' :=
  Multiset.mem_of_le (Multiset.map_le_map hle) h

theorem Starts.invariant {σ : System Q} {es olds : List Event}
    (h : Starts (es.flatMap (Event.record libc)) (olds.flatMap (Event.record libc)) σ) :
    σ.Invariant := by
  cases h with
  | start _ => exact ⟨⟨es, rfl⟩, ⟨olds, rfl⟩, fun hfalse => by cases hfalse⟩

/-- A started process has the files it was started on. -/
theorem Starts.files {σ : System Q} {eventsFile history : List UInt8}
    (h : Starts eventsFile history σ) :
    σ.server.eventsFile = eventsFile ∧ σ.server.history = history := by
  cases h with
  | start _ => exact ⟨rfl, rfl⟩

/-- **Every step keeps the invariant.** -/
theorem System.Invariant.step {σ τ : System Q} {a : Action} (h : σ.Invariant)
    (hstep : System.Step a σ τ) : τ.Invariant := by
  obtain ⟨⟨es, hes⟩, ⟨olds, holds⟩, hknown⟩ := h
  cases hstep with
  | @receive s s' asLoaded bf hlisten =>
    obtain ⟨hevents, hhistory, hold, hitems⟩ := listen_spec hlisten
    refine ⟨⟨es, hevents.trans hes⟩, ⟨olds, hhistory.trans holds⟩, fun hfalse e he => ?_⟩
    simp only [hevents] at he
    unfold System.Secure
    simp only [hold, hhistory]
    rcases hknown hfalse e he with hmem | hqueue | hsaved
    · exact .inl hmem
    · exact .inr (.inl (among_of_le hitems hqueue))
    · exact .inr (.inr hsaved)
  | @tick s s' asLoaded emptyTop now htick =>
    obtain ⟨popped, rfl, hitems, -⟩ := tick_spec htick
    refine ⟨⟨es, hes⟩, ⟨olds, holds⟩, fun hfalse e he => ?_⟩
    show e.Among libc ((s.old ++ popped.1 : List Event) : Multiset Event) ∨ _
    rw [← Multiset.coe_add, among_add]
    rcases hknown hfalse e he with hmem | hqueue | hsaved
    · exact .inl (.inl hmem)
    · rw [← hitems, among_add] at hqueue
      rcases hqueue with hpopped | hqueue
      · exact .inl (.inr hpopped)
      · exact .inr (.inl hqueue)
    · exact .inr (.inr hsaved)
  | @snapshot s asLoaded _ =>
    refine ⟨⟨_, saveCurrentEvents_eq s.events⟩, ⟨olds ++ s.old, ?_⟩, fun _ e he => ?_⟩
    · show saveOld libc s.history s.old = _
      rw [saveOld_eq, holds, List.flatMap_append]
    · exact .inr (.inl (onRecord_saveCurrentEvents.1 he))
  | restart hstarts =>
    rw [hes, holds] at hstarts
    exact hstarts.invariant
  | @restartBetween s _ _ _ hstarts =>
    rw [saveCurrentEvents_eq, holds] at hstarts
    exact hstarts.invariant

/-- **A step that keeps what it overwrites loses nothing on disk.** -/
theorem System.OnDisk.step {σ τ : System Q} {a : Action} {e : Event} (hinv : σ.Invariant)
    (hstep : System.Step a σ τ) (hkeeps : σ.Keeps a) (h : σ.OnDisk e) : τ.OnDisk e := by
  have hfiles : τ.server.eventsFile = σ.server.eventsFile →
      τ.server.history = σ.server.history → τ.OnDisk e := by
    intro hevents hhistory
    unfold System.OnDisk
    rw [hevents, hhistory]
    exact h
  cases hstep with
  | receive hlisten =>
    obtain ⟨hevents, hhistory, -, -⟩ := listen_spec hlisten
    exact hfiles hevents hhistory
  | tick emptyTop now htick =>
    obtain ⟨popped, rfl, -, -⟩ := tick_spec htick
    exact hfiles rfl rfl
  | restart hstarts => exact hfiles hstarts.files.1 hstarts.files.2
  | @snapshot s asLoaded _ =>
    have hmemory : e.Among libc s.old ∨ System.Secure ⟨s, asLoaded⟩ e := by
      rcases h with hevents | hhistory
      · cases hloaded : asLoaded with
        | true => exact hkeeps hloaded e hevents
        | false => exact hinv.known hloaded e hevents
      · exact .inr (.inr hhistory)
    rcases hmemory with hold | hqueue | hhistory
    · exact .inr ((onRecord_saveOld hinv.history_records).2 (.inr hold))
    · exact .inl (onRecord_saveCurrentEvents.2 hqueue)
    · exact .inr ((onRecord_saveOld hinv.history_records).2 (.inl hhistory))
  | @restartBetween s asLoaded _ _ hstarts =>
    have hsecure : System.Secure ⟨s, asLoaded⟩ e := by
      rcases h with hevents | hhistory
      · have hmemory : e.Among libc s.old ∨ System.Secure ⟨s, asLoaded⟩ e := by
          cases hloaded : asLoaded with
          | true => exact hkeeps.1 hloaded e hevents
          | false => exact hinv.known hloaded e hevents
        rcases hmemory with hold | hsecure
        · exact hkeeps.2 e hold hevents
        · exact hsecure
      · exact .inr hhistory
    unfold System.OnDisk
    rw [hstarts.files.1, hstarts.files.2]
    rcases hsecure with hqueue | hhistory
    · exact .inl (onRecord_saveCurrentEvents.2 hqueue)
    · exact .inr hhistory

/-! ## Runs -/

theorem System.Run.keeps {σ τ : System Q} (hinv : σ.Invariant)
    (hrun : System.Run System.Keeps σ τ) :
    τ.Invariant ∧ ∀ e, σ.OnDisk e → τ.OnDisk e := by
  induction hrun with
  | refl => exact ⟨hinv, fun _ h => h⟩
  | tail _ hstep ih =>
    obtain ⟨hinv', hdisk⟩ := ih
    obtain ⟨a, hkeeps, hstep⟩ := hstep
    exact ⟨hinv'.step hstep, fun e h => (hdisk e h).step hinv' hstep hkeeps⟩

/-- What is on disk after a snapshot is on disk after every later start, in the runs whose
steps meet a condition. -/
def Durable (Q : PriorityQueue Event (Event.SoonerCmp libc)) (P : System Q → Action → Prop) :
    Prop :=
  ∀ σ₀ σ₁ σ₂ σ₃ σ₄ : System Q, σ₀.Initial → System.Run P σ₀ σ₁ →
    P σ₁ .snapshot → System.Step .snapshot σ₁ σ₂ → System.Run P σ₂ σ₃ →
    (∃ a, (a = .restart ∨ a = .restartBetween) ∧ P σ₃ a ∧ System.Step a σ₃ σ₄) →
    ∀ e, σ₂.OnDisk e → σ₄.OnDisk e

/-- **Runs in which no snapshot overwrites what the process does not have, and no stop between
the two writes finds an event in the events file and `old_` only, are durable.** -/
theorem durable (Q : PriorityQueue Event (Event.SoonerCmp libc)) : Durable Q System.Keeps := by
  rintro σ₀ σ₁ σ₂ σ₃ σ₄ ⟨es, olds, hstart⟩ hrun hkeeps hsnapshot hrun'
    ⟨a, -, hkeeps', hrestart⟩ e he
  obtain ⟨hinv₁, -⟩ := hrun.keeps hstart.invariant
  obtain ⟨hinv₃, hdisk⟩ := hrun'.keeps (hinv₁.step hsnapshot)
  exact (hdisk e he).step hinv₃ hrestart hkeeps'

end

/-! ## A stop between the two writes -/

variable {libc} in
theorem not_onRecord_nil (e : Event) : ¬ OnRecord libc e [] := by
  intro h
  have hnone := (@onRecord_records libc e []).1 h
  simp [Event.Among] at hnone

/-- The process before anything has arrived, with no files. -/
def noFiles : System utcQueue := ⟨Server.start utcQueue [] [] [], true⟩

/-- The event has arrived. -/
def receivedHiYou : Server utcQueue :=
  { events := utcQueue.push utcQueue.empty hiYou, makeSnapshot := true, eventsFile := [],
    history := [] }

/-- The event has been saved and was due. -/
def dueHiYou : Server utcQueue :=
  { events := utcQueue.empty, old := [hiYou], makeSnapshot := true,
    eventsFile := receivedHiYou.snapshot.eventsFile, history := [] }

theorem initial_noFiles : noFiles.Initial := ⟨[], [], .start readEventsFrom_nil⟩

theorem receive_hiYou : System.Step .receive noFiles ⟨receivedHiYou, true⟩ :=
  .receive (listen_hiYou (Server.start utcQueue [] [] [])).2

theorem snapshot_hiYou :
    System.Step .snapshot ⟨receivedHiYou, true⟩ ⟨receivedHiYou.snapshot, false⟩ :=
  .snapshot rfl

theorem due_hiYou : System.Step .tick ⟨receivedHiYou.snapshot, false⟩ ⟨dueHiYou, false⟩ :=
  .tick (.ok hiYou) 1609502401000000000
    (tick_hiYou false receivedHiYou.snapshot.eventsFile [])

theorem onDisk_hiYou : System.OnDisk ⟨receivedHiYou.snapshot, false⟩ hiYou := by
  refine .inl (onRecord_saveCurrentEvents.2 ?_)
  show hiYou.Among .utc (utcQueue.items (utcQueue.push utcQueue.empty hiYou))
  rw [utcQueue.items_push]
  exact Multiset.mem_map_of_mem _ (Multiset.mem_cons_self _ _)

/-- The event is saved to the history before the process stops. -/
theorem durable_hiYou :
    System.OnDisk ⟨Server.start utcQueue dueHiYou.snapshot.eventsFile dueHiYou.snapshot.history [],
      true⟩ hiYou := by
  have hstart : Starts dueHiYou.snapshot.eventsFile dueHiYou.snapshot.history
      (⟨Server.start utcQueue dueHiYou.snapshot.eventsFile dueHiYou.snapshot.history [], true⟩ :
        System utcQueue) := by
    refine .start ?_
    show ReadEventsFrom .utc (saveCurrentEvents .utc utcQueue utcQueue.empty) (.ok [])
    rw [saveCurrentEvents_empty]
    exact readEventsFrom_nil
  exact durable utcQueue noFiles ⟨receivedHiYou, true⟩ ⟨receivedHiYou.snapshot, false⟩
    ⟨dueHiYou.snapshot, false⟩ _ initial_noFiles
    (Relation.ReflTransGen.single ⟨.receive, trivial, receive_hiYou⟩)
    (fun _ e he => absurd he (not_onRecord_nil e)) snapshot_hiYou
    (.tail (.single ⟨.tick, trivial, due_hiYou⟩)
      ⟨.snapshot, fun hfalse => Bool.noConfusion hfalse, .snapshot rfl⟩)
    ⟨.restart, .inl rfl, trivial, .restart hstart⟩ hiYou onDisk_hiYou

/-- The process stops when the event is out of the queue and not yet in the history. -/
theorem not_durable : ¬ Durable utcQueue fun _ _ => True := by
  intro h
  have hstop : System.Step .restartBetween ⟨dueHiYou, false⟩ noFiles := by
    refine .restartBetween rfl ?_
    show Starts (saveCurrentEvents .utc utcQueue utcQueue.empty) [] noFiles
    rw [saveCurrentEvents_empty]
    exact .start readEventsFrom_nil
  have hdisk := h noFiles ⟨receivedHiYou, true⟩ ⟨receivedHiYou.snapshot, false⟩ ⟨dueHiYou, false⟩
    noFiles initial_noFiles (.single ⟨.receive, trivial, receive_hiYou⟩) trivial snapshot_hiYou
    (.single ⟨.tick, trivial, due_hiYou⟩) ⟨.restartBetween, .inr rfl, trivial, hstop⟩
    hiYou onDisk_hiYou
  rcases hdisk with hevents | hhistory
  · exact not_onRecord_nil hiYou hevents
  · exact not_onRecord_nil hiYou hhistory

end Psycal
