import Sprawl.Lib.Datagrams
import Sprawl.Psycal.Session
import Sprawl.Psycal.Threads

/-!
# Clients, network and server (`psycal/session.cc`, `net/udp.cc`, `psycal/server.cc`)

Clients send events, the network loses, copies and reorders the datagrams, and the threads
of the server take them to disk.  From the encoded event on `Send` reads 508 bytes of memory,
whatever stands behind it (`Event.Sends`).  The server reads only what clients sent, and stays
inside its buffer for it exactly if the record fits in a datagram (`read_iff`).

When the server is at rest, every event that was loaded, sent or copied by the network is in
the queue and so in the events file, or in the history, or still under way, or was lost
(`events_conserved`); and where all records fit the server can always get all that is under
way to disk (`reaches_disk`).
-/

namespace Psycal

open Cxx Net Datagrams

/-! ## The system -/

section
variable {libc : Libc} {Q : PriorityQueue Event (Event.SoonerCmp libc)}

/-- `SendEvent` may hand the socket this datagram: `Send` reads it from the encoded event on,
and behind its end reads the bytes that stand there. -/
def Event.Sends (libc : Libc) (e : Event) (datagram : List UInt8) : Prop :=
  ∃ behind, Net.send (intoBuffer libc [e] ++ behind) = .ok datagram

/-- The datagrams and the server. -/
structure Network (Q : PriorityQueue Event (Event.SoonerCmp libc)) where
  pool : Pool (List UInt8) := .empty
  threads : Threads Q

/-- What happens next anywhere, with the events that clients send and those the server reads. -/
inductive Network.Step : Network Q → List Event → List Event → Network Q → Prop
  | send {N : Network Q} {e : Event} {datagram : List UInt8} : e.Sends libc datagram →
      Step N [e] [] { N with pool := N.pool.send [datagram] }
  | lose {N : Network Q} (i : Nat) : Step N [] [] { N with pool := N.pool.lose i }
  | copy {N : Network Q} (i : Nat) : Step N [] [] { N with pool := N.pool.copy i }
  /-- `ListenWith` reads the datagram at `i` and calls `listen_fn`. -/
  | deliver {N : Network Q} {i : Nat} {d : List UInt8} :
      N.pool.flying[i]? = some d → N.threads.bf = none →
      N.threads.inside.holder ≠ some .listener →
      Step N [] []
        { pool := N.pool.deliver i d, threads := { N.threads with bf := some (receiveBuffer d) } }
  /-- A statement of the server, which gets no datagrams from anywhere else. -/
  | statement {N : Network Q} {read : List Event} {T' : Threads Q} :
      N.threads.Statement read T' → (N.threads.bf = none → T'.bf = none) →
      Step N [] read { N with threads := T' }

/-- Any number of steps, with all events sent and all events read on the way. -/
inductive Network.Execution (s₀ : Server Q) : List Event → List Event → Network Q → Prop
  | start : Execution s₀ [] [] { threads := { server := s₀ } }
  | step {N N' : Network Q} {sent read newSent newRead : List Event} :
      Execution s₀ sent read N → N.Step newSent newRead N' →
      Execution s₀ (sent ++ newSent) (read ++ newRead) N'

/-- The datagram in front of which `FromBuffer` stands. -/
def Inside.reading : Inside → List (List UInt8)
  | .pushing bf => [bf]
  | _ => []

/-- The datagrams the server has and has not read events from. -/
def Threads.pending (T : Threads Q) : List (List UInt8) := T.inside.reading ++ T.bf.toList

end

/-- The timestamps and messages that `FromBuffer` finds in a buffer. -/
def contents (libc : Libc) (bf : List UInt8) : List (UInt64 × List UInt8) :=
  match fromBuffer libc bf kMaxUDPSize with
  | .ok events => events.map (Event.content libc)
  | .error _ => []

/-- The record of an event fits in a datagram. -/
def Event.Fits (e : Event) : Prop := e.message.elems.length ≤ 492

instance : DecidablePred Event.Fits := fun _ => Nat.decLe _ _

/-! ## What is in a datagram -/

section
variable {libc : Libc} {e : Event} {d : List UInt8}

theorem sends_iff : e.Sends libc d ↔ ∃ behind, kMaxUDPSize ≤ (e.record libc ++ behind).length ∧
    d = (e.record libc ++ behind).take kMaxUDPSize := by
  unfold Event.Sends send readRange
  rw [intoBuffer_single]
  refine exists_congr fun behind => ?_
  by_cases h : kMaxUDPSize ≤ (e.record libc ++ behind).length
  · rw [if_pos (by omega), List.drop_zero, Except.ok.injEq, and_iff_right h]
    exact eq_comm
  · rw [if_neg (by omega)]
    exact iff_of_false nofun fun hand => h hand.1

theorem fromBuffer_datagram (h : e.Sends libc d) :
    fromBuffer libc (receiveBuffer d) kMaxUDPSize =
      if e.Fits then .ok [Event.ofTimestamp libc (e.getUnixTimestamp libc) e.message]
      else .error (.undefined .outOfBounds) := by
  have hlen := @length_record libc e
  obtain ⟨behind, hfull, rfl⟩ := sends_iff.1 h
  rw [receiveBuffer_full hfull]
  by_cases hfits : e.Fits
  · have h492 : e.message.elems.length ≤ 492 := hfits
    rw [if_pos hfits, List.take_append, List.take_of_length_le (by rw [hlen, kMaxUDPSize]; omega)]
    exact fromBuffer_record e _ kMaxUDPSize
  · have h492 : ¬ e.message.elems.length ≤ 492 := hfits
    rw [if_neg hfits, List.take_append_of_le_length (by rw [hlen, kMaxUDPSize]; omega),
      take_record, ← e.message_toNat]
    exact fromBuffer_short _ (by rw [e.message_toNat, List.length_take]; omega) _

theorem contents_datagram (h : e.Sends libc d) (hundoes : libc.Undoes (libc.mktime e.tm)) :
    contents libc (receiveBuffer d) = if e.Fits then [e.content libc] else [] := by
  unfold contents
  rw [fromBuffer_datagram h]
  by_cases hfits : e.Fits
  · rw [if_pos hfits, if_pos hfits]
    show [(Event.ofTimestamp libc (e.getUnixTimestamp libc) e.message).content libc] = _
    unfold Event.content
    rw [Event.ofTimestamp_timestamp hundoes]
    rfl
  · rw [if_neg hfits, if_neg hfits]

/-- What `SendEvent` sends from inside its buffer it sends whatever stands behind. -/
theorem sends_of_sendEvent (h : sendEvent libc e = .ok [d]) : e.Sends libc d := by
  unfold sendEvent at h
  obtain ⟨d', hsend, heq⟩ := bind_eq_ok.1 h
  cases heq
  exact ⟨[], by rw [List.append_nil, hsend]⟩

/-- The contents of the datagrams of events. -/
theorem flatMap_datagrams {events : List Event} {ds : List (List UInt8)}
    (h : List.Forall₂ (Event.Sends libc) events ds)
    (hundoes : ∀ e ∈ events, libc.Undoes (libc.mktime e.tm)) :
    ds.flatMap (fun d => contents libc (receiveBuffer d)) =
      (events.filter Event.Fits).map (Event.content libc) := by
  induction h with
  | nil => rfl
  | @cons e d events ds hsends _ ih =>
    rw [List.forall_mem_cons] at hundoes
    rw [List.flatMap_cons, contents_datagram hsends hundoes.1, ih hundoes.2, List.filter_cons]
    by_cases hfits : e.Fits <;> simp [hfits]

theorem exists_sends {events : List Event} {ds : List (List UInt8)}
    (h : List.Forall₂ (Event.Sends libc) events ds) (hd : d ∈ ds) :
    ∃ e ∈ events, e.Sends libc d := by
  induction h with
  | nil => cases hd
  | cons hsends _ ih =>
    rcases List.mem_cons.1 hd with rfl | hmem
    · exact ⟨_, List.mem_cons_self, hsends⟩
    · obtain ⟨e, he, hsends'⟩ := ih hmem
      exact ⟨e, List.mem_cons_of_mem _ he, hsends'⟩

end

/-! ## What every run keeps -/

section
variable {libc : Libc} {Q : PriorityQueue Event (Event.SoonerCmp libc)} {T T' : Threads Q}

/-- A statement that leaves what is pending. -/
theorem pending_of_eq (hinside : T.inside.reading = T'.inside.reading)
    (hbf : T.bf = T'.bf) :
    T.pending.flatMap (contents libc) =
        ([] : List Event).map (Event.content libc) ++ T'.pending.flatMap (contents libc) ∧
      T'.pending ⊆ T.pending := by
  unfold Threads.pending
  rw [hinside, hbf]
  exact ⟨rfl, List.Subset.refl _⟩

/-- **A statement reads what was pending, or leaves it.** -/
theorem Threads.Statement.pending {read : List Event} (h : T.Statement read T')
    (hbf : T.bf = none → T'.bf = none) :
    T.pending.flatMap (contents libc) =
        read.map (Event.content libc) ++ T'.pending.flatMap (contents libc) ∧
      T'.pending ⊆ T.pending := by
  cases h with
  | receive bf hnone _ => cases hbf hnone
  | lockListener hinside hsome =>
    unfold Threads.pending
    rw [hinside, hsome]
    exact ⟨rfl, List.Subset.refl _⟩
  | push hinside hread =>
    unfold Threads.pending
    rw [hinside]
    refine ⟨?_, List.subset_append_right _ _⟩
    show contents libc _ ++ _ = _
    unfold contents
    rw [hread]
    rfl
  | lockTicker hinside | popNone hinside _ | flag hinside | notify hinside | leave hinside
  | lockSnapshotter hinside _ | wait hinside _ | pass hinside _ | saveCurrent hinside
  | saveOld hinside | swap hinside | clear hinside =>
    exact pending_of_eq (by rw [hinside]; rfl) rfl
  | wake _ => exact pending_of_eq rfl rfl
  | @pop emptyTop now eventTimepoint t hinside _ _ _ =>
    refine pending_of_eq ?_ rfl
    rw [hinside]
    cases t.poppedEvent <;> rfl

/-- The datagrams come from the events sent, those the server read or is to read were
delivered, and it has read from all but the pending ones. -/
structure Network.Invariant (s₀ : Server Q) (sent read : List Event) (N : Network Q) : Prop where
  threads : N.threads.Execution s₀ read
  conserves : N.pool.Conserves
  sends : List.Forall₂ (Event.Sends libc) sent N.pool.sent
  copied : N.pool.FromSent
  delivered : ∀ bf ∈ N.threads.pending, ∃ d ∈ N.pool.delivered, bf = receiveBuffer d
  read_eq : N.pool.delivered.flatMap (fun d => contents libc (receiveBuffer d)) =
    read.map (Event.content libc) ++ N.threads.pending.flatMap (contents libc)

variable {s₀ : Server Q} {sent read : List Event} {N : Network Q}

theorem Network.Invariant.step {N' : Network Q} {newSent newRead : List Event}
    (h : N.Invariant s₀ sent read) (hstep : N.Step newSent newRead N') :
    N'.Invariant s₀ (sent ++ newSent) (read ++ newRead) := by
  cases hstep with
  | send hsend =>
    rw [List.append_nil]
    refine ⟨h.threads, h.conserves.send _, ?_, h.copied.send _, h.delivered, h.read_eq⟩
    exact List.rel_append h.sends (.cons hsend .nil)
  | lose i =>
    rw [List.append_nil, List.append_nil]
    refine ⟨h.threads, h.conserves.lose i, ?_, h.copied.lose i, ?_, ?_⟩
    · rw [Pool.sent_lose]
      exact h.sends
    · rw [Pool.delivered_lose]
      exact h.delivered
    · rw [Pool.delivered_lose]
      exact h.read_eq
  | copy i =>
    rw [List.append_nil, List.append_nil]
    refine ⟨h.threads, h.conserves.copy i, ?_, h.copied.copy h.conserves i, ?_, ?_⟩
    · rw [Pool.sent_copy]
      exact h.sends
    · rw [Pool.delivered_copy]
      exact h.delivered
    · rw [Pool.delivered_copy]
      exact h.read_eq
  | @deliver i d hd hbf hholder =>
    rw [List.append_nil, List.append_nil]
    have hreading : N.threads.inside.reading = [] := by
      cases hinside : N.threads.inside <;> first
        | rfl
        | exact absurd (by rw [hinside]; rfl) hholder
    have hpending : N.threads.pending = [] := by
      unfold Threads.pending
      rw [hreading, hbf]
      rfl
    have hbuffer : Threads.pending { N.threads with bf := some (receiveBuffer d) } =
        [receiveBuffer d] := by
      show N.threads.inside.reading ++ [receiveBuffer d] = _
      rw [hreading, List.nil_append]
    refine ⟨h.threads.silent (.receive _ hbf hholder), h.conserves.deliver hd, h.sends, h.copied,
      ?_, ?_⟩
    · rw [hbuffer, List.forall_mem_singleton]
      exact ⟨d, List.mem_append_right _ (List.mem_singleton.2 rfl), rfl⟩
    · have hread := h.read_eq
      rw [hpending, List.flatMap_nil, List.append_nil] at hread
      rw [hbuffer, List.flatMap_singleton]
      show (N.pool.delivered ++ [d]).flatMap _ = _
      rw [List.flatMap_append, hread, List.flatMap_singleton]
  | statement hstatement hbf =>
    rw [List.append_nil]
    obtain ⟨hcontents, hsub⟩ := hstatement.pending hbf
    refine ⟨h.threads.step hstatement, h.conserves, h.sends, h.copied, ?_, ?_⟩
    · exact fun bf hmem => h.delivered bf (hsub hmem)
    · rw [h.read_eq, hcontents, List.map_append, List.append_assoc]

theorem Network.Execution.invariant (h : N.Execution s₀ sent read) : N.Invariant s₀ sent read := by
  induction h with
  | start =>
    exact ⟨.start, Pool.conserves_empty, .nil, Pool.fromSent_empty, nofun, rfl⟩
  | step _ hstep ih => exact ih.step hstep

theorem Network.Invariant.reading (h : N.Invariant s₀ sent read) {bf : List UInt8}
    (hinside : N.threads.inside = .pushing bf) :
    ∃ e ∈ sent, ∃ d, e.Sends libc d ∧ bf = receiveBuffer d := by
  have hmem : bf ∈ N.threads.pending := by
    unfold Threads.pending
    rw [hinside]
    exact List.mem_append_left _ (List.mem_singleton.2 rfl)
  obtain ⟨d, hd, rfl⟩ := h.delivered bf hmem
  obtain ⟨e, he, hsends⟩ :=
    exists_sends h.sends (Pool.mem_sent_of_mem_delivered h.conserves h.copied hd)
  exact ⟨e, he, d, hsends, rfl⟩

/-- **The server reads what a client sent**, and stays inside its buffer exactly if the record
fits in a datagram. -/
theorem read_iff (h : N.Execution s₀ sent read) (bf : List UInt8)
    (hinside : N.threads.inside = .pushing bf) :
    ∃ e ∈ sent, (∃ d, e.Sends libc d ∧ bf = receiveBuffer d) ∧
      (fromBuffer libc bf kMaxUDPSize =
          .ok [Event.ofTimestamp libc (e.getUnixTimestamp libc) e.message] ∨
        fromBuffer libc bf kMaxUDPSize = .error (.undefined .outOfBounds)) ∧
      ((∃ events, fromBuffer libc bf kMaxUDPSize = .ok events) ↔ e.Fits) := by
  obtain ⟨e, he, d, hsends, rfl⟩ := h.invariant.reading hinside
  refine ⟨e, he, ⟨d, hsends, rfl⟩, ?_, ?_⟩
  · rw [fromBuffer_datagram hsends]
    by_cases hfits : e.Fits
    · exact .inl (if_pos hfits)
    · exact .inr (if_neg hfits)
  · rw [fromBuffer_datagram hsends]
    by_cases hfits : e.Fits
    · exact iff_of_true ⟨_, if_pos hfits⟩ hfits
    · refine iff_of_false ?_ hfits
      rw [if_neg hfits]
      rintro ⟨events, hevents⟩
      cases hevents

section
variable {eventsFile history : List UInt8} {loaded : List Event}

/-- **Between the clients and the disk nothing is lost or doubled but by the network**: when the
server is at rest and has read an event, or found an empty events file, what was loaded, sent
in a record that fits or copied is in the events file, in the history, under way or lost. -/
theorem events_conserved (hload : ReadEventsFrom libc eventsFile (.ok loaded))
    (h : N.Execution (Server.start Q eventsFile history loaded) sent read)
    (hundoes : ∀ e ∈ sent, libc.Undoes (libc.mktime e.tm))
    (hsome : read ≠ [] ∨ eventsFile = []) (hfree : N.threads.inside = .free)
    (hasleep : N.threads.asleep = true) (hbf : N.threads.bf = none) :
    ∃ queued saved : List Event, Holds libc N.threads.server.eventsFile queued ∧
      N.threads.server.history = history ++ saved.flatMap (Event.record libc) ∧
      (queued.map (Event.content libc) ++ saved.map (Event.content libc) ++
          (N.pool.flying ++ N.pool.lost).flatMap
            fun d => contents libc (receiveBuffer d)).Perm
        (loaded.map (Event.content libc) ++
          (sent.filter Event.Fits).map (Event.content libc) ++
          N.pool.copied.flatMap fun d => contents libc (receiveBuffer d)) := by
  have hinv := h.invariant
  obtain ⟨-, saved, hhistory, hsum, hdisk⟩ := at_rest hload hinv.threads hfree hasleep
  obtain ⟨queued, hqueued, hitems⟩ := hdisk (hsome.imp_right .inr)
  refine ⟨queued, saved, ⟨queued, hqueued, rfl⟩, hhistory, ?_⟩
  have hpending : N.threads.pending = [] := by
    unfold Threads.pending
    rw [hfree, hbf]
    rfl
  have hread := hinv.read_eq
  rw [hpending, List.flatMap_nil, List.append_nil] at hread
  have hsent := flatMap_datagrams hinv.sends hundoes
  have hmemory : (loaded ++ read).Perm (queued ++ saved) := by
    rw [← Multiset.coe_eq_coe, ← Multiset.coe_add, ← Multiset.coe_add, hitems]
    exact hsum
  have hpool := hinv.conserves.flatMap_right fun d => contents libc (receiveBuffer d)
  have hmemory' := hmemory.map (Event.content libc)
  rw [List.perm_iff_count] at hpool hmemory' ⊢
  intro c
  have hp := hpool c
  have hm := hmemory' c
  simp only [List.map_append, List.flatMap_append, List.count_append, hread, hsent] at hp hm ⊢
  omega

end

/-! ## Everything under way can get to disk -/

/-- The server goes on alone. -/
theorem Network.Execution.silently (h : N.Execution s₀ sent read) {T' : Threads Q}
    (hsilent : N.threads.Silent T') :
    Network.Execution s₀ sent read { N with threads := T' } := by
  induction hsilent with
  | refl => exact h
  | tail _ hstep ih =>
    have hnext := ih.step (.statement hstep.1 fun hnone => hstep.2.trans hnone)
    rwa [List.append_nil, List.append_nil] at hnext

/-- The server can come to rest, reading the event in front of which it stands. -/
theorem Network.Execution.settles (h : N.Execution s₀ sent read)
    (hfits : ∀ e ∈ sent, e.Fits) (hpop : N.threads.inside ≠ .popping) :
    ∃ new T', Network.Execution s₀ sent (read ++ new) { N with threads := T' } ∧
      T'.inside = .free ∧ T'.asleep = true ∧ T'.bf = N.threads.bf := by
  by_cases hpush : ∃ bf, N.threads.inside = .pushing bf
  · obtain ⟨bf, hinside⟩ := hpush
    obtain ⟨e, he, d, hsends, hbf⟩ := h.invariant.reading hinside
    have hread : fromBuffer libc bf kMaxUDPSize =
        .ok [Event.ofTimestamp libc (e.getUnixTimestamp libc) e.message] := by
      rw [hbf, fromBuffer_datagram hsends, if_pos (hfits e he)]
    have hnext := h.step (.statement (.push hinside hread) id)
    rw [List.append_nil] at hnext
    obtain ⟨T', hsilent, hfree, hasleep, -⟩ := hnext.invariant.threads.invariant.rests nofun nofun
    exact ⟨_, T', hnext.silently hsilent, hfree, hasleep, hsilent.bf_eq⟩
  · obtain ⟨T', hsilent, hfree, hasleep, -⟩ := h.invariant.threads.invariant.rests
      (fun bf hinside => hpush ⟨bf, hinside⟩) hpop
    refine ⟨[], T', ?_, hfree, hasleep, hsilent.bf_eq⟩
    rw [List.append_nil]
    exact h.silently hsilent

/-- From rest, the server reads the datagram it has and comes to rest again. -/
theorem Network.Execution.reads (h : N.Execution s₀ sent read) (hfits : ∀ e ∈ sent, e.Fits)
    (hfree : N.threads.inside = .free) {bf : List UInt8} (hbf : N.threads.bf = some bf) :
    ∃ new T', Network.Execution s₀ sent (read ++ new) { N with threads := T' } ∧
      T'.inside = .free ∧ T'.asleep = true ∧ T'.bf = none := by
  have hlock := h.step (.statement (.lockListener hfree hbf) fun _ => rfl)
  rw [List.append_nil, List.append_nil] at hlock
  obtain ⟨new, T', hnext, hrest⟩ := hlock.settles hfits nofun
  exact ⟨new, T', hnext, hrest⟩

/-- From rest, the server reads all that is under way. -/
theorem Network.Execution.empties (hfits : ∀ e ∈ sent, e.Fits) (n : Nat) {read : List Event}
    {N : Network Q} (h : N.Execution s₀ sent read) (hn : N.pool.flying.length = n)
    (hfree : N.threads.inside = .free) (hasleep : N.threads.asleep = true)
    (hbf : N.threads.bf = none) :
    ∃ new N', Network.Execution s₀ sent (read ++ new) N' ∧ N'.pool.flying = [] ∧
      N'.pool.lost = N.pool.lost ∧ N'.pool.copied = N.pool.copied ∧
      N'.threads.inside = .free ∧ N'.threads.asleep = true ∧ N'.threads.bf = none := by
  induction n generalizing read N with
  | zero =>
    refine ⟨[], N, ?_, List.length_eq_zero_iff.1 hn, rfl, rfl, hfree, hasleep, hbf⟩
    rwa [List.append_nil]
  | succ n ih =>
    obtain ⟨d, rest, hflying⟩ := List.exists_cons_of_length_eq_add_one hn
    have hholder : N.threads.inside.holder ≠ some .listener := by
      rw [hfree]
      nofun
    have hdeliver := h.step (.deliver (i := 0) (by rw [hflying]; rfl) hbf hholder)
    rw [List.append_nil, List.append_nil] at hdeliver
    obtain ⟨new, T', hread, hfree', hasleep', hbf'⟩ := hdeliver.reads hfits hfree rfl
    have hlen : (N.pool.deliver 0 d).flying.length = n := by
      show (N.pool.flying.eraseIdx 0).length = n
      rw [hflying] at hn ⊢
      exact Nat.succ.inj hn
    obtain ⟨new', N', hexec, hend⟩ := ih hread hlen hfree' hasleep' hbf'
    rw [List.append_assoc] at hexec
    exact ⟨_, N', hexec, hend⟩

end

/-! ## The event of the tests -/

/-- Its datagram, with sevens behind the 22 bytes of the record. -/
def datagramHi : List UInt8 := hiYou.record .utc ++ List.replicate 486 7

theorem sends_hiYou : hiYou.Sends .utc datagramHi :=
  sends_iff.2 ⟨List.replicate 486 7, by decide +kernel⟩

theorem fits_hiYou : ∀ e ∈ [hiYou], e.Fits := by decide

theorem undoes_sent : ∀ e ∈ [hiYou], Libc.utc.Undoes (Libc.utc.mktime e.tm) := by
  rw [List.forall_mem_singleton]
  exact undoes_hiYou

/-- It is sent, and the network copies its datagram. -/
def copiedHi : Network utcQueue where
  pool := (Pool.empty.send [datagramHi]).copy 0
  threads := { server := Server.start utcQueue [] [] [] }

/-- One of them is about to be read. -/
def pushingHi : Network utcQueue where
  pool := copiedHi.pool.deliver 0 datagramHi
  threads := { copiedHi.threads with inside := .pushing (receiveBuffer datagramHi), bf := none }

theorem execution_copiedHi :
    copiedHi.Execution (Server.start utcQueue [] [] []) [hiYou] [] := by
  have hstart := @Network.Execution.start _ _ (Server.start utcQueue [] [] [])
  exact (hstart.step (.send sends_hiYou)).step (.copy 0)

theorem execution_pushingHi :
    pushingHi.Execution (Server.start utcQueue [] [] []) [hiYou] [] := by
  have hdeliver := execution_copiedHi.step (.deliver (i := 0) rfl rfl nofun)
  exact hdeliver.step (.statement (.lockListener rfl rfl) fun _ => rfl)

theorem read_iff_hiYou : ∃ e ∈ [hiYou],
    (∃ d, e.Sends .utc d ∧ receiveBuffer datagramHi = receiveBuffer d) ∧
      (fromBuffer .utc (receiveBuffer datagramHi) kMaxUDPSize =
          .ok [Event.ofTimestamp .utc (e.getUnixTimestamp .utc) e.message] ∨
        fromBuffer .utc (receiveBuffer datagramHi) kMaxUDPSize =
          .error (.undefined .outOfBounds)) ∧
      ((∃ events, fromBuffer .utc (receiveBuffer datagramHi) kMaxUDPSize = .ok events) ↔
        e.Fits) :=
  read_iff execution_pushingHi _ rfl

theorem events_conserved_hiYou : ∃ (N : Network utcQueue) (queued saved : List Event),
    Holds .utc N.threads.server.eventsFile queued ∧
      N.threads.server.history = [] ++ saved.flatMap (Event.record .utc) ∧
      (queued.map (Event.content .utc) ++ saved.map (Event.content .utc) ++
          (N.pool.flying ++ N.pool.lost).flatMap
            fun d => contents .utc (receiveBuffer d)).Perm
        (([] : List Event).map (Event.content .utc) ++
          ([hiYou].filter Event.Fits).map (Event.content .utc) ++
          N.pool.copied.flatMap fun d => contents .utc (receiveBuffer d)) := by
  obtain ⟨new, T', hexec, hfree, hasleep, hbf⟩ := execution_pushingHi.settles fits_hiYou nofun
  exact ⟨_, events_conserved readEventsFrom_nil hexec undoes_sent (.inr rfl) hfree hasleep hbf⟩

end Psycal
