import Sprawl.Lib.Loop
import Sprawl.Lib.PriorityQueue
import Sprawl.Psycal.Event

/-!
# The files of the calendar (`psycal/dump.cc`)

`saveOld` appends the records of its events to the history file, `saveCurrentEvents` writes
the records of the queue.  `ReadEventsFrom` reads records back, but makes the message with
`std::string(buffer)`, which reads up to a zero byte: a message is cut off at its first
zero byte, and where it has none the constructor reads on behind the buffer
(`read_records`).  So the only history that is read back as it was saved is the empty one
(`history_iff`).

A number is written as it stands in memory; the host is little-endian.
-/

namespace Psycal

open Cxx Loop LittleEndian

/-! ## Writing -/

section
variable (libc : Libc)

/-- What `SaveOld` and `SaveCurrentEvents` write for one event. -/
def writeEvent (of : List UInt8) (el : Event) : List UInt8 :=
  let of := of ++ toBytes 8 (el.getUnixTimestamp libc).toNat
  let of := of ++ toBytes 8 el.message.elems.length
  of ++ el.message.elems

/-- `SaveOld`: the history file afterwards. -/
def saveOld (history : List UInt8) (olds : List Event) : List UInt8 :=
  olds.foldl (writeEvent libc) history

/-- `SaveCurrentEvents`: the events file afterwards. -/
def saveCurrentEvents (Q : PriorityQueue Event (Event.SoonerCmp libc)) (events : Q.Queue) :
    List UInt8 :=
  (Q.drain events).foldl (writeEvent libc) []

/-! ## The input stream -/

/-- What is left of a file, `eofbit` and `failbit`. -/
structure Stream where
  rest : List UInt8
  eof : Bool := false
  fail : Bool := false
deriving DecidableEq, Repr

def Stream.good (is : Stream) : Bool := !is.eof && !is.fail

/-- `is.peek()`; `none` is `EOF`. -/
def Stream.peek (is : Stream) : Stream × Option UInt8 :=
  if is.good then
    match is.rest with
    | [] => ({ is with eof := true }, none)
    | c :: _ => (is, some c)
  else ({ is with fail := true }, none)

/-- `is.read(p, n)`: the bytes that are stored at `p`. -/
def Stream.read (is : Stream) (n : Nat) : Stream × List UInt8 :=
  if is.good then
    if n ≤ is.rest.length then ({ is with rest := is.rest.drop n }, is.rest.take n)
    else ({ rest := [], eof := true, fail := true }, is.rest)
  else ({ is with fail := true }, [])

/-! ## Reading -/

/-- `std::string(buffer)` on an array whose bytes may be unset. -/
def cString : List (Option UInt8) → Except Stop (List UInt8)
  | [] => .error (.undefined .outOfBounds)
  | none :: _ => .error (.undefined .uninitialized)
  | some c :: buffer => if c = 0 then .ok [] else do return c :: (← cString buffer)

/-- One turn behind `is.peek()`. -/
def readEvent (is : Stream) : Except Stop (Stream × Event) := do
  let (is, bytes) := is.read 8
  let timestamp := UInt64.ofNat (ofBytes bytes)
  let (is, bytes) := is.read 8
  let messageSize := ofBytes bytes
  -- `new char[messageSize]`
  if 2 ^ 63 ≤ messageSize then throw .exception
  let (is, bytes) := is.read messageSize
  let buffer := bytes.map some ++ List.replicate (messageSize - bytes.length) none
  let message ← Sized.build (← cString buffer)
  return (is, Event.ofTimestamp libc timestamp message)

structure ReadState where
  is : Stream
  ret : List Event := []

/-- One turn of `while (!is.eof() && is.peek() != EOF)`. -/
def readEventsBody (s : ReadState) : Turn ReadState (Except Stop (List Event)) :=
  if s.is.eof then .done (.ok s.ret)
  else
    match s.is.peek with
    | (_, none) => .done (.ok s.ret)
    | (is, some _) =>
      match readEvent libc is with
      | .error e => .done (.error e)
      | .ok (is, event) => .again { is, ret := s.ret ++ [event] }

/-- `ReadEventsFrom` on the file ends with `r`. -/
def ReadEventsFrom (file : List UInt8) (r : Except Stop (List Event)) : Prop :=
  Returns (readEventsBody libc) { is := { rest := file } } r

/-! ## What is read back -/

/-- What becomes of an event between `SaveOld` and `ReadEventsFrom`. -/
def Event.restored (e : Event) : Except Stop Event :=
  if 0 ∈ e.message.elems then do
    let message ← Sized.build (e.message.elems.takeWhile (· ≠ 0))
    return Event.ofTimestamp libc (e.getUnixTimestamp libc) message
  else .error (.undefined .outOfBounds)

end

variable {libc : Libc}

theorem foldl_writeEvent (of : List UInt8) (events : List Event) :
    events.foldl (writeEvent libc) of = of ++ events.flatMap (Event.record libc) := by
  induction events generalizing of with
  | nil => simp
  | cons e events ih =>
    rw [List.foldl_cons, ih, List.flatMap_cons, writeEvent, Event.record]
    simp only [List.append_assoc]

theorem saveOld_eq (history : List UInt8) (olds : List Event) :
    saveOld libc history olds = history ++ olds.flatMap (Event.record libc) :=
  foldl_writeEvent history olds

theorem saveOld_batches (history : List UInt8) (batches : List (List Event)) :
    batches.foldl (saveOld libc) history =
      history ++ batches.flatten.flatMap (Event.record libc) := by
  induction batches generalizing history with
  | nil => simp
  | cons b batches ih =>
    rw [List.foldl_cons, ih, saveOld_eq, List.flatten_cons, List.flatMap_append, List.append_assoc]

theorem cString_map (m : List UInt8) :
    cString (m.map some) = if 0 ∈ m then .ok (m.takeWhile (· ≠ 0))
      else .error (.undefined .outOfBounds) := by
  induction m with
  | nil => rfl
  | cons c m ih =>
    rw [List.map_cons, cString, ih]
    by_cases hc : c = 0
    · simp [hc]
    · by_cases hm : 0 ∈ m
      · simp [hc, hm, bind, Except.bind, pure, Except.pure]
      · simp [hc, hm, Ne.symm hc, bind, Except.bind]

theorem read_prefix {n : Nat} {bytes rest : List UInt8} (h : bytes.length = n) :
    Stream.read { rest := bytes ++ rest } n = ({ rest := rest }, bytes) := by
  subst h
  have hgood : Stream.good { rest := bytes ++ rest } = true := rfl
  unfold Stream.read
  rw [if_pos hgood, if_pos (by simp), List.drop_left, List.take_left]

theorem readEvent_record (e : Event) (rest : List UInt8) :
    readEvent libc { rest := e.record libc ++ rest } =
      (e.restored libc).map fun e' => ({ rest := rest }, e') := by
  have hlen := e.message.size_lt
  have hstamp : UInt64.ofNat (ofBytes (toBytes 8 (e.getUnixTimestamp libc).toNat)) =
      e.getUnixTimestamp libc := by
    rw [ofBytes_toBytes 8 _ (UInt64.toNat_lt _), UInt64.ofNat_toNat]
  have hsize : ofBytes (toBytes 8 e.message.elems.length) = e.message.elems.length :=
    ofBytes_toBytes 8 _ (Nat.lt_trans hlen (by decide))
  unfold readEvent Event.record
  simp only [List.append_assoc, read_prefix (length_toBytes 8 _), hsize, hstamp,
    read_prefix rfl, if_neg (Nat.not_le_of_lt hlen), Nat.sub_self, List.replicate_zero,
    List.append_nil, cString_map]
  unfold Event.restored
  by_cases h0 : 0 ∈ e.message.elems
  · rw [if_pos h0, if_pos h0, ok_bind]
    cases Sized.build (e.message.elems.takeWhile (· ≠ 0)) <;> rfl
  · rw [if_neg h0, if_neg h0]
    rfl

/-- A turn in front of a record. -/
theorem readEventsBody_record (e : Event) (rest : List UInt8) (ret : List Event) :
    readEventsBody libc { is := { rest := e.record libc ++ rest }, ret } =
      match e.restored libc with
      | .error x => .done (.error x)
      | .ok e' => .again { is := { rest := rest }, ret := ret ++ [e'] } := by
  obtain ⟨c, r, hcons⟩ : ∃ c r, e.record libc ++ rest = c :: r := by
    cases h : e.record libc ++ rest with
    | nil => simp [Event.record, toBytes] at h
    | cons c r => exact ⟨c, r, rfl⟩
  have hpeek : Stream.peek { rest := e.record libc ++ rest } =
      ({ rest := e.record libc ++ rest }, some c) := by
    rw [hcons]
    rfl
  unfold readEventsBody
  simp only [hpeek, readEvent_record, Bool.false_eq_true, if_false]
  cases e.restored libc <;> rfl

/-- **What is read back from a file of records.** -/
theorem read_records (es ret : List Event) :
    Returns (readEventsBody libc) { is := { rest := es.flatMap (Event.record libc) }, ret }
      ((es.mapM (Event.restored libc)).map (ret ++ ·)) := by
  induction es generalizing ret with
  | nil =>
    refine returns_of_done ?_
    simp [readEventsBody, Stream.peek, Stream.good, Except.map, pure, Except.pure]
  | cons e es ih =>
    have hbody := @readEventsBody_record libc e (es.flatMap (Event.record libc)) ret
    rw [List.flatMap_cons, List.mapM_cons]
    cases hr : e.restored libc with
    | error x =>
      rw [hr] at hbody
      exact returns_of_done hbody
    | ok e' =>
      rw [hr] at hbody
      rw [returns_again_iff hbody]
      have h := ih (ret ++ [e'])
      cases hm : es.mapM (Event.restored libc) with
      | error x =>
        rw [hm] at h
        exact h
      | ok rs =>
        rw [hm] at h
        show Returns _ _ (Except.ok (ret ++ e' :: rs))
        have happ : ret ++ e' :: rs = ret ++ [e'] ++ rs := by simp
        rw [happ]
        exact h

theorem restored_message {e e' : Event} (h : e.restored libc = .ok e') :
    0 ∈ e.message.elems ∧ 0 ∉ e'.message.elems := by
  unfold Event.restored at h
  by_cases h0 : 0 ∈ e.message.elems
  · rw [if_pos h0, bind_eq_ok] at h
    obtain ⟨message, hbuild, he⟩ := h
    cases he
    refine ⟨h0, fun hmem => ?_⟩
    unfold Sized.build at hbuild
    split at hbuild
    · cases hbuild
      have h := List.mem_takeWhile_imp hmem
      simp at h
    · cases hbuild
  · rw [if_neg h0] at h
    cases h

/-- No event is read back as it was saved. -/
theorem restored_ne {e e' : Event} (h : e.restored libc = .ok e') :
    e'.message.elems ≠ e.message.elems := by
  obtain ⟨h0, h1⟩ := restored_message h
  intro he
  rw [he] at h1
  exact h1 h0

theorem mapM_cons_ok {e : Event} {es r : List Event}
    (h : ((e :: es).mapM (Event.restored libc)).map ([] ++ ·) = .ok r) :
    ∃ e' rs, r = e' :: rs ∧ e.restored libc = .ok e' := by
  rw [List.mapM_cons] at h
  cases he : e.restored libc with
  | error x =>
    rw [he] at h
    cases h
  | ok e' =>
    rw [he, ok_bind] at h
    cases hes : es.mapM (Event.restored libc) with
    | error x =>
      rw [hes] at h
      cases h
    | ok rs =>
      rw [hes] at h
      cases h
      exact ⟨e', rs, rfl, rfl⟩

/-- Whatever comes back had a zero byte and has none any more. -/
theorem mapM_restored {es r : List Event} (h : es.mapM (Event.restored libc) = .ok r) :
    (∀ e ∈ es, 0 ∈ e.message.elems) ∧ ∀ e ∈ r, 0 ∉ e.message.elems := by
  induction es generalizing r with
  | nil =>
    cases h
    exact ⟨nofun, nofun⟩
  | cons e es ih =>
    rw [List.mapM_cons, bind_eq_ok] at h
    obtain ⟨e', he, h⟩ := h
    rw [bind_eq_ok] at h
    obtain ⟨rs, hrs, h⟩ := h
    cases h
    obtain ⟨hzero, hnone⟩ := restored_message he
    exact ⟨List.forall_mem_cons.2 ⟨hzero, (ih hrs).1⟩, List.forall_mem_cons.2 ⟨hnone, (ih hrs).2⟩⟩

/-- **The history file is read back as it was saved only if nothing was saved.** -/
theorem history_iff (libc : Libc) (batches : List (List Event)) :
    (∃ r, ReadEventsFrom libc (batches.foldl (saveOld libc) []) (.ok r) ∧
        r.map (Event.content libc) = batches.flatten.map (Event.content libc)) ↔
      ∀ b ∈ batches, b = [] := by
  have hread := @read_records libc batches.flatten []
  rw [← List.nil_append (batches.flatten.flatMap _), ← saveOld_batches] at hread
  rw [← List.flatten_eq_nil_iff]
  constructor
  · rintro ⟨r, hr, hsame⟩
    have hr' : (batches.flatten.mapM (Event.restored libc)).map ([] ++ ·) = .ok r :=
      Returns.unique hread hr
    by_contra hne
    obtain ⟨e, es, hes⟩ := List.exists_cons_of_ne_nil hne
    rw [hes] at hr' hsame
    obtain ⟨e', rs, rfl, he⟩ := mapM_cons_ok hr'
    rw [List.map_cons, List.map_cons] at hsame
    exact restored_ne he (congrArg Prod.snd (List.cons.inj hsame).1)
  · intro hnil
    rw [hnil] at hread ⊢
    exact ⟨[], hread, rfl⟩

/-- The message "hi you" has no zero byte, and is not read back. -/
theorem hiYou_not_restored :
    ¬ ∃ r, ReadEventsFrom .utc ([[hiYou]].foldl (saveOld .utc) []) (.ok r) ∧
      r.map (Event.content .utc) = [[hiYou]].flatten.map (Event.content .utc) := by
  rintro ⟨r, hr, -⟩
  have hread := @read_records .utc [hiYou] []
  have herror : [hiYou].mapM (Event.restored .utc) = .error (.undefined .outOfBounds) := by decide
  rw [herror, ← List.nil_append ([hiYou].flatMap _), ← saveOld_eq] at hread
  cases Returns.unique hread hr

end Psycal
