import Sprawl.Lib.Records
import Sprawl.Psycal.Event

/-!
# Datagrams (`psycal/message.cc`)

`intoBuffer` writes the records of its events one behind the other; `fromBuffer` reads
one event, whatever stands behind it (`fromBuffer_intoBuffer`).  The records can be taken
apart in one way only (`intoBuffer_decodable`).

`fromBuffer` goes by the length in the datagram and does not look at `size`: it stays inside
the buffer exactly if the event fits, and never throws where it does not
(`keepsInside_iff`).
-/

namespace Psycal

open Cxx Codec InformationTheory LittleEndian Records

/-- `Message::IntoBuffer`. -/
def intoBuffer (libc : Libc) (events : List Event) : List UInt8 :=
  events.foldl
    (fun ret event =>
      (encodeU64LE (event.getUnixTimestamp libc) ret).2 ++ event.getEncodedMessage) []

/-- `Message::FromBuffer`. -/
def fromBuffer (libc : Libc) (buffer : List UInt8) (_size : Nat) : Except Stop (List Event) := do
  let (result, timestamp) ← decodeU64LE buffer 0
  if result ≠ .Ok then throw .exception
  let (result, messageSize) ← decodeU64LE buffer 8
  if result ≠ .Ok then throw .exception
  let message ← Sized.build (← readRange buffer 16 messageSize.toNat)
  return [Event.ofTimestamp libc timestamp message]

/-- The message length that a buffer declares. -/
def declaredLength (buffer : List UInt8) : Nat := ofBytes ((buffer.drop 8).take 8)

/-- The fixed fields and the declared message lie in these bytes. -/
def Fits (block : List UInt8) : Prop :=
  16 ≤ block.length ∧ 16 + declaredLength block ≤ block.length

/-- `FromBuffer`, called with the size of `block`, reads only in `block` (with nothing behind
it no read is out of bounds), and throws where the event does not fit, whatever stands behind
`block`. -/
def KeepsInside (libc : Libc) (block beyond : List UInt8) : Prop :=
  fromBuffer libc block block.length ≠ .error (.undefined .outOfBounds) ∧
    (¬ Fits block → fromBuffer libc (block ++ beyond) block.length = .error .exception)

variable {libc : Libc}

theorem foldl_records (events : List Event) (ret : List UInt8) :
    events.foldl (fun ret event =>
        (encodeU64LE (event.getUnixTimestamp libc) ret).2 ++ event.getEncodedMessage) ret =
      ret ++ events.flatMap (Event.record libc) := by
  induction events generalizing ret with
  | nil => simp
  | cons e events ih =>
    rw [List.foldl_cons, ih, encode_eq, Event.encodedMessage_eq, List.flatMap_cons, Event.record]
    simp only [List.append_assoc]

theorem intoBuffer_eq (events : List Event) :
    intoBuffer libc events = events.flatMap (Event.record libc) := foldl_records events []

theorem intoBuffer_single (e : Event) : intoBuffer libc [e] = e.record libc := by
  rw [intoBuffer_eq, List.flatMap_singleton]

/-! ## The records of a buffer -/

theorem record_mem (e : Event) : e.record libc ∈ records 8 8 :=
  ⟨_, _, UInt64.toNat_lt _, Nat.lt_trans e.message.size_lt (by decide), rfl⟩

theorem record_eq_iff {e e' : Event} :
    e.record libc = e'.record libc ↔ e.content libc = e'.content libc := by
  have hlt : ∀ e : Event, e.message.elems.length < 256 ^ 8 := fun e =>
    Nat.lt_trans e.message.size_lt (by decide)
  unfold Event.content
  constructor
  · intro h
    have happend : record 8 8 (e.getUnixTimestamp libc).toNat e.message.elems ++ [] =
        record 8 8 (e'.getUnixTimestamp libc).toNat e'.message.elems ++ [] := congrArg (· ++ []) h
    obtain ⟨hstamp, hmessage, -⟩ := record_append_inj (UInt64.toNat_lt _) (UInt64.toNat_lt _)
      (hlt e) (hlt e') happend
    rw [UInt64.toNat_inj.1 hstamp, hmessage]
  · intro h
    rw [Prod.mk.injEq] at h
    obtain ⟨hstamp, hmessage⟩ := h
    unfold Event.record
    rw [hstamp, hmessage]

/-- A file of records has one reading. -/
theorem records_inj {es es' : List Event} :
    es.flatMap (Event.record libc) = es'.flatMap (Event.record libc) ↔
      es.map (Event.content libc) = es'.map (Event.content libc) := by
  have hmem : ∀ es : List Event, ∀ w ∈ es.map (Event.record libc), w ∈ records 8 8 := by
    intro es w hw
    obtain ⟨e, -, rfl⟩ := List.mem_map.1 hw
    exact record_mem e
  have hmap : es.map (Event.record libc) = es'.map (Event.record libc) ↔
      es.map (Event.content libc) = es'.map (Event.content libc) := by
    induction es generalizing es' with
    | nil => simp
    | cons e es ih =>
      cases es' with
      | nil => simp
      | cons e' es' => simp only [List.map_cons, List.cons.injEq, record_eq_iff, ih]
  rw [List.flatMap_def, List.flatMap_def, ← hmap]
  exact ⟨records_decodable (by decide) _ _ (hmem es) (hmem es'), congrArg List.flatten⟩

/-- **What `IntoBuffer` writes can be taken apart in one way only, and two lists of events one
behind the other are written one behind the other.** -/
theorem intoBuffer_decodable (libc : Libc) (es es' : List Event) :
    (intoBuffer libc es = intoBuffer libc es' ↔
        es.map (Event.content libc) = es'.map (Event.content libc)) ∧
      intoBuffer libc (es ++ es') = intoBuffer libc es ++ intoBuffer libc es' := by
  rw [intoBuffer_eq, intoBuffer_eq, intoBuffer_eq]
  exact ⟨records_inj, List.flatMap_append⟩

/-! ## Reading a buffer -/

/-- Two numbers in front of a text. -/
theorem fromBuffer_header (timestamp messageSize : UInt64) (rest : List UInt8) (size : Nat) :
    fromBuffer libc (toBytes 8 timestamp.toNat ++ toBytes 8 messageSize.toNat ++ rest) size = do
      let message ← Sized.build (← readRange
        (toBytes 8 timestamp.toNat ++ toBytes 8 messageSize.toNat ++ rest) 16 messageSize.toNat)
      return [Event.ofTimestamp libc timestamp message] := by
  have h0 : decodeU64LE (toBytes 8 timestamp.toNat ++ toBytes 8 messageSize.toNat ++ rest) 0 =
      .ok (.Ok, timestamp) := by
    have h := decode_encode timestamp [] (toBytes 8 messageSize.toNat ++ rest)
    rwa [encode_eq, List.nil_append, ← List.append_assoc] at h
  have h8 : decodeU64LE (toBytes 8 timestamp.toNat ++ toBytes 8 messageSize.toNat ++ rest) 8 =
      .ok (.Ok, messageSize) := by
    have h := decode_encode messageSize (toBytes 8 timestamp.toNat) rest
    rwa [encode_eq, length_toBytes] at h
  unfold fromBuffer
  rw [h0, ok_bind]
  simp only [h8, ok_bind]
  rfl

/-- A message that is longer than what stands behind the header. -/
theorem fromBuffer_short (timestamp : UInt64) {messageSize : UInt64} {rest : List UInt8}
    (h : rest.length < messageSize.toNat) (size : Nat) :
    fromBuffer libc (toBytes 8 timestamp.toNat ++ toBytes 8 messageSize.toNat ++ rest) size =
      .error (.undefined .outOfBounds) := by
  rw [fromBuffer_header, readRange, if_neg]
  · rfl
  · simp only [List.length_append, length_toBytes]
    omega

theorem fromBuffer_record (e : Event) (trailing : List UInt8) (size : Nat) :
    fromBuffer libc (e.record libc ++ trailing) size =
      .ok [Event.ofTimestamp libc (e.getUnixTimestamp libc) e.message] := by
  have h := @fromBuffer_header libc (e.getUnixTimestamp libc) e.message.elems.length.toUInt64
    (e.message.elems ++ trailing) size
  rw [e.message_toNat, ← List.append_assoc, readRange_append trailing (by simp) rfl, ok_bind,
    Sized.build_elems, ok_bind] at h
  exact h

/-- Every buffer that holds the fixed fields is two numbers in front of a text. -/
theorem exists_header {block : List UInt8} (h : 16 ≤ block.length) :
    ∃ (timestamp messageSize : UInt64) (rest : List UInt8),
      block = toBytes 8 timestamp.toNat ++ toBytes 8 messageSize.toNat ++ rest ∧
        messageSize.toNat = declaredLength block ∧ rest.length + 16 = block.length := by
  have hnumber : ∀ bs : List UInt8, bs.length = 8 →
      ∃ x : UInt64, toBytes 8 x.toNat = bs ∧ x.toNat = ofBytes bs := by
    intro bs hbs
    have hlt : ofBytes bs < 256 ^ 8 := by
      rw [← hbs]
      exact ofBytes_lt bs
    have htoNat : (UInt64.ofNat (ofBytes bs)).toNat = ofBytes bs :=
      UInt64.toNat_ofNat_of_lt' (Nat.lt_of_lt_of_eq hlt rfl)
    refine ⟨UInt64.ofNat (ofBytes bs), ?_, htoNat⟩
    rw [htoNat, ← hbs, toBytes_ofBytes]
  obtain ⟨timestamp, htimestamp, -⟩ := hnumber (block.take 8) (by rw [List.length_take]; omega)
  obtain ⟨messageSize, hmessage, hdeclared⟩ := hnumber ((block.drop 8).take 8)
    (by rw [List.length_take, List.length_drop]; omega)
  refine ⟨timestamp, messageSize, block.drop 16, ?_, hdeclared, by rw [List.length_drop]; omega⟩
  rw [htimestamp, hmessage, List.append_assoc]
  have hdrop : block.drop 16 = (block.drop 8).drop 8 := by rw [List.drop_drop]
  rw [hdrop, List.take_append_drop, List.take_append_drop]

theorem fromBuffer_noHeader {block : List UInt8} (h : block.length < 16) (size : Nat) :
    fromBuffer libc block size = .error (.undefined .outOfBounds) := by
  unfold fromBuffer
  by_cases h8 : block.length < 8
  · rw [decode_short (by omega)]
    rfl
  · have hlen : (block.take 8).length = 8 := by
      rw [List.length_take]
      omega
    have hread := decode_bytes [] (block.drop 8) hlen
    rw [List.nil_append, List.take_append_drop] at hread
    have hshort : decodeU64LE block 8 = .error (.undefined .outOfBounds) := decode_short (by omega)
    show decodeU64LE block ([] : List UInt8).length >>= _ = _
    rw [hread, ok_bind]
    simp only [hshort]
    rfl

/-- **`FromBuffer` stays inside, or throws, exactly if the event fits.** -/
theorem keepsInside_iff (libc : Libc) (block beyond : List UInt8) :
    KeepsInside libc block beyond ↔ Fits block := by
  by_cases h16 : 16 ≤ block.length
  · obtain ⟨timestamp, messageSize, rest, hblock, hdeclared, hlen⟩ := exists_header h16
    by_cases hfit : messageSize.toNat ≤ rest.length
    · have hfits : Fits block := ⟨h16, by omega⟩
      refine ⟨fun _ => hfits, fun _ => ⟨?_, fun hnot => absurd hfits hnot⟩⟩
      rw [hblock, fromBuffer_header, readRange, if_pos, ok_bind]
      · unfold Sized.build
        split <;> simp [bind, Except.bind, pure, Except.pure]
      · simp only [List.length_append, length_toBytes]
        omega
    · constructor
      · rintro ⟨hinside, -⟩
        refine absurd ?_ hinside
        rw [hblock]
        exact fromBuffer_short timestamp (by omega) _
      · rintro ⟨-, hfits⟩
        omega
  · constructor
    · rintro ⟨hinside, -⟩
      exact absurd (fromBuffer_noHeader (by omega) _) hinside
    · rintro ⟨hlen, -⟩
      omega

/-- A datagram of 508 bytes that declares a message of 493. -/
theorem not_keepsInside :
    ¬ KeepsInside .utc
      (toBytes 8 1609502400 ++ toBytes 8 493 ++ List.replicate 492 104) [] := by
  rintro ⟨hinside, -⟩
  refine absurd ?_ hinside
  have hshort : (List.replicate 492 (104 : UInt8)).length < (493 : UInt64).toNat := by
    rw [List.length_replicate]
    decide
  exact fromBuffer_short 1609502400 hshort _

/-- **A datagram is read back, whatever stands behind the event.** -/
theorem fromBuffer_intoBuffer (e : Event) (trailing : List UInt8) (size : Nat)
    (h : libc.Undoes (libc.mktime e.tm)) :
    ∃ e', fromBuffer libc (intoBuffer libc [e] ++ trailing) size = .ok [e'] ∧
      e'.getUnixTimestamp libc = e.getUnixTimestamp libc ∧ e'.message = e.message := by
  rw [intoBuffer_single]
  exact ⟨_, fromBuffer_record e trailing size, Event.ofTimestamp_timestamp h _, rfl⟩

theorem fromBuffer_intoBuffer_hi :
    ∃ e', fromBuffer .utc (intoBuffer .utc [hiYou] ++ [0, 7, 0]) 25 = .ok [e'] ∧
      e'.getUnixTimestamp .utc = hiYou.getUnixTimestamp .utc ∧ e'.message = hiYou.message :=
  fromBuffer_intoBuffer hiYou [0, 7, 0] 25 undoes_hiYou

example : intoBuffer .utc [hiYou] =
    [0xc0, 0x0e, 0xef, 0x5f, 0, 0, 0, 0, 6, 0, 0, 0, 0, 0, 0, 0, 104, 105, 32, 121, 111, 117] := by
  decide

end Psycal
