import Sprawl.Net.Udp
import Sprawl.Psycal.Message

/-!
# Sending an event (`psycal/session.cc`)

A datagram has `kMaxUDPSize` bytes, whatever it carries, and the server reads the event
from a buffer of that size.
An event arrives exactly if its record is as long (`delivers_iff`): from a shorter one
`Send` reads on behind its end, and a longer one is cut off, so that `fromBuffer` looks
for the rest behind the end of the server's buffer.
-/

namespace Psycal

open Cxx LittleEndian Net

/-- `Session::SendEvent`: the datagrams it hands the socket. -/
def sendEvent (libc : Libc) (event : Event) : Except Stop (List (List UInt8)) := do
  let buffer := intoBuffer libc [event]
  return [← send buffer]

/-- `SendEvent` refuses, or what it sends makes the same event on the server. -/
def Delivers (libc : Libc) (e : Event) : Prop :=
  sendEvent libc e = .ok [] ∨
    ∃ datagram, sendEvent libc e = .ok [datagram] ∧
      ∃ e', fromBuffer libc (receiveBuffer datagram) kMaxUDPSize = .ok [e'] ∧
        e'.getUnixTimestamp libc = e.getUnixTimestamp libc ∧ e'.message = e.message

variable {libc : Libc}

theorem length_record (e : Event) : (e.record libc).length = 16 + e.message.elems.length := by
  simp only [Event.record, List.length_append, length_toBytes]

theorem sendEvent_eq (e : Event) :
    sendEvent libc e = if 492 ≤ e.message.elems.length then .ok [(e.record libc).take kMaxUDPSize]
      else .error (.undefined .outOfBounds) := by
  have hlen := @length_record libc e
  unfold sendEvent send readRange kMaxUDPSize
  simp only [intoBuffer_single, hlen]
  by_cases h : 492 ≤ e.message.elems.length
  · rw [if_pos h, if_pos (by omega)]
    rfl
  · rw [if_neg h, if_neg (by omega)]
    rfl

/-- A record that is cut off. -/
theorem take_record {e : Event} :
    (e.record libc).take kMaxUDPSize = toBytes 8 (e.getUnixTimestamp libc).toNat ++
      toBytes 8 e.message.elems.length ++ e.message.elems.take 492 := by
  have hhead : (toBytes 8 (e.getUnixTimestamp libc).toNat ++
      toBytes 8 e.message.elems.length).length = 16 := by simp
  rw [Event.record, List.take_append, hhead, List.take_of_length_le (by rw [hhead]; decide)]
  rfl

/-- **An event arrives exactly if its record fills the datagram.** -/
theorem delivers_iff (e : Event) (h : libc.Undoes (libc.mktime e.tm)) :
    Delivers libc e ↔ e.message.elems.length = 492 := by
  have hlen := @length_record libc e
  unfold Delivers
  rw [sendEvent_eq]
  constructor
  · rintro (hrefuse | ⟨datagram, hsend, e', hread, -⟩)
    · split at hrefuse <;> cases hrefuse
    · split at hsend
      · next hle =>
        cases hsend
        rw [receiveBuffer_full (by rw [hlen, kMaxUDPSize]; omega), take_record,
          ← e.message_toNat] at hread
        by_contra hne
        rw [fromBuffer_short _ (by rw [e.message_toNat, List.length_take]; omega)] at hread
        cases hread
      · cases hsend
  · intro h492
    rw [if_pos (by omega)]
    refine .inr ⟨_, rfl, Event.ofTimestamp libc (e.getUnixTimestamp libc) e.message, ?_,
      Event.ofTimestamp_timestamp h _, rfl⟩
    rw [receiveBuffer_full (by rw [hlen, kMaxUDPSize]; omega),
      List.take_of_length_le (by rw [hlen, kMaxUDPSize]; omega)]
    have hread := @fromBuffer_record libc e [] kMaxUDPSize
    rwa [List.append_nil] at hread

theorem delivers_iff_hiYou : Delivers .utc hiYou ↔ hiYou.message.elems.length = 492 :=
  delivers_iff hiYou undoes_hiYou

/-- The six characters of "hi you" make a record of 22 bytes, of which `Send` reads 508. -/
theorem hiYou_not_delivered : ¬ Delivers .utc hiYou := by
  have hsend : sendEvent .utc hiYou = .error (.undefined .outOfBounds) := by decide
  unfold Delivers
  rw [hsend]
  rintro (h | ⟨datagram, h, -⟩)
  · cases h
  · cases h

end Psycal
