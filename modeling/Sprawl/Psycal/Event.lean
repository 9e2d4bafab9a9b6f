import Sprawl.Common.Codec

/-!
# Events (`psycal/event.cc`)

An event is a time and a message.  What the time means is for libc to say, which knows
the time zone of the host: `Libc` stands for its two conversions, and `Libc.utc` is a
host in UTC.
-/

namespace Psycal

open Cxx Codec LittleEndian

/-! ## The calendar of libc -/

/-- `std::tm`. -/
structure Tm where
  sec : Int := 0
  min : Int := 0
  hour : Int := 0
  mday : Int := 0
  mon : Int := 0
  year : Int := 0
  wday : Int := 0
  yday : Int := 0
  isdst : Int := 0
deriving DecidableEq, Repr

/-- `mktime` and `localtime_r`, which gives nothing when the year does not fit. -/
structure Libc where
  mktime : Tm → Int64
  localtimeR : Int64 → Option Tm

/-- `std::tm result = {0}` behind `localtime_r(&t, &result)`. -/
def Libc.localTime (libc : Libc) (t : Int64) : Tm := (libc.localtimeR t).getD {}

/-- `mktime` undoes `localtime_r` on `t`. -/
def Libc.Undoes (libc : Libc) (t : Int64) : Prop :=
  ∃ tm, libc.localtimeR t = some tm ∧ libc.mktime tm = t

/-- Days from 1970-01-01 to a date of the Gregorian calendar. -/
def daysFromCivil (year month day : Int) : Int :=
  let y := if month ≤ 2 then year - 1 else year
  let era := y / 400
  let yoe := y - era * 400
  let doy := (153 * (if 2 < month then month - 3 else month + 9) + 2) / 5 + day - 1
  era * 146097 + yoe * 365 + yoe / 4 - yoe / 100 + doy - 719468

/-- The date that many days after 1970-01-01: year, month and day. -/
def civilFromDays (days : Int) : Int × Int × Int :=
  let era := (days + 719468) / 146097
  let doe := days + 719468 - era * 146097
  let yoe := (doe - doe / 1460 + doe / 36524 - doe / 146096) / 365
  let doy := doe - (365 * yoe + yoe / 4 - yoe / 100)
  let mp := (5 * doy + 2) / 153
  let month := if mp < 10 then mp + 3 else mp - 9
  (yoe + era * 400 + if month ≤ 2 then 1 else 0, month, doy - (153 * mp + 2) / 5 + 1)

/-- The calendar of a host in UTC. -/
def Libc.utc : Libc where
  mktime tm :=
    let days := daysFromCivil (tm.year + 1900 + tm.mon / 12) (tm.mon % 12 + 1) tm.mday
    let t := days * 86400 + tm.hour * 3600 + tm.min * 60 + tm.sec
    if -2 ^ 63 ≤ t ∧ t < 2 ^ 63 then Int64.ofInt t else -1
  localtimeR t :=
    let days := t.toInt / 86400
    let secs := t.toInt % 86400
    let (year, month, day) := civilFromDays days
    if -2 ^ 31 ≤ year - 1900 ∧ year - 1900 < 2 ^ 31 then
      some
        { sec := secs % 60, min := secs / 60 % 60, hour := secs / 3600, mday := day,
          mon := month - 1, year := year - 1900, wday := (days + 4) % 7,
          yday := days - daysFromCivil year 1 1 }
    else none

/-! ## Events -/

structure Event where
  tm : Tm
  message : Sized UInt8
deriving DecidableEq

section
variable (libc : Libc)

def Event.getUnixTimestamp (e : Event) : UInt64 := (libc.mktime e.tm).toUInt64

def Event.getEncodedMessage (e : Event) : List UInt8 :=
  (encodeU64LE e.message.elems.length.toUInt64 []).2 ++ e.message.elems

/-- `Event::SoonerCmp`. -/
def Event.SoonerCmp (a b : Event) : Prop := b.getUnixTimestamp libc < a.getUnixTimestamp libc

/-- An event read back: what `time_t(timestamp)` and the message make. -/
def Event.ofTimestamp (timestamp : UInt64) (message : Sized UInt8) : Event :=
  ⟨libc.localTime timestamp.toInt64, message⟩

/-- The timestamp and the message, which is what is stored and sent. -/
def Event.content (e : Event) : UInt64 × List UInt8 := (e.getUnixTimestamp libc, e.message.elems)

end

/-- The bytes of an event, in a datagram and in a file. -/
def Event.record (libc : Libc) (e : Event) : List UInt8 :=
  toBytes 8 (e.getUnixTimestamp libc).toNat ++ toBytes 8 e.message.elems.length ++ e.message.elems

variable {libc : Libc}

theorem Libc.Undoes.mktime {t : Int64} (h : libc.Undoes t) :
    libc.mktime (libc.localTime t) = t := by
  obtain ⟨tm, hlocal, hmk⟩ := h
  rw [Libc.localTime, hlocal, Option.getD_some, hmk]

/-- An event whose time `mktime` undoes keeps its timestamp. -/
theorem Event.ofTimestamp_timestamp {e : Event} (h : libc.Undoes (libc.mktime e.tm))
    (message : Sized UInt8) :
    (Event.ofTimestamp libc (e.getUnixTimestamp libc) message).getUnixTimestamp libc =
      e.getUnixTimestamp libc := by
  unfold Event.getUnixTimestamp Event.ofTimestamp
  rw [Int64.toInt64_toUInt64, h.mktime]

theorem Event.message_toNat (e : Event) :
    e.message.elems.length.toUInt64.toNat = e.message.elems.length := by
  have h := e.message.size_lt
  exact UInt64.toNat_ofNat_of_lt' (Nat.lt_trans h (by decide))

theorem Event.encodedMessage_eq (e : Event) :
    e.getEncodedMessage = toBytes 8 e.message.elems.length ++ e.message.elems := by
  rw [Event.getEncodedMessage, encode_eq, List.nil_append, e.message_toNat]

/-- The event of the tests, 2021-01-01 12:00:00 UTC with the message "hi you". -/
def hiYou : Event :=
  ⟨{ hour := 12, mday := 1, year := 121, wday := 5 }, ⟨[104, 105, 32, 121, 111, 117], by decide⟩⟩

theorem undoes_hiYou : Libc.utc.Undoes (Libc.utc.mktime hiYou.tm) := ⟨hiYou.tm, by decide⟩

end Psycal
