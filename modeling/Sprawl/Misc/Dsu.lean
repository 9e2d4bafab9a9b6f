import Sprawl.Lib.CString
import Sprawl.Psycal.Dump

/-!
# The status line (`misc/dsu.cc`)

Each turn of the loop clears a buffer of 256 `char`s and lets four engravers append to it:
the events of the calendar, a reminder, the charge of the batteries and the date.  They call
`strncat` with the size of the whole buffer, which bounds what is appended and not where it
ends.  A turn stays inside the buffer exactly when all the texts together leave a place for
the NUL (`engrave_inside_iff`); without a battery the third engraver divides by zero, and
the last two texts do not come.
-/

namespace Dsu

open Cxx Cstring Psycal

/-! ## The code -/

/-- `char buffer[256]` -/
def bufferSize : Nat := 256

/-- `printf("%0*d", width, n)` -/
def zeroPadded (width : Nat) (n : Int) : List Char :=
  if n < 0 then '-' :: setw '0' (width - 1) (Nat.toDigits 10 n.natAbs)
  else setw '0' width (Nat.toDigits 10 n.natAbs)

/-- `sprintf(store, …)` into an array of `size` characters. -/
def sprintf (size : Nat) (text : List Char) : Except Stop (List Char) :=
  if text.length < size then .ok text else .error (.undefined .outOfBounds)

/-- `snprintf(store, size, …)` -/
def snprintf (size : Nat) (text : List Char) : List Char := text.take (size - 1)

/-- `c_str()` up to its first NUL. -/
def cStr (message : Sized UInt8) : List Char :=
  (message.elems.takeWhile (· ≠ 0)).map fun c => Char.ofNat c.toNat

/-- `strftime` with `"%Hh%M"` -/
def hourglass (tm : Tm) : List Char := zeroPadded 2 tm.hour ++ 'h' :: zeroPadded 2 tm.min

/-- The body of the loop of `EngraveCalendar`. -/
def engraveEvent (buffSize : Nat) (buffer : Block Char) (event : Event) :
    Except Stop (Block Char) := do
  let buffer ← strncat buffer (hourglass event.tm) buffSize
  let buffer ← strncat buffer ":".toList buffSize
  let buffer ← strncat buffer (cStr event.message) buffSize
  strncat buffer "/".toList buffSize

/-- `EngraveCalendar`, with what `ReadEventsFrom` returned. -/
def engraveCalendar (events : List Event) (buffSize : Nat) (buffer : Block Char) :
    Except Stop (Block Char) := do
  let buffer ← strncat buffer "[".toList buffSize
  let buffer ← events.foldlM (engraveEvent buffSize) buffer
  strncat buffer "]".toList buffSize

/-- The array of `EngraveReminder`, up to its zero. -/
def reminder : List Char := ['[', '\xe6', '\xad', '\xa3', '\xe7', '\xbe', '\xa9', ']']

def engraveReminder (size : Nat) (buffer : Block Char) : Except Stop (Block Char) :=
  strncat buffer reminder size

def maxBatteries : Nat := 32

/-- The number in a file of the batteries, of which three bytes are read; digits are not
checked. -/
def batteryPower (contents : List UInt8) : UInt16 :=
  (((contents ++ List.replicate 3 0).take 3).takeWhile (· ≠ 0x0a)).foldl
    (fun (tmpPower : UInt16) (currChar : UInt8) => (currChar.toUInt16 - 48) + tmpPower * 10) 0

/-- `cumulative_power / bat_count`, for the files up to the first that is not there. -/
def batteryCharge (batteries : List (List UInt8)) : Nat :=
  ((batteries.map batteryPower).foldl (· + ·) 0).toNat / batteries.length

def batteryText (batteries : List (List UInt8)) : List Char :=
  "[BAT:".toList ++ zeroPadded 3 (batteryCharge (batteries.take maxBatteries)) ++ "]".toList

/-- `EngraveBattery`, with the contents of the files of `BAT0`, `BAT1`, …. -/
def engraveBattery (batteries : List (List UInt8)) (size : Nat) (buffer : Block Char) :
    Except Stop (Block Char) :=
  if (batteries.take maxBatteries).length = 0 then .error (.undefined .divisionByZero)
  else strncat buffer (snprintf 16 (batteryText batteries)) size

def dateText (time : Tm) : List Char :=
  "[".toList ++ zeroPadded 2 time.hour ++ ":".toList ++ zeroPadded 2 time.min ++ "][".toList ++
    zeroPadded 2 time.mday ++ "/".toList ++ zeroPadded 2 (time.mon + 1) ++ "/".toList ++
    zeroPadded 2 (time.year + 1900) ++ "]".toList

/-- `EngraveDate`, at this local time. -/
def engraveDate (time : Tm) (size : Nat) (buffer : Block Char) : Except Stop (Block Char) := do
  let store ← sprintf 64 (dateText time)
  strncat buffer store size

/-- One turn of the loop of `main`: the buffer afterwards. -/
def engrave (events : List Event) (batteries : List (List UInt8)) (time : Tm)
    (buffer : Block Char) : Except Stop (Block Char) := do
  let buffer ← memset buffer 0 nul bufferSize
  let buffer ← engraveCalendar events bufferSize buffer
  let buffer ← engraveReminder bufferSize buffer
  let buffer ← engraveBattery batteries bufferSize buffer
  engraveDate time bufferSize buffer

/-! ## How much is appended -/

/-- What `localtime` promises of the hour and the minute. -/
structure InDay (tm : Tm) : Prop where
  hour : 0 ≤ tm.hour ∧ tm.hour < 24
  min : 0 ≤ tm.min ∧ tm.min < 60

/-- What it promises of a date; the year is an `int` also when it is counted from 0. -/
structure InCalendar (tm : Tm) : Prop extends InDay tm where
  mday : 0 ≤ tm.mday ∧ tm.mday ≤ 31
  mon : 0 ≤ tm.mon ∧ tm.mon < 12
  year : -2 ^ 31 ≤ tm.year ∧ tm.year + 1900 < 2 ^ 31

/-- The characters of an event: the time and its delimiters, and the message. -/
def eventLength (event : Event) : Nat := 7 + (cStr event.message).length

/-- The characters of a turn. -/
def needed (events : List Event) (batteries : List (List UInt8)) (time : Tm) : Nat :=
  2 + (events.map eventLength).sum + 8 +
    if batteries = [] then 0
    else
      6 + (zeroPadded 3 (batteryCharge (batteries.take maxBatteries))).length +
        (15 + (zeroPadded 2 (time.year + 1900)).length)

/-! ### Texts -/

theorem nul_notMem_toDigits (n : Nat) : nul ∉ Nat.toDigits 10 n := by
  obtain ⟨ds, hlt, hmap, -⟩ := exists_digits n (show 1 < 10 by decide)
  have hdigit : ∀ d < 10, Nat.digitChar d ≠ nul := by decide
  rw [hmap]
  intro hmem
  obtain ⟨d, hd, hnul⟩ := List.mem_map.1 hmem
  exact hdigit d (hlt d hd) hnul

theorem nul_notMem_setw (width n : Nat) : nul ∉ setw '0' width (Nat.toDigits 10 n) := by
  unfold setw
  rw [List.mem_append, not_or]
  refine ⟨fun hmem => ?_, nul_notMem_toDigits n⟩
  exact absurd (List.eq_of_mem_replicate hmem) (by decide)

theorem nul_notMem_zeroPadded (width : Nat) (n : Int) : nul ∉ zeroPadded width n := by
  unfold zeroPadded
  split
  · rw [List.mem_cons, not_or]
    exact ⟨by decide, nul_notMem_setw _ _⟩
  · exact nul_notMem_setw _ _

theorem nul_notMem_cStr (message : Sized UInt8) : nul ∉ cStr message := by
  intro hmem
  obtain ⟨c, hc, hnul⟩ := List.mem_map.1 hmem
  have hne : c ≠ 0 := by simpa using List.mem_takeWhile_imp hc
  have hzero := congrArg Char.toNat hnul
  rw [toNat_ofNat_byte] at hzero
  exact hne (UInt8.toNat_inj.1 hzero)

/-- A number of one or two digits. -/
theorem length_zeroPadded {n : Int} (h : 0 ≤ n ∧ n < 100) : (zeroPadded 2 n).length = 2 := by
  obtain ⟨m, rfl⟩ := Int.eq_ofNat_of_zero_le h.1
  have hall : ∀ m < 100, (zeroPadded 2 (m : Nat)).length = 2 := by decide +kernel
  exact hall m (by omega)

theorem length_zeroPadded_le {width k : Nat} {n : Int} (hk : 0 < k) (hwidth : width ≤ k)
    (h : n.natAbs < 10 ^ k) : (zeroPadded width n).length ≤ k + 1 := by
  have hdigits := (Nat.length_toDigits_le_iff (show 1 < 10 by decide) hk).2 h
  unfold zeroPadded setw
  split
  · rw [List.length_cons, List.length_append, List.length_replicate]
    omega
  · rw [List.length_append, List.length_replicate]
    omega

theorem length_hourglass {tm : Tm} (h : InDay tm) : (hourglass tm).length = 5 := by
  obtain ⟨⟨hhour, hhour'⟩, hmin, hmin'⟩ := h
  unfold hourglass
  rw [List.length_append, List.length_cons, length_zeroPadded ⟨hhour, by omega⟩,
    length_zeroPadded ⟨hmin, by omega⟩]

theorem length_dateText {time : Tm} (h : InCalendar time) :
    (dateText time).length = 15 + (zeroPadded 2 (time.year + 1900)).length := by
  obtain ⟨⟨⟨hhour, hhour'⟩, hmin, hmin'⟩, ⟨hmday, hmday'⟩, ⟨hmon, hmon'⟩, -⟩ := h
  unfold dateText
  simp only [List.length_append, length_zeroPadded (n := time.hour) ⟨hhour, by omega⟩,
    length_zeroPadded (n := time.min) ⟨hmin, by omega⟩,
    length_zeroPadded (n := time.mday) ⟨hmday, by omega⟩,
    length_zeroPadded (n := time.mon + 1) ⟨by omega, by omega⟩]
  show 1 + 2 + 1 + 2 + 2 + 2 + 1 + 2 + 1 + _ + 1 = _
  omega

/-- The charge is at most the sum, which is a `uint16_t`: the text fits its array. -/
theorem length_batteryText (batteries : List (List UInt8)) :
    (batteryText batteries).length =
        6 + (zeroPadded 3 (batteryCharge (batteries.take maxBatteries))).length ∧
      (batteryText batteries).length < 16 := by
  have hcharge : batteryCharge (batteries.take maxBatteries) < 10 ^ 5 := by
    unfold batteryCharge
    refine Nat.lt_of_le_of_lt (Nat.div_le_self _ _) ?_
    exact Nat.lt_trans (UInt16.toNat_lt _) (by decide)
  have hle := @length_zeroPadded_le 3 5 (batteryCharge (batteries.take maxBatteries)) (by decide)
    (by decide) hcharge
  have hlen : (batteryText batteries).length =
      6 + (zeroPadded 3 (batteryCharge (batteries.take maxBatteries))).length := by
    unfold batteryText
    rw [List.length_append, List.length_append]
    show 5 + _ + 1 = _
    omega
  exact ⟨hlen, by omega⟩

/-! ### The engravers -/

def eventText (event : Event) : List Char :=
  hourglass event.tm ++ (":".toList ++ (cStr event.message ++ "/".toList))

def calendarText (events : List Event) : List Char :=
  "[".toList ++ (events.flatMap eventText ++ "]".toList)

section
variable (size : Nat)

theorem appends_engraveEvent (event : Event) :
    Appends size (fun buffer => engraveEvent size buffer event) (eventText event) := by
  have htime : nul ∉ hourglass event.tm := by
    unfold hourglass
    rw [List.mem_append, List.mem_cons, not_or, not_or]
    exact ⟨nul_notMem_zeroPadded _ _, by decide, nul_notMem_zeroPadded _ _⟩
  have hmessage := nul_notMem_cStr event.message
  exact (appends_strncat size htime).bind ((appends_strncat size (by decide)).bind
    ((appends_strncat size hmessage).bind (appends_strncat size (by decide))))

theorem appends_engraveCalendar (events : List Event) :
    Appends size (engraveCalendar events size) (calendarText events) :=
  (appends_strncat size (by decide)).bind ((appends_foldlM (appends_engraveEvent size) events).bind
    (appends_strncat size (by decide)))

theorem appends_engraveReminder : Appends size (engraveReminder size) reminder :=
  appends_strncat size (by decide)

theorem appends_engraveBattery {batteries : List (List UInt8)} (h : batteries ≠ []) :
    Appends size (engraveBattery batteries size) (batteryText batteries) := by
  have hne : ¬ (batteries.take maxBatteries).length = 0 := by
    rw [List.length_eq_zero_iff, List.take_eq_nil_iff]
    rintro (hzero | hnil)
    · cases hzero
    · exact h hnil
  have htext : snprintf 16 (batteryText batteries) = batteryText batteries :=
    List.take_of_length_le (Nat.le_of_lt_succ (length_batteryText batteries).2)
  have hnul : nul ∉ batteryText batteries := by
    unfold batteryText
    rw [List.mem_append, List.mem_append, not_or, not_or]
    exact ⟨⟨by decide, nul_notMem_zeroPadded _ _⟩, by decide⟩
  unfold engraveBattery
  simp only [if_neg hne, htext]
  exact appends_strncat size hnul

theorem appends_engraveDate {time : Tm} (h : InCalendar time) :
    Appends size (engraveDate time size) (dateText time) := by
  have hyear := @length_zeroPadded_le 2 10 (time.year + 1900) (by decide) (by decide) (by
    have hy := h.year
    omega)
  have hsprintf : sprintf 64 (dateText time) = .ok (dateText time) := by
    unfold sprintf
    rw [if_pos]
    rw [length_dateText h]
    omega
  have hnul : nul ∉ dateText time := by
    unfold dateText
    simp only [List.mem_append, not_or, nul_notMem_zeroPadded, not_false_eq_true, and_true]
    decide
  unfold engraveDate
  rw [hsprintf]
  exact appends_strncat size hnul

end

/-! ## The turn -/

/-- The buffer behind `memset`. -/
def cleared : Block Char := List.replicate bufferSize (some nul)

theorem stores_cleared : Stores cleared [] :=
  ⟨List.not_mem_nil, List.replicate (bufferSize - 1) (some nul), rfl⟩

/-- What is appended to an empty buffer stays inside exactly when it leaves a place for the NUL. -/
theorem inside_iff {f : Block Char → Except Stop (Block Char)} {text : List Char}
    (hf : Appends bufferSize f text) :
    f cleared ≠ .error (.undefined .outOfBounds) ↔ text.length ≤ 255 := by
  have hsize : bufferSize = 256 := rfl
  rcases hf cleared [] List.length_replicate stores_cleared with
    ⟨hfits, buffer, hok, -, -⟩ | ⟨hfull, herror⟩
  · rw [List.length_nil] at hfits
    rw [hok]
    exact iff_of_true (fun h => by cases h) (by omega)
  · rw [List.length_nil] at hfull
    rw [herror]
    exact iff_of_false (fun h => h rfl) (by omega)

theorem engrave_eq (events : List Event) (batteries : List (List UInt8)) (time : Tm)
    {buffer : Block Char} (hbuffer : buffer.length = bufferSize) :
    engrave events batteries time buffer =
      (engraveCalendar events bufferSize cleared >>= engraveReminder bufferSize) >>= fun buffer =>
        engraveBattery batteries bufferSize buffer >>= engraveDate time bufferSize := by
  have hclear : memset buffer 0 nul bufferSize = .ok cleared := by
    have h := @memset_append _ [] buffer [] nul 0 bufferSize rfl hbuffer.symm
    rwa [List.nil_append, List.append_nil, List.nil_append, List.append_nil] at h
  unfold engrave
  rw [hclear, ok_bind, bind_assoc]

/-- Without a battery the division comes before the last two texts. -/
theorem engrave_none_inside_iff (events : List Event) (time : Tm) {buffer : Block Char}
    (hbuffer : buffer.length = bufferSize) :
    engrave events [] time buffer ≠ .error (.undefined .outOfBounds) ↔
      (calendarText events ++ reminder).length ≤ 255 := by
  rw [engrave_eq events [] time hbuffer, ← inside_iff
    ((appends_engraveCalendar bufferSize events).bind (appends_engraveReminder bufferSize))]
  cases engraveCalendar events bufferSize cleared >>= engraveReminder bufferSize with
  | error e => exact Iff.rfl
  | ok buffer =>
    refine iff_of_true (fun h => ?_) (fun h => ?_)
    · cases h
    · cases h

theorem engrave_batteries_inside_iff (events : List Event) {batteries : List (List UInt8)}
    (hbatteries : batteries ≠ []) {time : Tm} (htime : InCalendar time) {buffer : Block Char}
    (hbuffer : buffer.length = bufferSize) :
    engrave events batteries time buffer ≠ .error (.undefined .outOfBounds) ↔
      (calendarText events ++ reminder ++ (batteryText batteries ++ dateText time)).length ≤
        255 := by
  rw [engrave_eq events batteries time hbuffer, ← inside_iff
    (((appends_engraveCalendar bufferSize events).bind (appends_engraveReminder bufferSize)).bind
      ((appends_engraveBattery bufferSize hbatteries).bind
        (appends_engraveDate bufferSize htime)))]

theorem localTime_inDay {libc : Libc} (hlibc : ∀ t tm, libc.localtimeR t = some tm → InDay tm)
    (t : Int64) : InDay (libc.localTime t) := by
  unfold Libc.localTime
  cases h : libc.localtimeR t with
  | none => exact ⟨by decide, by decide⟩
  | some tm => exact hlibc t tm h

theorem readEvent_tm {libc : Libc} {is is' : Stream} {event : Event}
    (h : readEvent libc is = .ok (is', event)) : ∃ t, event.tm = libc.localTime t := by
  unfold readEvent at h
  simp only at h
  split at h
  · cases h
  · obtain ⟨chars, -, h⟩ := bind_eq_ok.1 h
    obtain ⟨message, -, h⟩ := bind_eq_ok.1 h
    obtain ⟨-, rfl⟩ := Prod.mk.inj (Except.ok.inj h)
    exact ⟨_, rfl⟩

/-- The times of the events are times of a day. -/
theorem read_inDay {libc : Libc} (hlibc : ∀ t tm, libc.localtimeR t = some tm → InDay tm)
    {file : List UInt8} {events : List Event} (hread : ReadEventsFrom libc file (.ok events)) :
    ∀ e ∈ events, InDay e.tm := by
  have hstep : ∀ s t : ReadState, (∀ e ∈ s.ret, InDay e.tm) →
      readEventsBody libc s = .again t → ∀ e ∈ t.ret, InDay e.tm := by
    intro s t hs hagain
    unfold readEventsBody at hagain
    split at hagain
    · cases hagain
    · split at hagain
      · cases hagain
      · split at hagain
        · cases hagain
        · next hevent =>
          obtain rfl := Loop.Turn.again.inj hagain
          obtain ⟨time, htm⟩ := readEvent_tm hevent
          intro e he
          rcases List.mem_append.1 he with he | he
          · exact hs e he
          · rw [List.mem_singleton.1 he, htm]
            exact localTime_inDay hlibc time
  obtain ⟨t, ht, hdone⟩ := hread.invariant _ hstep (by simp)
  unfold readEventsBody at hdone
  split at hdone
  · obtain rfl := Except.ok.inj (Loop.Turn.done.inj hdone)
    exact ht
  · split at hdone
    · obtain rfl := Except.ok.inj (Loop.Turn.done.inj hdone)
      exact ht
    · split at hdone
      · cases hdone
      · cases hdone

theorem length_calendarText {events : List Event} (h : ∀ e ∈ events, InDay e.tm) :
    (calendarText events).length = 2 + (events.map eventLength).sum := by
  have hevents : (events.flatMap eventText).length = (events.map eventLength).sum := by
    rw [List.length_flatMap]
    congr 1
    refine List.map_congr_left fun e he => ?_
    unfold eventText eventLength
    simp only [List.length_append, length_hourglass (h e he)]
    show 5 + (1 + (_ + 1)) = _
    omega
  unfold calendarText
  rw [List.length_append, List.length_append, hevents]
  show 1 + (_ + 1) = _
  omega

/-- **A turn stays inside the buffer exactly when it appends at most 255 characters.** -/
theorem engrave_inside_iff {libc : Libc}
    (hlibc : ∀ t tm, libc.localtimeR t = some tm → InDay tm) {file : List UInt8}
    {events : List Event} (hread : ReadEventsFrom libc file (.ok events))
    (batteries : List (List UInt8)) {time : Tm} (htime : InCalendar time) {buffer : Block Char}
    (hbuffer : buffer.length = bufferSize) :
    engrave events batteries time buffer ≠ .error (.undefined .outOfBounds) ↔
      needed events batteries time ≤ 255 := by
  have hcalendar := length_calendarText (read_inDay hlibc hread)
  by_cases hnone : batteries = []
  · subst hnone
    have hneeded : needed events [] time = (calendarText events ++ reminder).length := by
      rw [List.length_append, hcalendar]
      rfl
    rw [hneeded]
    exact engrave_none_inside_iff events time hbuffer
  · have hneeded : needed events batteries time =
        (calendarText events ++ reminder ++ (batteryText batteries ++ dateText time)).length := by
      rw [List.length_append, List.length_append, List.length_append, hcalendar,
        length_dateText htime, (length_batteryText batteries).1, needed, if_neg hnone]
      rfl
    rw [hneeded]
    exact engrave_batteries_inside_iff events hnone htime hbuffer

theorem utc_inDay (t : Int64) (tm : Tm) (h : Libc.utc.localtimeR t = some tm) : InDay tm := by
  unfold Libc.utc at h
  simp only at h
  split at h
  · obtain rfl := Option.some.inj h
    exact ⟨⟨by simp only; omega, by simp only; omega⟩, ⟨by simp only; omega, by simp only; omega⟩⟩
  · cases h

theorem inCalendar_hiYou : InCalendar hiYou.tm :=
  ⟨⟨by decide, by decide⟩, by decide, by decide, by decide⟩

/-- The buffer in front of the first turn. -/
def blank : Block Char := List.replicate bufferSize none

theorem length_blank : blank.length = bufferSize := List.length_replicate

/-- The event of the tests, saved with a zero byte behind its message. -/
def saved : Event := ⟨hiYou.tm, ⟨hiYou.message.elems ++ [0], by decide⟩⟩

theorem engrave_inside_iff_hiYou :
    engrave [hiYou] [[0x39, 0x39, 0x0a]] hiYou.tm blank ≠ .error (.undefined .outOfBounds) ↔
      needed [hiYou] [[0x39, 0x39, 0x0a]] hiYou.tm ≤ 255 := by
  have hrecords := @read_records Libc.utc [saved] []
  have hrestored : [saved].mapM (Event.restored .utc) = .ok [hiYou] := by decide +kernel
  rw [hrestored] at hrecords
  exact engrave_inside_iff utc_inDay hrecords _ inCalendar_hiYou length_blank

/-- A message of 256 characters does not fit. -/
def long : Event := ⟨hiYou.tm, ⟨List.replicate 256 97, by rw [List.length_replicate]; decide⟩⟩

def savedLong : Event := ⟨hiYou.tm, ⟨List.replicate 256 97 ++ [0], by
  rw [List.length_append, List.length_replicate]; decide⟩⟩

theorem not_engrave_inside :
    ¬ ∀ (libc : Libc) (file : List UInt8) (events : List Event) (batteries : List (List UInt8))
      (time : Tm) (buffer : Block Char),
      (∀ t tm, libc.localtimeR t = some tm → InDay tm) → ReadEventsFrom libc file (.ok events) →
      InCalendar time → buffer.length = bufferSize →
      engrave events batteries time buffer ≠ .error (.undefined .outOfBounds) := by
  intro h
  have hrecords := @read_records Libc.utc [savedLong] []
  have hrestored : [savedLong].mapM (Event.restored .utc) = .ok [long] := by decide +kernel
  rw [hrestored] at hrecords
  have hinside := h Libc.utc _ [long] [] hiYou.tm blank utc_inDay hrecords inCalendar_hiYou
    length_blank
  rw [engrave_none_inside_iff [long] hiYou.tm length_blank] at hinside
  have hlen : (calendarText [long] ++ reminder).length = 273 := by decide +kernel
  omega

end Dsu
