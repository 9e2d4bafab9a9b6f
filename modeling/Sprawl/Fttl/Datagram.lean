import Sprawl.Common.Codec
import Sprawl.Fttl.Server

/-!
# The datagram of the client (`fttl/fttl.cc`)

The client moves a cursor over 1024 `char`s: four bytes of the path's size, the path,
eight bytes of the timestamp, lowest byte first, and sends what is in front of the
cursor.  The server reads into 1024 bytes that were zero and takes the three parts out
again by the same shifts.

    sendMessage path timestamp = .ok datagram → decode datagram = .ok (path, timestamp)

for every path that leaves room for the timestamp (`decode_sendMessage`); with a longer
one the client writes past its buffer (`sendMessage_overflow`).
-/

namespace Fttl

open Cxx Codec LittleEndian

/-- `message_len` of the client, `message_size` of the server. -/
def messageLen : Nat := 1024

/-- The shifts of `path_size`, in the order of the lines. -/
def pathSizeShifts : List UInt64 := [0, 8, 16, 24]

def timestampShifts : List UInt64 := [0, 8, 16, 24, 32, 40, 48, 56]

/-! ## The client -/

/-- `char buffer[message_len]` and the cursor. -/
structure Message where
  buffer : Vector Int8 messageLen
  cursor : Nat

def Message.empty : Message := { buffer := Vector.replicate messageLen 0, cursor := 0 }

/-- `buffer[cursor++] = c` -/
def Message.put (m : Message) (c : Int8) : Except Stop Message :=
  if h : m.cursor < messageLen then
    .ok { buffer := m.buffer.set m.cursor c, cursor := m.cursor + 1 }
  else .error (.undefined .outOfBounds)

def Message.putAll (m : Message) : List Int8 → Except Stop Message
  | [] => .ok m
  | c :: cs => do
    let m ← m.put c
    m.putAll cs

/-- `0xff & (x >> shift)`, stored in a `char`. -/
def byteAt (x shift : UInt64) : Int8 := (0xff &&& (x >>> shift)).toUInt8.toInt8

/-- The bytes `sendto` is given. -/
def Message.sent (m : Message) : List UInt8 := (m.buffer.toList.take m.cursor).map Int8.toUInt8

/-- `send_message_fn(path, timestamp)`: the datagram. -/
def sendMessage (path : List Int8) (timestamp : List Char) : Except Stop (List UInt8) := do
  let pathSize := path.length.toUInt64
  let m ← Message.empty.putAll (pathSizeShifts.map (byteAt pathSize))
  let m ← m.putAll path
  match stoull 10 timestamp with
  | .error _ => .error .exception
  | .ok timestamp =>
    let m ← m.putAll (timestampShifts.map (byteAt timestamp))
    return m.sent

/-! ## The server -/

/-- The buffer behind `read`. -/
def receiveBuffer (datagram : List UInt8) : List UInt8 :=
  datagram.take messageLen ++ List.replicate (messageLen - datagram.length) 0

/-- `x |= std::uint64_t(buffer[cursor++]) << shift`, for each shift. -/
def readNumber (buffer : List UInt8) (x : UInt64) (cursor : Nat) :
    List UInt64 → Except Stop (UInt64 × Nat)
  | [] => .ok (x, cursor)
  | shift :: shifts => do
    let b ← readAt buffer cursor
    readNumber buffer (x ||| b.toUInt64 <<< shift) (cursor + 1) shifts

/-- `path += static_cast<char>(buffer[cursor++])`, `n` times. -/
def readPath (buffer : List UInt8) (path : List Int8) (cursor : Nat) :
    Nat → Except Stop (List Int8 × Nat)
  | 0 => .ok (path, cursor)
  | n + 1 => do
    let b ← readAt buffer cursor
    readPath buffer (path ++ [b.toInt8]) (cursor + 1) n

/-- The path and the timestamp that `Run` takes out of its buffer. -/
def decodeBuffer (buffer : List UInt8) : Except Stop (List Int8 × UInt64) := do
  let (pathSize, cursor) ← readNumber buffer 0 0 pathSizeShifts
  let (path, cursor) ← readPath buffer [] cursor pathSize.toNat
  let (timestamp, _) ← readNumber buffer 0 cursor timestampShifts
  return (path, timestamp)

/-- The path and the timestamp that `Run` takes out of a datagram. -/
def decode (datagram : List UInt8) : Except Stop (List Int8 × UInt64) :=
  decodeBuffer (receiveBuffer datagram)

/-- The characters of a path. -/
def pathText (path : List Int8) : List Char := path.map fun c => Char.ofNat c.toUInt8.toNat

/-- One turn of `Run`. -/
def run (files : Files) (datagram : List UInt8) : Except Stop Files := do
  let (path, timestamp) ← decode datagram
  return insertPair files timestamp (pathText path)

/-! ## What the client writes -/

theorem Message.sent_empty : Message.empty.sent = [] := by
  simp [Message.sent, Message.empty]

theorem Message.put_spec {m : Message} (h : m.cursor < messageLen) (c : Int8) :
    ∃ m', m.put c = .ok m' ∧ m'.sent = m.sent ++ [c.toUInt8] ∧ m'.cursor = m.cursor + 1 := by
  unfold Message.put
  rw [dif_pos h]
  refine ⟨_, rfl, ?_, rfl⟩
  have hlen : m.cursor < (m.buffer.toList.set m.cursor c).length := by simpa using h
  unfold Message.sent
  rw [Vector.toList_set, List.take_succ_eq_append_getElem hlen, List.getElem_set_self,
    List.take_set_of_le (Nat.le_refl _), List.map_append, List.map_singleton]

/-- Characters that fit are written behind the cursor. -/
theorem Message.putAll_spec (cs : List Int8) {m : Message}
    (h : m.cursor + cs.length ≤ messageLen) :
    ∃ m', m.putAll cs = .ok m' ∧ m'.sent = m.sent ++ cs.map Int8.toUInt8 ∧
      m'.cursor = m.cursor + cs.length := by
  induction cs generalizing m with
  | nil => exact ⟨m, rfl, by simp, rfl⟩
  | cons c cs ih =>
    rw [List.length_cons] at h
    obtain ⟨m1, hput, hsent, hcursor⟩ := Message.put_spec (show m.cursor < messageLen by omega) c
    obtain ⟨m2, hputAll, hsent', hcursor'⟩ := @ih m1 (by omega)
    refine ⟨m2, ?_, ?_, ?_⟩
    · rw [Message.putAll, hput, ok_bind, hputAll]
    · rw [hsent', hsent, List.map_cons, List.append_assoc]
      rfl
    · rw [hcursor', hcursor, List.length_cons]
      omega

theorem byteAt_eq (x : UInt64) {k : Nat} (hk : k < 64) :
    (byteAt x k.toUInt64).toUInt8 = UInt8.ofNat (x.toNat / 2 ^ k) := by
  have hshift : k.toUInt64.toNat % 64 = k := by
    simp [Nat.mod_eq_of_lt hk]
  have hmask : ((0xff : UInt64) &&& (x >>> k.toUInt64)).toNat = x.toNat / 2 ^ k % 256 := by
    rw [UInt64.toNat_and, UInt64.toNat_shiftRight, hshift, Nat.shiftRight_eq_div_pow, Nat.and_comm]
    exact Nat.and_two_pow_sub_one_eq_mod _ 8
  rw [byteAt, UInt8.toUInt8_toInt8, ← UInt8.toNat_inj, UInt64.toNat_toUInt8, hmask, Nat.mod_mod,
    UInt8.toNat_ofNat']

/-- `k` shifts of 8 bits each, from byte `i` on. -/
def shiftsFrom (i : Nat) : Nat → List UInt64
  | 0 => []
  | k + 1 => (8 * i).toUInt64 :: shiftsFrom (i + 1) k

theorem pathSizeShifts_eq : pathSizeShifts = shiftsFrom 0 4 := by rfl

theorem timestampShifts_eq : timestampShifts = shiftsFrom 0 8 := by rfl

theorem bytesAt_eq (x : UInt64) {i k : Nat} (h : i + k ≤ 8) :
    ((shiftsFrom i k).map (byteAt x)).map Int8.toUInt8 = toBytes k (x.toNat / 2 ^ (8 * i)) := by
  induction k generalizing i with
  | zero => rfl
  | succ k ih =>
    have hnext : x.toNat / 2 ^ (8 * i) / 256 = x.toNat / 2 ^ (8 * (i + 1)) := by
      rw [Nat.div_div_eq_div_mul, show 256 = 2 ^ 8 from rfl, ← Nat.pow_add, Nat.mul_succ]
    rw [shiftsFrom, List.map_cons, List.map_cons, byteAt_eq x (by omega), ih (by omega), toBytes,
      hnext]

theorem length_pathSizeBytes (x : UInt64) : (pathSizeShifts.map (byteAt x)).length = 4 :=
  List.length_map _

theorem length_timestampBytes (x : UInt64) : (timestampShifts.map (byteAt x)).length = 8 :=
  List.length_map _

/-- The bytes of a datagram. -/
def layout (path : List Int8) (timestamp : UInt64) : List UInt8 :=
  toBytes 4 path.length ++ path.map Int8.toUInt8 ++ toBytes 8 timestamp.toNat

theorem length_layout (path : List Int8) (timestamp : UInt64) :
    (layout path timestamp).length = path.length + 12 := by
  unfold layout
  simp only [List.length_append, length_toBytes, List.length_map]
  omega

/-- A path that leaves room for the timestamp is sent as a datagram. -/
theorem sendMessage_eq {path : List Int8} (hpath : path.length ≤ 1012) {text : List Char}
    {timestamp : UInt64} (htext : stoull 10 text = .ok timestamp) :
    sendMessage path text = .ok (layout path timestamp) := by
  have hroom : messageLen = 1024 := rfl
  have hsize : path.length.toUInt64.toNat = path.length := UInt64.toNat_ofNat_of_lt' (by
    show path.length < 2 ^ 64
    omega)
  have hzero : Message.empty.cursor = 0 := rfl
  have h4 := length_pathSizeBytes path.length.toUInt64
  have h8 := length_timestampBytes timestamp
  obtain ⟨m1, hput1, hsent1, hcursor1⟩ :=
    @Message.putAll_spec (pathSizeShifts.map (byteAt path.length.toUInt64)) .empty (by omega)
  obtain ⟨m2, hput2, hsent2, hcursor2⟩ := @Message.putAll_spec path m1 (by omega)
  obtain ⟨m3, hput3, hsent3, -⟩ :=
    @Message.putAll_spec (timestampShifts.map (byteAt timestamp)) m2 (by omega)
  have hsent : m3.sent = layout path timestamp := by
    rw [hsent3, hsent2, hsent1, Message.sent_empty, pathSizeShifts_eq, timestampShifts_eq,
      bytesAt_eq _ (by decide), bytesAt_eq _ (by decide), hsize, List.nil_append]
    simp only [Nat.mul_zero, Nat.pow_zero, Nat.div_one]
    rfl
  unfold sendMessage
  simp only [hput1, hput2, htext, hput3, ok_bind, hsent]
  rfl

/-! ## What the server reads -/

theorem readAt_front (pre post : List UInt8) (b : UInt8) :
    readAt (pre ++ b :: post) pre.length = .ok b := by
  rw [readAt_eq_ok, List.getElem?_append_right (Nat.le_refl _), Nat.sub_self,
    List.getElem?_cons_zero]

/-- The bytes behind the cursor are put on top of those read before, `lo`. -/
theorem readNumber_spec (bs : List UInt8) (pre post lo : List UInt8)
    (h : lo.length + bs.length ≤ 8) :
    readNumber (pre ++ bs ++ post) (UInt64.ofNat (ofBytes lo)) pre.length
        (shiftsFrom lo.length bs.length) =
      .ok (UInt64.ofNat (ofBytes (lo ++ bs)), pre.length + bs.length) := by
  induction bs generalizing pre lo with
  | nil => simp [readNumber, shiftsFrom]
  | cons b bs ih =>
    rw [List.length_cons] at h
    have hshift : (8 * lo.length).toUInt64.toNat = 8 * lo.length :=
      UInt64.toNat_ofNat_of_lt' (by show 8 * lo.length < 2 ^ 64; omega)
    have hlt : ∀ l : List UInt8, l.length ≤ 8 → ofBytes l < 2 ^ 64 := by
      intro l hl
      calc ofBytes l < 256 ^ l.length := ofBytes_lt l
        _ ≤ 256 ^ 8 := Nat.pow_le_pow_right (by omega) hl
        _ = 2 ^ 64 := rfl
    have hor : UInt64.ofNat (ofBytes lo) ||| b.toUInt64 <<< (8 * lo.length).toUInt64 =
        UInt64.ofNat (ofBytes (lo ++ [b])) := by
      rw [← UInt64.toNat_inj, UInt64.toNat_or, shifted_byte b _ (by omega), hshift,
        UInt64.toNat_ofNat_of_lt' (hlt lo (by omega)), or_ofBytes,
        UInt64.toNat_ofNat_of_lt' (hlt _ (by simp; omega))]
    have hlist : pre ++ b :: bs ++ post = (pre ++ [b]) ++ bs ++ post := by simp
    have hread := readAt_front pre (bs ++ post) b
    have hrest := ih (pre ++ [b]) (lo ++ [b]) (by simp; omega)
    simp only [List.length_append, List.length_singleton] at hrest
    rw [List.length_cons, shiftsFrom, readNumber, List.append_assoc, List.cons_append, hread,
      ok_bind, hor]
    simp only [List.append_assoc, List.cons_append, List.nil_append] at hrest
    rw [hrest]
    congr 2
    omega

theorem readPath_spec (path : List Int8) (pre post : List UInt8) (done : List Int8) :
    readPath (pre ++ path.map Int8.toUInt8 ++ post) done pre.length path.length =
      .ok (done ++ path, pre.length + path.length) := by
  induction path generalizing pre done with
  | nil => simp [readPath]
  | cons c path ih =>
    have hread := readAt_front pre (path.map Int8.toUInt8 ++ post) c.toUInt8
    have hrest := ih (pre ++ [c.toUInt8]) (done ++ [c])
    simp only [List.append_assoc, List.cons_append, List.nil_append, List.length_append,
      List.length_singleton] at hrest
    rw [List.length_cons, readPath, List.map_cons, List.append_assoc, List.cons_append, hread,
      ok_bind, Int8.toInt8_toUInt8, hrest]
    congr 2
    omega

/-- The three parts are taken out again, whatever is behind them. -/
theorem decodeBuffer_layout {path : List Int8} (hpath : path.length < 2 ^ 32) (timestamp : UInt64)
    (post : List UInt8) : decodeBuffer (layout path timestamp ++ post) = .ok (path, timestamp) := by
  have hsize := readNumber_spec (toBytes 4 path.length) []
    (path.map Int8.toUInt8 ++ (toBytes 8 timestamp.toNat ++ post)) [] (by simp)
  have hread := readPath_spec path (toBytes 4 path.length) (toBytes 8 timestamp.toNat ++ post) []
  have htime := readNumber_spec (toBytes 8 timestamp.toNat)
    (toBytes 4 path.length ++ path.map Int8.toUInt8) post [] (by simp)
  have hlen : path.length.toUInt64.toNat = path.length := UInt64.toNat_ofNat_of_lt' (by
    show path.length < 2 ^ 64
    omega)
  simp only [List.length_append, length_toBytes, List.length_nil, List.length_map,
    List.nil_append, List.append_assoc, Nat.zero_add, ofBytes_toBytes 4 path.length (by omega),
    ofBytes_toBytes 8 _ timestamp.toNat_lt, UInt64.ofNat_toNat] at hsize hread htime
  unfold decodeBuffer layout
  rw [pathSizeShifts_eq, timestampShifts_eq]
  simp only [List.append_assoc]
  rw [show (0 : UInt64) = UInt64.ofNat (ofBytes []) from rfl, hsize, ok_bind]
  simp only [hlen, hread, ok_bind, htime]
  rfl

/-- A datagram of the client is taken apart again. -/
theorem decode_layout {path : List Int8} (hpath : path.length ≤ 1012) (timestamp : UInt64) :
    decode (layout path timestamp) = .ok (path, timestamp) := by
  have hroom : messageLen = 1024 := rfl
  show decodeBuffer (receiveBuffer (layout path timestamp)) = _
  unfold receiveBuffer
  rw [List.take_of_length_le (by rw [length_layout]; omega)]
  exact decodeBuffer_layout (by omega) timestamp _

/-- The decimal text of a number is read as that number. -/
theorem stoull_decimal (n : UInt64) : stoull 10 (Nat.toDigits 10 n.toNat) = .ok n := by
  obtain ⟨ds, hlt, hmap, hvalue⟩ := exists_digits n.toNat (show 1 < 10 by decide)
  rw [hmap, stoull_eq (by rw [← hmap]; exact Nat.toDigits_ne_nil)
    (map_digitVal_digitChar hlt (by decide)) (by rw [hvalue]; exact n.toNat_lt), hvalue]
  exact congrArg Except.ok (UInt64.ofNat_toNat (x := n))

/-- **The server reads the path and the timestamp the client was given.** -/
theorem decode_sendMessage (path : List Int8) (hpath : path.length ≤ 1012) (timestamp : UInt64) :
    stoull 10 (Nat.toDigits 10 timestamp.toNat) = .ok timestamp ∧
      ∀ text, stoull 10 text = .ok timestamp →
        ∃ datagram, sendMessage path text = .ok datagram ∧
          decode datagram = .ok (path, timestamp) := by
  refine ⟨stoull_decimal timestamp, fun text htext => ?_⟩
  exact ⟨layout path timestamp, sendMessage_eq hpath htext, decode_layout hpath timestamp⟩

/-- The longest path, of the byte 255. -/
theorem decode_sendMessage_longest :
    stoull 10 (Nat.toDigits 10 (2 ^ 64 - 1 : UInt64).toNat) = .ok (2 ^ 64 - 1) ∧
      ∀ text, stoull 10 text = .ok (2 ^ 64 - 1) →
        ∃ datagram, sendMessage (List.replicate 1012 (-1)) text = .ok datagram ∧
          decode datagram = .ok (List.replicate 1012 (-1), 2 ^ 64 - 1) :=
  decode_sendMessage (List.replicate 1012 (-1)) List.length_replicate.le (2 ^ 64 - 1)

/-- A datagram of the client is one `InsertPair`. -/
theorem run_sendMessage (files : Files) {path : List Int8} (hpath : path.length ≤ 1012)
    {text : List Char} {timestamp : UInt64} (htext : stoull 10 text = .ok timestamp) :
    ∃ datagram, sendMessage path text = .ok datagram ∧
      run files datagram = .ok (step files (.insertPair timestamp (pathText path))).1 := by
  refine ⟨layout path timestamp, sendMessage_eq hpath htext, ?_⟩
  rw [run, decode_layout hpath timestamp]
  rfl

theorem putAll_overflow (cs : List Int8) {m : Message} (hm : m.cursor ≤ messageLen)
    (h : messageLen < m.cursor + cs.length) :
    m.putAll cs = .error (.undefined .outOfBounds) := by
  induction cs generalizing m with
  | nil =>
    rw [List.length_nil] at h
    omega
  | cons c cs ih =>
    rw [List.length_cons] at h
    rw [Message.putAll]
    by_cases hlt : m.cursor < messageLen
    · obtain ⟨m1, hput, -, hcursor⟩ := Message.put_spec hlt c
      rw [hput, ok_bind]
      exact ih (by omega) (by omega)
    · rw [Message.put, dif_neg hlt]
      rfl

/-- A longer path leaves no room for the timestamp: the client writes past its buffer. -/
theorem sendMessage_overflow {path : List Int8} (hpath : 1012 < path.length) {text : List Char}
    {timestamp : UInt64} (htext : stoull 10 text = .ok timestamp) :
    sendMessage path text = .error (.undefined .outOfBounds) := by
  have hroom : messageLen = 1024 := rfl
  have hzero : Message.empty.cursor = 0 := rfl
  have h4 := length_pathSizeBytes path.length.toUInt64
  have h8 := length_timestampBytes timestamp
  obtain ⟨m1, hput1, -, hcursor1⟩ :=
    @Message.putAll_spec (pathSizeShifts.map (byteAt path.length.toUInt64)) .empty (by omega)
  unfold sendMessage
  simp only [hput1, ok_bind, htext]
  by_cases hfits : path.length ≤ 1020
  · obtain ⟨m2, hput2, -, hcursor2⟩ := @Message.putAll_spec path m1 (by omega)
    rw [hput2, ok_bind, putAll_overflow _ (by omega) (by omega)]
    rfl
  · rw [putAll_overflow _ (by omega) (by omega)]
    rfl

end Fttl
