import Sprawl.Fttl.Datagram

/-!
# The receive loop (`FileTTL::Run`, `fttl/fttl.cc`)

Each turn zeroes the buffer, calls `read` and takes a path and a timestamp out of the
buffer, whatever `read` returned.  `decodeBuffer` finds the two in every buffer that is
long enough for the path it declares, and reads outside any other (`decodeBuffer_eq`).

A turn keeps to the bytes it received exactly when they are `Complete`
(`turnSafe_iff`).  Behind any other `read` it stores a pair that nobody sent, or reads
past the 1024 bytes (`turn_eq`).
-/

namespace Fttl

open Cxx LittleEndian

/-- A datagram as `read(server_fd_, &buffer, message_size)` gives it. -/
structure Received where
  bytes : List UInt8
  fits : bytes.length ≤ messageLen
deriving DecidableEq

/-- The bytes that `read` has put into the buffer; `none` is a negative `recv_size`. -/
def received : Option Received → List UInt8
  | none => []
  | some d => d.bytes

/-- One turn of `Run`, the result of its `read` given.  A failure is reported, and the
turn goes on with the buffer it has zeroed. -/
def turn (files : Files) (result : Option Received) : Except Stop Files :=
  run files (received result)

/-- `files_` behind the turns. -/
def receive (files : Files) (results : List (Option Received)) : Except Stop Files :=
  results.foldlM turn files

/-! ## What a buffer declares -/

/-- The number in the first four bytes. -/
def declaredSize (buffer : List UInt8) : Nat := ofBytes (buffer.take 4)

/-- The bytes behind it. -/
def declaredPath (buffer : List UInt8) : List Int8 :=
  ((buffer.drop 4).take (declaredSize buffer)).map UInt8.toInt8

/-- The eight bytes behind the path. -/
def declaredTimestamp (buffer : List UInt8) : UInt64 :=
  UInt64.ofNat (ofBytes ((buffer.drop (4 + declaredSize buffer)).take 8))

/-- A datagram that holds the path it declares and a timestamp. -/
def Complete : Option Received → Prop
  | none => False
  | some d => declaredSize d.bytes + 12 ≤ d.bytes.length

instance decidableComplete : (result : Option Received) → Decidable (Complete result)
  | none => inferInstanceAs (Decidable False)
  | some d => inferInstanceAs (Decidable (declaredSize d.bytes + 12 ≤ d.bytes.length))

/-- The turn asks for received bytes only, stores the pair of a complete datagram, and
nothing behind any other result. -/
def TurnSafe (files : Files) (result : Option Received) : Prop :=
  decodeBuffer (received result) ≠ .error (.undefined .outOfBounds) ∧
  ∃ files', turn files result = .ok files' ∧
    (Complete result → files' = insertPair files (declaredTimestamp (received result))
      (pathText (declaredPath (received result)))) ∧
    (¬ Complete result → files' = files)

/-! ## What the cursor reads -/

theorem readNumber_outOfBounds {buffer : List UInt8} {x : UInt64} {cursor : Nat}
    {shifts : List UInt64} (hcursor : cursor ≤ buffer.length)
    (h : buffer.length < cursor + shifts.length) :
    readNumber buffer x cursor shifts = .error (.undefined .outOfBounds) := by
  induction shifts generalizing x cursor with
  | nil =>
    rw [List.length_nil] at h
    omega
  | cons shift shifts ih =>
    rw [List.length_cons] at h
    rw [readNumber]
    by_cases hend : buffer.length ≤ cursor
    · rw [readAt_outOfBounds hend]
      rfl
    · exact readAt_bind_outOfBounds fun b => ih (by omega) (by omega)

theorem readPath_outOfBounds {buffer : List UInt8} {path : List Int8} {cursor n : Nat}
    (hcursor : cursor ≤ buffer.length) (h : buffer.length < cursor + n) :
    readPath buffer path cursor n = .error (.undefined .outOfBounds) := by
  induction n generalizing path cursor with
  | zero => omega
  | succ n ih =>
    rw [readPath]
    by_cases hend : buffer.length ≤ cursor
    · rw [readAt_outOfBounds hend]
      rfl
    · exact readAt_bind_outOfBounds fun b => ih (by omega) (by omega)

/-- The size that `Run` reads first. -/
theorem readNumber_size {buffer : List UInt8} (h : 4 ≤ buffer.length) :
    readNumber buffer 0 0 pathSizeShifts = .ok (UInt64.ofNat (declaredSize buffer), 4) := by
  have hlen : (buffer.take 4).length = 4 := List.length_take_of_le h
  have hread := readNumber_spec (buffer.take 4) [] (buffer.drop 4) [] (by simp)
  rw [List.nil_append, List.take_append_drop, hlen] at hread
  exact hread

theorem declaredSize_lt (buffer : List UInt8) : declaredSize buffer < 2 ^ 32 :=
  calc declaredSize buffer < 256 ^ (buffer.take 4).length := ofBytes_lt _
    _ ≤ 256 ^ 4 := Nat.pow_le_pow_right (by omega) (List.length_take_le 4 buffer)
    _ = 2 ^ 32 := rfl

theorem length_declaredPath {buffer : List UInt8} (h : 4 + declaredSize buffer ≤ buffer.length) :
    (declaredPath buffer).length = declaredSize buffer := by
  rw [declaredPath, List.length_map, List.length_take, List.length_drop]
  omega

theorem map_declaredPath (buffer : List UInt8) :
    (declaredPath buffer).map Int8.toUInt8 = (buffer.drop 4).take (declaredSize buffer) := by
  rw [declaredPath, List.map_map]
  exact List.map_id _

/-- A buffer that is long enough is laid out as the client does it. -/
theorem eq_layout {buffer : List UInt8} (h : declaredSize buffer + 12 ≤ buffer.length) :
    (declaredPath buffer).length = declaredSize buffer ∧
    buffer = layout (declaredPath buffer) (declaredTimestamp buffer) ++
      buffer.drop (declaredSize buffer + 12) := by
  have hpath := @length_declaredPath buffer (by omega)
  have hfour : (buffer.take 4).length = 4 := List.length_take_of_le (by omega)
  have height : ((buffer.drop (4 + declaredSize buffer)).take 8).length = 8 := by
    rw [List.length_take, List.length_drop]
    omega
  have hsize : toBytes 4 (declaredSize buffer) = buffer.take 4 := by
    have := toBytes_ofBytes (buffer.take 4)
    rwa [hfour] at this
  have htime : toBytes 8 (declaredTimestamp buffer).toNat =
      (buffer.drop (4 + declaredSize buffer)).take 8 := by
    have hlt := ofBytes_lt ((buffer.drop (4 + declaredSize buffer)).take 8)
    have hback := toBytes_ofBytes ((buffer.drop (4 + declaredSize buffer)).take 8)
    rw [height] at hlt hback
    rw [declaredTimestamp, UInt64.toNat_ofNat_of_lt' hlt, hback]
  refine ⟨hpath, ?_⟩
  calc buffer = buffer.take 4 ++ (buffer.drop 4).take (declaredSize buffer) ++
        (buffer.drop (4 + declaredSize buffer)).take 8 ++
        buffer.drop (declaredSize buffer + 12) := by
        have h1 := List.take_append_drop 4 buffer
        have h2 := List.take_append_drop (declaredSize buffer) (buffer.drop 4)
        have h3 := List.take_append_drop 8 (buffer.drop (4 + declaredSize buffer))
        rw [List.drop_drop] at h2 h3
        rw [show 4 + declaredSize buffer + 8 = declaredSize buffer + 12 by omega] at h3
        rw [List.append_assoc, h3, List.append_assoc, h2, h1]
    _ = layout (declaredPath buffer) (declaredTimestamp buffer) ++
        buffer.drop (declaredSize buffer + 12) := by
        rw [layout, hpath, map_declaredPath, hsize, htime]

/-- What the loop takes out of a buffer of any length. -/
theorem decodeBuffer_eq (buffer : List UInt8) :
    decodeBuffer buffer = if declaredSize buffer + 12 ≤ buffer.length then
        .ok (declaredPath buffer, declaredTimestamp buffer)
      else .error (.undefined .outOfBounds) := by
  have hlt := declaredSize_lt buffer
  by_cases h : declaredSize buffer + 12 ≤ buffer.length
  · obtain ⟨hpath, hlayout⟩ := eq_layout h
    rw [if_pos h]
    conv_lhs => rw [hlayout]
    exact decodeBuffer_layout (by omega) _ _
  · rw [if_neg h]
    unfold decodeBuffer
    by_cases hfour : 4 ≤ buffer.length
    · have hsize : (UInt64.ofNat (declaredSize buffer)).toNat = declaredSize buffer :=
        UInt64.toNat_ofNat_of_lt' (by
          show declaredSize buffer < 2 ^ 64
          omega)
      rw [readNumber_size hfour, ok_bind]
      simp only [hsize]
      by_cases hpath : 4 + declaredSize buffer ≤ buffer.length
      · -- the path is there, and less than eight bytes behind it
        have hread := readPath_spec (declaredPath buffer) (buffer.take 4)
          (buffer.drop (4 + declaredSize buffer)) []
        rw [map_declaredPath, length_declaredPath hpath, List.append_assoc, ← List.drop_drop,
          List.take_append_drop,
          List.take_append_drop, List.length_take_of_le hfour] at hread
        rw [hread, ok_bind]
        have hend : buffer.length < 4 + declaredSize buffer + timestampShifts.length := by
          show buffer.length < 4 + declaredSize buffer + 8
          omega
        simp only [readNumber_outOfBounds hpath hend]
        rfl
      · rw [readPath_outOfBounds hfour (by omega)]
        rfl
    · have hend : buffer.length < 0 + pathSizeShifts.length := by
        show buffer.length < 0 + 4
        omega
      rw [readNumber_outOfBounds (by omega) hend]
      rfl

/-! ## What a turn does -/

theorem length_receiveBuffer (result : Option Received) :
    (receiveBuffer (received result)).length = messageLen := by
  have hle : (received result).length ≤ messageLen := by
    cases result with
    | none => exact Nat.zero_le messageLen
    | some d => exact d.fits
  rw [receiveBuffer, List.length_append, List.length_take, List.length_replicate]
  omega

/-- **Every turn** goes by the whole buffer: a pair is stored whenever the declared path
leaves room for the timestamp in it, and a longer one is read past the end. -/
theorem turn_eq (files : Files) (result : Option Received) :
    turn files result = if declaredSize (receiveBuffer (received result)) ≤ 1012 then
        .ok (insertPair files (declaredTimestamp (receiveBuffer (received result)))
          (pathText (declaredPath (receiveBuffer (received result)))))
      else .error (.undefined .outOfBounds) := by
  have hroom : messageLen = 1024 := rfl
  show (decodeBuffer (receiveBuffer (received result)) >>= fun p =>
    return insertPair files p.2 (pathText p.1)) = _
  rw [decodeBuffer_eq, length_receiveBuffer]
  by_cases h : declaredSize (receiveBuffer (received result)) ≤ 1012
  · rw [if_pos h, if_pos (by omega)]
    rfl
  · rw [if_neg h, if_neg (by omega)]
    rfl

theorem turn_complete (files : Files) {result : Option Received} (h : Complete result) :
    turn files result = .ok (insertPair files (declaredTimestamp (received result))
      (pathText (declaredPath (received result)))) := by
  cases result with
  | none => exact absurd h id
  | some d =>
    have hfits := d.fits
    have hlt := declaredSize_lt d.bytes
    obtain ⟨hpath, hlayout⟩ := eq_layout h
    have hdecode : decodeBuffer (receiveBuffer d.bytes) =
        .ok (declaredPath d.bytes, declaredTimestamp d.bytes) := by
      unfold receiveBuffer
      rw [List.take_of_length_le hfits]
      conv_lhs => rw [hlayout, List.append_assoc]
      exact decodeBuffer_layout (by omega) _ _
    show (decodeBuffer (receiveBuffer d.bytes) >>= fun p =>
      return insertPair files p.2 (pathText p.1)) = _
    rw [hdecode]
    rfl

/-- A run of complete datagrams stores exactly their pairs. -/
theorem receive_complete (results : List (Option Received)) (files : Files)
    (h : ∀ result ∈ results, Complete result) :
    receive files results = .ok (results.foldl (fun files result =>
      insertPair files (declaredTimestamp (received result))
        (pathText (declaredPath (received result)))) files) := by
  induction results generalizing files with
  | nil => rfl
  | cons result results ih =>
    have hhead := turn_complete files (h result List.mem_cons_self)
    unfold receive
    rw [List.foldlM_cons, hhead, ok_bind]
    exact ih _ fun r hr => h r (List.mem_cons_of_mem _ hr)

/-- **A turn keeps to what it received exactly when that is a complete datagram.** -/
theorem turnSafe_iff (files : Files) (result : Option Received) :
    TurnSafe files result ↔ Complete result := by
  constructor
  · rintro ⟨hreads, -⟩
    rw [decodeBuffer_eq] at hreads
    cases result with
    | none => exact absurd rfl hreads
    | some d =>
      by_contra hcomplete
      exact hreads (if_neg hcomplete)
  · intro h
    refine ⟨?_, _, turn_complete files h, fun _ => rfl, fun hno => absurd h hno⟩
    cases result with
    | none => exact absurd h id
    | some d =>
      have hcomplete : declaredSize d.bytes + 12 ≤ d.bytes.length := h
      show decodeBuffer d.bytes ≠ _
      rw [decodeBuffer_eq, if_pos hcomplete]
      intro herror
      cases herror

/-- A `read` that fails stores the empty path with the timestamp 0; four bytes that
declare a path of 1013 make the server read past its buffer. -/
theorem not_turnSafe :
    (turn .empty none = .ok (insertPair .empty 0 []) ∧ ¬ TurnSafe .empty none) ∧
    (turn .empty (some ⟨[0xf5, 3, 0, 0], by decide⟩) = .error (.undefined .outOfBounds) ∧
      ¬ TurnSafe .empty (some ⟨[0xf5, 3, 0, 0], by decide⟩)) := by
  refine ⟨⟨?_, ?_⟩, ?_, ?_⟩
  · rw [turn_eq, if_pos (by decide +kernel)]
    rfl
  · rintro ⟨hreads, -⟩
    exact hreads rfl
  · rw [turn_eq, if_neg (by decide +kernel)]
  · rintro ⟨hreads, -⟩
    exact hreads (by decide +kernel)

end Fttl
