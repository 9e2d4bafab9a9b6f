import Mathlib.Data.List.Induction
import Sprawl.Lib.PackedStruct

/-!
# Messages between client and server (`packetdraw/message.h`, `client.c`, `server.c`)

`struct message` is packed: a discriminator, then the union of the three shapes, 20 bytes
in all.  Client and server swap the bytes of every coordinate, so that a stored message
holds them as the client had them (`view`), and on the way they have the other byte order
(`decode`).

`stored_eq` is what holds behind any datagrams: the stored messages are those with a known
discriminator, in order, up to `messages_cap`.
-/

namespace Packetdraw

open PackedStruct

/-! ## The layout -/

inductive MsgType
  | unknown
  | pixel
  | line
  | rectangle
deriving DecidableEq, Repr

def MsgType.toByte : MsgType → UInt8
  | unknown => 0
  | pixel => 1
  | line => 2
  | rectangle => 3

/-- The offsets of the fields of a shape. -/
structure Shape where
  x : Nat
  y : Nat
  rgb : Nat

/-- The offsets of the fields of a shape with two points. -/
structure LongShape extends Shape where
  toX : Nat
  toY : Nat

def discriminator : Nat := 0

/-- `as.pixel`. -/
def pixel : Shape := { x := 1, y := 5, rgb := 9 }

/-- `as.line`. -/
def line : LongShape := { x := 1, y := 5, toX := 9, toY := 13, rgb := 17 }

/-- `as.rectangle`. -/
def rectangle : LongShape := { x := 1, y := 5, toX := 9, toY := 13, rgb := 17 }

/-- A `struct message`. -/
structure Message where
  bytes : List UInt8
  size : bytes.length = 20
deriving DecidableEq

/-- The 512 bytes of a buffer. -/
structure Buffer where
  bytes : List UInt8
  size : bytes.length = 512
deriving DecidableEq

def Message.zero : Message := ⟨List.replicate 20 0, List.length_replicate⟩

def Message.set8 (m : Message) (i : Nat) (b : UInt8) : Message :=
  ⟨PackedStruct.set8 m.bytes i b, (length_set8 _ _ _).trans m.size⟩

def Message.set32 (m : Message) (i : Nat) (v : UInt32) : Message :=
  ⟨PackedStruct.set32 m.bytes i v, (length_set32 _ _ _).trans m.size⟩

/-- `htonl`, on a host with the lowest byte first. -/
def htonl (v : UInt32) : UInt32 := swap32 v

/-! ## The client -/

structure Client where
  type : MsgType
  x : UInt32
  y : UInt32
  w : UInt32
  h : UInt32
  r : UInt8
  g : UInt8
  b : UInt8
deriving DecidableEq

def Client.pixelMessage (client : Client) : Message :=
  let mess := Message.zero
  let mess := mess.set8 discriminator MsgType.pixel.toByte
  let mess := mess.set32 pixel.x (htonl client.x)
  let mess := mess.set32 pixel.y (htonl client.y)
  let mess := mess.set8 pixel.rgb client.r
  let mess := mess.set8 (pixel.rgb + 1) client.g
  mess.set8 (pixel.rgb + 2) client.b

def Client.lineMessage (client : Client) : Message :=
  let mess := Message.zero
  let mess := mess.set8 discriminator MsgType.line.toByte
  let mess := mess.set32 line.x (htonl client.x)
  let mess := mess.set32 line.y (htonl client.y)
  let mess := mess.set32 line.toX (htonl client.w)
  let mess := mess.set32 line.toY (htonl client.h)
  let mess := mess.set8 line.rgb client.r
  let mess := mess.set8 (line.rgb + 1) client.g
  mess.set8 (line.rgb + 2) client.b

def Client.rectangleMessage (client : Client) : Message :=
  let mess := Message.zero
  let mess := mess.set8 discriminator MsgType.rectangle.toByte
  let mess := mess.set32 rectangle.x (htonl client.x)
  let mess := mess.set32 rectangle.y (htonl client.y)
  let mess := mess.set32 rectangle.toX (htonl client.w)
  let mess := mess.set32 rectangle.toY (htonl client.h)
  let mess := mess.set8 rectangle.rgb client.r
  let mess := mess.set8 (rectangle.rgb + 1) client.g
  mess.set8 (rectangle.rgb + 2) client.b

/-- `memcpy(buffer, &mess, sizeof(mess))` into 512 zeros. -/
def Message.toBuffer (mess : Message) : Buffer :=
  ⟨mess.bytes ++ List.replicate 492 0, by rw [List.length_append, mess.size, List.length_replicate]⟩

/-- `packetdraw_client_send_message`: the datagram, or `none` where it returns -1. -/
def Client.sendMessage (client : Client) : Option Buffer :=
  match client.type with
  | .pixel => some client.pixelMessage.toBuffer
  | .line => some client.lineMessage.toBuffer
  | .rectangle => some client.rectangleMessage.toBuffer
  | .unknown => none

/-! ## The server -/

structure Server where
  messagesLen : Nat
  messagesCap : Nat
  messages : List Message
deriving DecidableEq

/-- `packetdraw_server_create`, where `initial_message_amount` is 4096. -/
def Server.create (initialMessageAmount : Nat) : Server where
  messagesLen := 0
  messagesCap := initialMessageAmount
  messages := List.replicate initialMessageAmount .zero

/-- What the `PIXEL` branch writes into `server->messages[len]`. -/
def storePixel (mess : List UInt8) (slot : Message) : Message :=
  let slot := slot.set8 discriminator MsgType.pixel.toByte
  let slot := slot.set32 pixel.x (htonl (get32 mess pixel.x))
  let slot := slot.set32 pixel.y (htonl (get32 mess pixel.y))
  let slot := slot.set8 pixel.rgb (get8 mess pixel.rgb)
  let slot := slot.set8 (pixel.rgb + 1) (get8 mess (pixel.rgb + 1))
  slot.set8 (pixel.rgb + 2) (get8 mess (pixel.rgb + 2))

/-- What the `LINE` branch writes, `as.pixel.x` first. -/
def storeLine (mess : List UInt8) (slot : Message) : Message :=
  let slot := slot.set8 discriminator MsgType.line.toByte
  let slot := slot.set32 pixel.x (htonl (get32 mess pixel.x))
  let slot := slot.set32 line.x (htonl (get32 mess line.x))
  let slot := slot.set32 line.y (htonl (get32 mess line.y))
  let slot := slot.set32 line.toX (htonl (get32 mess line.toX))
  let slot := slot.set32 line.toY (htonl (get32 mess line.toY))
  let slot := slot.set8 line.rgb (get8 mess line.rgb)
  let slot := slot.set8 (line.rgb + 1) (get8 mess (line.rgb + 1))
  slot.set8 (line.rgb + 2) (get8 mess (line.rgb + 2))

/-- What the `RECTANGLE` branch writes; it reads the coordinates through `as.line`. -/
def storeRectangle (mess : List UInt8) (slot : Message) : Message :=
  let slot := slot.set8 discriminator MsgType.rectangle.toByte
  let slot := slot.set32 rectangle.x (htonl (get32 mess line.x))
  let slot := slot.set32 rectangle.y (htonl (get32 mess line.y))
  let slot := slot.set32 rectangle.toX (htonl (get32 mess line.toX))
  let slot := slot.set32 rectangle.toY (htonl (get32 mess line.toY))
  let slot := slot.set8 rectangle.rgb (get8 mess rectangle.rgb)
  let slot := slot.set8 (rectangle.rgb + 1) (get8 mess (rectangle.rgb + 1))
  slot.set8 (rectangle.rgb + 2) (get8 mess (rectangle.rgb + 2))

/-- `len = messages_len++`, and `messages[len]` written by `store`. -/
def Server.push (server : Server) (store : Message → Message) : Server :=
  { server with
    messagesLen := server.messagesLen + 1
    messages := server.messages.modify server.messagesLen store }

/-- `packetdraw_server_insert_message_from_buffer`. -/
def Server.insertMessageFromBuffer (server : Server) (buffer : Buffer) : Server :=
  let mess := buffer.bytes
  if server.messagesLen ≥ server.messagesCap then server
  else if get8 mess discriminator = MsgType.pixel.toByte then server.push (storePixel mess)
  else if get8 mess discriminator = MsgType.line.toByte then server.push (storeLine mess)
  else if get8 mess discriminator = MsgType.rectangle.toByte then
    server.push (storeRectangle mess)
  else server

/-- The server behind some datagrams. -/
def run (cap : Nat) (buffers : List Buffer) : Server :=
  buffers.foldl Server.insertMessageFromBuffer (.create cap)

/-- `messages[0]`, …, `messages[messages_len - 1]`. -/
def Server.stored (server : Server) : List Message := server.messages.take server.messagesLen

/-! ## What messages mean -/

/-- A shape with its colour. -/
inductive Request
  | pixel (x y : UInt32) (rgb : UInt8 × UInt8 × UInt8)
  | line (x y toX toY : UInt32) (rgb : UInt8 × UInt8 × UInt8)
  | rectangle (x y toX toY : UInt32) (rgb : UInt8 × UInt8 × UInt8)
deriving DecidableEq

def getRgb (m : List UInt8) (i : Nat) : UInt8 × UInt8 × UInt8 :=
  (get8 m i, get8 m (i + 1), get8 m (i + 2))

/-- The request in a message whose coordinates are turned by `order`. -/
def readRequest (order : UInt32 → UInt32) (m : List UInt8) : Option Request :=
  if get8 m 0 = 1 then
    some (.pixel (order (get32 m 1)) (order (get32 m 5)) (getRgb m 9))
  else if get8 m 0 = 2 then
    some (.line (order (get32 m 1)) (order (get32 m 5)) (order (get32 m 9)) (order (get32 m 13))
      (getRgb m 17))
  else if get8 m 0 = 3 then
    some (.rectangle (order (get32 m 1)) (order (get32 m 5)) (order (get32 m 9))
      (order (get32 m 13)) (getRgb m 17))
  else none

/-- A datagram: coordinates with the highest byte first. -/
def decode (buffer : Buffer) : Option Request := readRequest swap32 buffer.bytes

/-- A stored message: coordinates as the host has them. -/
def view (m : Message) : Option Request := readRequest id m.bytes

/-- What the client asks for. -/
def Client.request (client : Client) : Option Request :=
  match client.type with
  | .pixel => some (.pixel client.x client.y (client.r, client.g, client.b))
  | .line => some (.line client.x client.y client.w client.h (client.r, client.g, client.b))
  | .rectangle =>
    some (.rectangle client.x client.y client.w client.h (client.r, client.g, client.b))
  | .unknown => none

namespace Message

variable (m : Message) (v : UInt32) (b : UInt8)

theorem get8_set8 {i : Nat} (h : i < 20) : get8 (m.set8 i b).bytes i = b :=
  get8_set8_self b (m.size.symm ▸ h)

theorem get8_set8_ne {i j : Nat} (h : i ≠ j) : get8 (m.set8 i b).bytes j = get8 m.bytes j :=
  get8_set8_of_ne b h

theorem get8_set32_ne {i j : Nat} (h : j < i ∨ i + 4 ≤ j) :
    get8 (m.set32 i v).bytes j = get8 m.bytes j := get8_set32_of_disjoint v h

theorem get32_set8_ne {i j : Nat} (h : i < j ∨ j + 4 ≤ i) :
    get32 (m.set8 i b).bytes j = get32 m.bytes j := get32_set8_of_disjoint b h

theorem get32_set32 {i : Nat} (h : i + 4 ≤ 20) : get32 (m.set32 i v).bytes i = v :=
  get32_set32_self v (m.size.symm ▸ h)

theorem get32_set32_ne {i j : Nat} (h : i + 4 ≤ j ∨ j + 4 ≤ i) :
    get32 (m.set32 i v).bytes j = get32 m.bytes j := get32_set32_of_disjoint v h

end Message

/-- The fields of a shape with one point, written into a message. -/
def Message.setShort (m : Message) (x y : UInt32) (r g b : UInt8) : Message :=
  ((((m.set32 1 x).set32 5 y).set8 9 r).set8 10 g).set8 11 b

/-- The fields of a shape with two points, written into a message. -/
def Message.setLong (m : Message) (x y toX toY : UInt32) (r g b : UInt8) : Message :=
  ((((((m.set32 1 x).set32 5 y).set32 9 toX).set32 13 toY).set8 17 r).set8 18 g).set8 19 b

section
variable (order : UInt32 → UInt32) {m : Message} (x y toX toY : UInt32) (r g b : UInt8)

theorem readRequest_pixel (h : get8 m.bytes 0 = 1) :
    readRequest order (m.setShort x y r g b).bytes =
      some (.pixel (order x) (order y) (r, g, b)) := by
  unfold readRequest getRgb Message.setShort
  simp (disch := decide) only [Message.get8_set8, Message.get8_set8_ne, Message.get8_set32_ne,
    Message.get32_set8_ne, Message.get32_set32, Message.get32_set32_ne, h, if_true]

/-- The two shapes with two points have the same layout. -/
theorem fields_setLong :
    get8 (m.setLong x y toX toY r g b).bytes 0 = get8 m.bytes 0 ∧
      get32 (m.setLong x y toX toY r g b).bytes 1 = x ∧
      get32 (m.setLong x y toX toY r g b).bytes 5 = y ∧
      get32 (m.setLong x y toX toY r g b).bytes 9 = toX ∧
      get32 (m.setLong x y toX toY r g b).bytes 13 = toY ∧
      getRgb (m.setLong x y toX toY r g b).bytes 17 = (r, g, b) := by
  unfold getRgb Message.setLong
  simp (disch := decide) only [Message.get8_set8, Message.get8_set8_ne, Message.get8_set32_ne,
    Message.get32_set8_ne, Message.get32_set32, Message.get32_set32_ne, and_self]

theorem readRequest_line (h : get8 m.bytes 0 = 2) :
    readRequest order (m.setLong x y toX toY r g b).bytes =
      some (.line (order x) (order y) (order toX) (order toY) (r, g, b)) := by
  obtain ⟨hkind, hx, hy, htoX, htoY, hrgb⟩ := @fields_setLong m x y toX toY r g b
  rw [readRequest, hkind, h, if_neg (by decide), if_pos rfl, hx, hy, htoX, htoY, hrgb]

theorem readRequest_rectangle (h : get8 m.bytes 0 = 3) :
    readRequest order (m.setLong x y toX toY r g b).bytes =
      some (.rectangle (order x) (order y) (order toX) (order toY) (r, g, b)) := by
  obtain ⟨hkind, hx, hy, htoX, htoY, hrgb⟩ := @fields_setLong m x y toX toY r g b
  rw [readRequest, hkind, h, if_neg (by decide), if_neg (by decide), if_pos rfl, hx, hy, htoX, htoY,
    hrgb]

end

/-! ### What the two sides write -/

theorem view_storePixel (mess : List UInt8) (slot : Message) :
    view (storePixel mess slot) =
      some (.pixel (swap32 (get32 mess 1)) (swap32 (get32 mess 5)) (getRgb mess 9)) :=
  readRequest_pixel id _ _ _ _ _ (slot.get8_set8 1 (by decide))

theorem view_storeLine (mess : List UInt8) (slot : Message) :
    view (storeLine mess slot) =
      some (.line (swap32 (get32 mess 1)) (swap32 (get32 mess 5)) (swap32 (get32 mess 9))
        (swap32 (get32 mess 13)) (getRgb mess 17)) := by
  -- `as.pixel.x`, which the branch writes first, is the place of `as.line.x`
  have hkind : get8 ((slot.set8 0 2).set32 1 (swap32 (get32 mess 1))).bytes 0 = 2 := by
    rw [Message.get8_set32_ne _ _ (by decide), Message.get8_set8 _ _ (by decide)]
  exact readRequest_line id _ _ _ _ _ _ _ hkind

theorem view_storeRectangle (mess : List UInt8) (slot : Message) :
    view (storeRectangle mess slot) =
      some (.rectangle (swap32 (get32 mess 1)) (swap32 (get32 mess 5)) (swap32 (get32 mess 9))
        (swap32 (get32 mess 13)) (getRgb mess 17)) :=
  readRequest_rectangle id _ _ _ _ _ _ _ (slot.get8_set8 3 (by decide))

theorem readRequest_pixelMessage (client : Client) :
    readRequest swap32 client.pixelMessage.bytes =
      some (.pixel client.x client.y (client.r, client.g, client.b)) := by
  have h := readRequest_pixel swap32 (swap32 client.x) (swap32 client.y) client.r client.g client.b
    (Message.zero.get8_set8 1 (show 0 < 20 by decide))
  rwa [swap32_swap32, swap32_swap32] at h

theorem readRequest_lineMessage (client : Client) :
    readRequest swap32 client.lineMessage.bytes =
      some (.line client.x client.y client.w client.h (client.r, client.g, client.b)) := by
  have h := readRequest_line swap32 (swap32 client.x) (swap32 client.y) (swap32 client.w)
    (swap32 client.h) client.r client.g client.b
    (Message.zero.get8_set8 2 (show 0 < 20 by decide))
  rwa [swap32_swap32, swap32_swap32, swap32_swap32, swap32_swap32] at h

theorem readRequest_rectangleMessage (client : Client) :
    readRequest swap32 client.rectangleMessage.bytes =
      some (.rectangle client.x client.y client.w client.h (client.r, client.g, client.b)) := by
  have h := readRequest_rectangle swap32 (swap32 client.x) (swap32 client.y) (swap32 client.w)
    (swap32 client.h) client.r client.g client.b
    (Message.zero.get8_set8 3 (show 0 < 20 by decide))
  rwa [swap32_swap32, swap32_swap32, swap32_swap32, swap32_swap32] at h

/-- What stands in the message is what the buffer begins with. -/
theorem decode_toBuffer (m : Message) : decode m.toBuffer = readRequest swap32 m.bytes := by
  have hget8 : ∀ i, i < 20 → get8 m.toBuffer.bytes i = get8 m.bytes i := by
    intro i hi
    exact List.getD_append _ _ _ _ (m.size.symm ▸ hi)
  unfold decode
  simp (disch := decide) only [readRequest, getRgb, get32, hget8]

/-- **A request is received as it was made.** -/
theorem decode_sentMessage {client : Client} {buffer : Buffer}
    (h : client.sendMessage = some buffer) : decode buffer = client.request := by
  unfold Client.sendMessage at h
  unfold Client.request
  split at h
  · rw [← Option.some.inj h, decode_toBuffer, readRequest_pixelMessage]
  · rw [← Option.some.inj h, decode_toBuffer, readRequest_lineMessage]
  · rw [← Option.some.inj h, decode_toBuffer, readRequest_rectangleMessage]
  · cases h

/-! ## What the server stores -/

/-- The two ways a datagram goes: nothing changes, or a slot is written that then holds it. -/
theorem insert_cases (server : Server) (buffer : Buffer) :
    ((decode buffer = none ∨ server.messagesCap ≤ server.messagesLen) ∧
      server.insertMessageFromBuffer buffer = server) ∨
    (server.messagesLen < server.messagesCap ∧ ∃ request store, decode buffer = some request ∧
      (∀ slot, view (store slot) = some request) ∧
      server.insertMessageFromBuffer buffer = server.push store) := by
  unfold Server.insertMessageFromBuffer decode
  by_cases hfull : server.messagesLen ≥ server.messagesCap
  · exact .inl ⟨.inr hfull, if_pos hfull⟩
  · rw [if_neg hfull]
    have hroom : server.messagesLen < server.messagesCap := by omega
    by_cases hpixel : get8 buffer.bytes 0 = 1
    · refine .inr ⟨hroom, _, storePixel buffer.bytes, ?_, view_storePixel _, if_pos hpixel⟩
      rw [readRequest, if_pos hpixel]
    · by_cases hline : get8 buffer.bytes 0 = 2
      · refine .inr ⟨hroom, _, storeLine buffer.bytes, ?_, view_storeLine _, ?_⟩
        · rw [readRequest, if_neg hpixel, if_pos hline]
        · exact (if_neg hpixel).trans (if_pos hline)
      · by_cases hrectangle : get8 buffer.bytes 0 = 3
        · refine .inr ⟨hroom, _, storeRectangle buffer.bytes, ?_, view_storeRectangle _, ?_⟩
          · rw [readRequest, if_neg hpixel, if_neg hline, if_pos hrectangle]
          · exact (if_neg hpixel).trans ((if_neg hline).trans (if_pos hrectangle))
        · refine .inl ⟨.inl ?_, ?_⟩
          · rw [readRequest, if_neg hpixel, if_neg hline, if_neg hrectangle]
          · exact (if_neg hpixel).trans ((if_neg hline).trans (if_neg hrectangle))

/-- The array has `messages_cap` slots, of which `messages_len` are used. -/
structure Server.WellFormed (server : Server) (cap : Nat) : Prop where
  cap_eq : server.messagesCap = cap
  length_eq : server.messages.length = cap
  len_le : server.messagesLen ≤ cap

theorem Server.WellFormed.length_stored {server : Server} {cap : Nat} (h : server.WellFormed cap) :
    server.stored.length = server.messagesLen := by
  rw [Server.stored, List.length_take, h.length_eq, Nat.min_eq_left h.len_le]

theorem push_stored {server : Server} {cap : Nat} (h : server.WellFormed cap)
    (hroom : server.messagesLen < cap) (store : Message → Message) :
    ∃ slot, (server.push store).stored = server.stored ++ [store slot] := by
  have hlt : server.messagesLen < server.messages.length := h.length_eq.symm ▸ hroom
  refine ⟨server.messages[server.messagesLen], ?_⟩
  unfold Server.push Server.stored
  simp only
  rw [List.take_succ_eq_append_getElem (by rw [List.length_modify]; exact hlt),
    List.getElem_modify_eq]
  congr 1
  refine List.ext_getElem? fun i => ?_
  rw [List.getElem?_take, List.getElem?_take]
  by_cases hi : i < server.messagesLen
  · rw [if_pos hi, if_pos hi, List.getElem?_modify_ne _ _ (Nat.ne_of_gt hi)]
  · rw [if_neg hi, if_neg hi]

theorem insert_wellFormed {server : Server} {cap : Nat} (h : server.WellFormed cap)
    (buffer : Buffer) : (server.insertMessageFromBuffer buffer).WellFormed cap := by
  rcases insert_cases server buffer with ⟨-, heq⟩ | ⟨hroom, request, store, -, -, heq⟩
  · rw [heq]
    exact h
  · rw [heq]
    have hcap := h.cap_eq
    refine ⟨h.cap_eq, ?_, ?_⟩
    · exact (List.length_modify _ _ _).trans h.length_eq
    · show server.messagesLen + 1 ≤ cap
      omega

theorem run_concat (cap : Nat) (buffers : List Buffer) (buffer : Buffer) :
    run cap (buffers ++ [buffer]) = (run cap buffers).insertMessageFromBuffer buffer := by
  rw [run, List.foldl_append]
  rfl

theorem run_wellFormed (cap : Nat) (buffers : List Buffer) : (run cap buffers).WellFormed cap := by
  induction buffers using List.reverseRecOn with
  | nil => exact ⟨rfl, List.length_replicate, Nat.zero_le _⟩
  | append_singleton buffers buffer ih =>
    rw [run_concat]
    exact insert_wellFormed ih buffer

theorem run_view (cap : Nat) (buffers : List Buffer) :
    (run cap buffers).stored.map view = ((buffers.filterMap decode).take cap).map some := by
  induction buffers using List.reverseRecOn with
  | nil => simp [run, Server.create, Server.stored]
  | append_singleton buffers buffer ih =>
    have hwf := run_wellFormed cap buffers
    have hlen : (run cap buffers).messagesLen = min cap (buffers.filterMap decode).length := by
      rw [← hwf.length_stored, ← List.length_map view, ih, List.length_map, List.length_take]
    rw [run_concat, List.filterMap_append]
    rcases insert_cases (run cap buffers) buffer with
      ⟨hnone, heq⟩ | ⟨hroom, request, store, hdecode, hview, heq⟩
    · rw [heq, ih]
      rcases hnone with hnone | hfull
      · rw [List.filterMap_cons_none hnone, List.filterMap_nil, List.append_nil]
      · rw [hwf.cap_eq] at hfull
        rw [List.take_append_of_le_length (by omega)]
    · rw [hwf.cap_eq] at hroom
      obtain ⟨slot, hstored⟩ := push_stored hwf hroom store
      have hfits : (buffers.filterMap decode ++ [request]).length ≤ cap := by
        rw [List.length_append, List.length_singleton]
        omega
      have hbefore : (buffers.filterMap decode).take cap = buffers.filterMap decode :=
        List.take_of_length_le (by omega)
      rw [heq, hstored, List.map_append, ih, List.map_singleton, hview,
        List.filterMap_cons_some hdecode, List.filterMap_nil, List.take_of_length_le hfits, hbefore,
        List.map_append, List.map_singleton]

theorem insert_keeps_stored {server : Server} {cap : Nat} (h : server.WellFormed cap)
    (buffer : Buffer) : server.stored <+: (server.insertMessageFromBuffer buffer).stored := by
  rcases insert_cases server buffer with ⟨-, heq⟩ | ⟨hroom, request, store, -, -, heq⟩
  · exact ⟨[], by rw [List.append_nil, heq]⟩
  · rw [h.cap_eq] at hroom
    obtain ⟨slot, hstored⟩ := push_stored h hroom store
    rw [heq, hstored]
    exact List.prefix_append _ _

theorem run_keeps_stored (cap : Nat) (before after : List Buffer) :
    (run cap before).stored <+: (run cap (before ++ after)).stored := by
  induction after using List.reverseRecOn with
  | nil => exact ⟨[], by rw [List.append_nil, List.append_nil]⟩
  | append_singleton after buffer ih =>
    rw [← List.append_assoc, run_concat]
    exact ih.trans (insert_keeps_stored (run_wellFormed cap _) buffer)

/-- **The server stores what it can read, in order, as long as there is room.** -/
theorem stored_eq (cap : Nat) (buffers : List Buffer) :
    (run cap buffers).messagesLen ≤ (run cap buffers).messagesCap ∧
    (run cap buffers).stored.map view = ((buffers.filterMap decode).take cap).map some ∧
    (∀ buffer, decode buffer = none ∨ (run cap buffers).messagesLen = cap →
      run cap (buffers ++ [buffer]) = run cap buffers) ∧
    (∀ after, (run cap buffers).stored <+: (run cap (buffers ++ after)).stored) ∧
    ∀ (client : Client) (buffer : Buffer), client.sendMessage = some buffer →
      decode buffer = client.request := by
  have hwf := run_wellFormed cap buffers
  refine ⟨hwf.cap_eq.symm ▸ hwf.len_le, run_view cap buffers, fun buffer h => ?_,
    run_keeps_stored cap buffers, fun client buffer => decode_sentMessage⟩
  rw [run_concat]
  rcases insert_cases (run cap buffers) buffer with ⟨-, heq⟩ | ⟨hroom, request, store, hdecode, -⟩
  · exact heq
  · rw [hwf.cap_eq] at hroom
    rcases h with hnone | hfull
    · rw [hnone] at hdecode
      cases hdecode
    · omega

def redDot : Client := { type := .pixel, x := 7, y := 9, w := 0, h := 0, r := 255, g := 0, b := 0 }

/-- The client's dot is stored where there is room for it. -/
theorem stored_eq_redDot :
    (run 1 [redDot.pixelMessage.toBuffer]).stored.map view = [redDot.request] := by
  obtain ⟨-, hstored, -, -, hdecode⟩ := stored_eq 1 [redDot.pixelMessage.toBuffer]
  rw [hstored, List.filterMap_cons, hdecode redDot _ rfl]
  rfl

end Packetdraw
