import Mathlib.Data.List.Infix
import Sprawl.Packetdraw.Graphics

/-!
# Two threads and no lock (`async_listen` beside `packetdraw_graphics_render`)

The listening thread counts a message in `messages_len` and then writes its fields, one
after the other; the render loop reads `messages_len` and the fields of every message it
counts.  A step of the model is one datagram, one assignment to a field or one read of a
field, and the steps of the two threads come in any order.

    with its assignments all made, the server is run cap received      (Inv.finished_eq)

A frame shows every message that was complete when the frame began, in order, as its
datagram asked, but for the width and height that `draw_rect` exchanges (`frames_settled`).
What it shows behind them may be half written: each field is the one of the request, or
still zero, and nothing where the discriminator is (`frames_blend`); and all fields behind
it can be zero (`frames_blank`).
-/

namespace Packetdraw

open PackedStruct

/-! ## The assignments of a datagram -/

/-- One assignment to a field of a message. -/
inductive Assign
  | set8 (i : Nat) (b : UInt8)
  | set32 (i : Nat) (v : UInt32)
deriving DecidableEq

def Assign.apply (m : Message) : Assign → Message
  | set8 i b => m.set8 i b
  | set32 i v => m.set32 i v

/-- Some assignments, one after the other. -/
def Message.assign (m : Message) (stores : List Assign) : Message := stores.foldl Assign.apply m

def pixelStores (mess : List UInt8) : List Assign :=
  [.set8 discriminator MsgType.pixel.toByte,
    .set32 pixel.x (htonl (get32 mess pixel.x)),
    .set32 pixel.y (htonl (get32 mess pixel.y)),
    .set8 pixel.rgb (get8 mess pixel.rgb),
    .set8 (pixel.rgb + 1) (get8 mess (pixel.rgb + 1)),
    .set8 (pixel.rgb + 2) (get8 mess (pixel.rgb + 2))]

def lineStores (mess : List UInt8) : List Assign :=
  [.set8 discriminator MsgType.line.toByte,
    .set32 pixel.x (htonl (get32 mess pixel.x)),
    .set32 line.x (htonl (get32 mess line.x)),
    .set32 line.y (htonl (get32 mess line.y)),
    .set32 line.toX (htonl (get32 mess line.toX)),
    .set32 line.toY (htonl (get32 mess line.toY)),
    .set8 line.rgb (get8 mess line.rgb),
    .set8 (line.rgb + 1) (get8 mess (line.rgb + 1)),
    .set8 (line.rgb + 2) (get8 mess (line.rgb + 2))]

def rectangleStores (mess : List UInt8) : List Assign :=
  [.set8 discriminator MsgType.rectangle.toByte,
    .set32 rectangle.x (htonl (get32 mess line.x)),
    .set32 rectangle.y (htonl (get32 mess line.y)),
    .set32 rectangle.toX (htonl (get32 mess line.toX)),
    .set32 rectangle.toY (htonl (get32 mess line.toY)),
    .set8 rectangle.rgb (get8 mess rectangle.rgb),
    .set8 (rectangle.rgb + 1) (get8 mess (rectangle.rgb + 1)),
    .set8 (rectangle.rgb + 2) (get8 mess (rectangle.rgb + 2))]

/-- The assignments behind `messages_len++`, if the discriminator is known. -/
def storesOf (buffer : Buffer) : Option (List Assign) :=
  let mess := buffer.bytes
  if get8 mess discriminator = MsgType.pixel.toByte then some (pixelStores mess)
  else if get8 mess discriminator = MsgType.line.toByte then some (lineStores mess)
  else if get8 mess discriminator = MsgType.rectangle.toByte then some (rectangleStores mess)
  else none

/-! ## The reads of the render loop -/

/-- What is left to read of a message, and what is drawn then. -/
inductive Reading
  | drawn (draw : Option Draw)
  | read8 (i : Nat) (next : UInt8 → Reading)
  | read32 (i : Nat) (next : UInt32 → Reading)

def readPixel : Reading :=
  .read8 pixel.rgb fun r => .read8 (pixel.rgb + 1) fun g => .read8 (pixel.rgb + 2) fun b =>
    .read32 pixel.x fun x => .read32 pixel.y fun y =>
      .drawn (some (.point x.toInt32 y.toInt32 (r, g, b)))

def readLine : Reading :=
  .read8 line.rgb fun r => .read8 (line.rgb + 1) fun g => .read8 (line.rgb + 2) fun b =>
    .read32 line.x fun x => .read32 line.y fun y =>
      .read32 line.toX fun toX => .read32 line.toY fun toY =>
        .drawn (some (.line x.toInt32 y.toInt32 toX.toInt32 toY.toInt32 (r, g, b)))

def readRect : Reading :=
  .read32 rectangle.x fun x => .read32 rectangle.y fun y =>
    .read32 rectangle.toX fun h => .read32 rectangle.toY fun w =>
      .read8 rectangle.rgb fun r => .read8 (rectangle.rgb + 1) fun g =>
        .read8 (rectangle.rgb + 2) fun b =>
          .drawn (some (.rect { x := x.toInt32, y := y.toInt32, h := h.toInt32, w := w.toInt32 }
            (r, g, b)))

/-- `draw_message`, read by read. -/
def readMessage : Reading :=
  .read8 discriminator fun kind =>
    if kind = MsgType.pixel.toByte then readPixel
    else if kind = MsgType.line.toByte then readLine
    else if kind = MsgType.rectangle.toByte then readRect
    else .drawn none

/-- The reads all made of one message. -/
def Reading.finish (m : Message) : Reading → Option Draw
  | drawn draw => draw
  | read8 i next => (next (get8 m.bytes i)).finish m
  | read32 i next => (next (get32 m.bytes i)).finish m

/-! ## The two threads -/

/-- Where the listening thread is: in `recvfrom`, or behind `messages_len++` with the
assignments to `messages[len]` that are left. -/
inductive Listener
  | waiting
  | storing (len : Nat) (rest : List Assign)
deriving DecidableEq

/-- Where the render loop is: at `i < srv->messages_len`, or drawing `messages[i]`. -/
inductive Renderer
  | checking (i : Nat)
  | drawing (i : Nat) (todo : Reading)

/-- `received` are the datagrams `recvfrom` has returned, `frame` is what was drawn since the
last `SDL_RenderPresent`, `shown` the frames before it. -/
structure State where
  server : Server
  listener : Listener := .waiting
  renderer : Renderer := .checking 0
  received : List Buffer := []
  frame : List (Option Draw) := []
  shown : List (List (Option Draw)) := []

inductive Event
  | receive (buffer : Buffer)
  | store
  | render

section
variable (s : State)

/-- `server->messages[i]`. -/
def State.slot (i : Nat) : Message := s.server.messages.getD i .zero

/-- `recvfrom` returns; with the listener elsewhere nothing happens. -/
def State.receive (buffer : Buffer) : State :=
  match s.listener with
  | .storing _ _ => s
  | .waiting =>
    let s := { s with received := s.received ++ [buffer] }
    if s.server.messagesLen ≥ s.server.messagesCap then s
    else
      match storesOf buffer with
      | none => s
      | some stores =>
        { s with
          listener := .storing s.server.messagesLen stores
          server := { s.server with messagesLen := s.server.messagesLen + 1 } }

/-- The next assignment of the listener. -/
def State.store : State :=
  match s.listener with
  | .waiting => s
  | .storing _ [] => { s with listener := .waiting }
  | .storing len (a :: rest) =>
    { s with
      listener := .storing len rest
      server := { s.server with messages := s.server.messages.modify len (Assign.apply · a) } }

/-- The next step of the render loop. -/
def State.render : State :=
  match s.renderer with
  | .checking i =>
    if i < s.server.messagesLen then { s with renderer := .drawing i readMessage }
    else { s with renderer := .checking 0, frame := [], shown := s.shown ++ [s.frame] }
  | .drawing i (.drawn draw) => { s with renderer := .checking (i + 1), frame := s.frame ++ [draw] }
  | .drawing i (.read8 o next) =>
    { s with renderer := .drawing i (next (get8 (s.slot i).bytes o)) }
  | .drawing i (.read32 o next) =>
    { s with renderer := .drawing i (next (get32 (s.slot i).bytes o)) }

def State.step (event : Event) : State :=
  match event with
  | .receive buffer => s.receive buffer
  | .store => s.store
  | .render => s.render

/-- The messages that are completely stored. -/
def State.settled : Nat :=
  match s.listener with
  | .waiting => s.server.messagesLen
  | .storing len _ => len

/-- The server when the listener has made its assignments. -/
def State.finished : Server :=
  match s.listener with
  | .waiting => s.server
  | .storing len rest =>
    { s.server with messages := s.server.messages.modify len (Message.assign · rest) }

end

/-- The two threads behind some events, from `packetdraw_server_create`. -/
def after (cap : Nat) (events : List Event) : State :=
  events.foldl State.step { server := .create cap }

/-- The requests of the datagrams, as far as there is room. -/
def requests (cap : Nat) (received : List Buffer) : List Request :=
  (received.filterMap decode).take cap

/-! ## What is drawn -/

/-- What the datagram asks for: `to_x` is the width of a rectangle, `to_y` its height. -/
def Request.asked : Request → Draw
  | .pixel x y rgb => .point x.toInt32 y.toInt32 rgb
  | .line x y toX toY rgb => .line x.toInt32 y.toInt32 toX.toInt32 toY.toInt32 rgb
  | .rectangle x y toX toY rgb =>
    .rect { x := x.toInt32, y := y.toInt32, h := toY.toInt32, w := toX.toInt32 } rgb

/-- `draw_rect` takes the width for the height. -/
def Draw.exchanged : Draw → Draw
  | .rect r rgb => .rect { r with h := r.w, w := r.h } rgb
  | .point x y rgb => .point x y rgb
  | .line x y toX toY rgb => .line x y toX toY rgb

/-- What `draw_message` draws for the request. -/
def Request.draw (request : Request) : Draw := request.asked.exchanged

/-- A field that has been written, or not yet. -/
def Partly {α : Type} [OfNat α 0] (v w : α) : Prop := w = 0 ∨ w = v

def PartlyRgb (rgb rgb' : UInt8 × UInt8 × UInt8) : Prop :=
  Partly rgb.1 rgb'.1 ∧ Partly rgb.2.1 rgb'.2.1 ∧ Partly rgb.2.2 rgb'.2.2

/-- The second request is the first with some fields zero. -/
def Blend : Request → Request → Prop
  | .pixel x y rgb, .pixel x' y' rgb' => Partly x x' ∧ Partly y y' ∧ PartlyRgb rgb rgb'
  | .line x y toX toY rgb, .line x' y' toX' toY' rgb' =>
    Partly x x' ∧ Partly y y' ∧ Partly toX toX' ∧ Partly toY toY' ∧ PartlyRgb rgb rgb'
  | .rectangle x y toX toY rgb, .rectangle x' y' toX' toY' rgb' =>
    Partly x x' ∧ Partly y y' ∧ Partly toX toX' ∧ Partly toY toY' ∧ PartlyRgb rgb rgb'
  | _, _ => False

/-- What is drawn for the request with some fields zero. -/
def Mix (request : Request) (draw : Draw) : Prop :=
  ∃ request', Blend request request' ∧ draw = request'.draw

/-- Such a mix, or nothing where the discriminator is zero. -/
def MixOrNone (request : Request) (draw : Option Draw) : Prop :=
  draw = none ∨ ∃ d, draw = some d ∧ Mix request d

/-- All fields zero. -/
def Request.blank : Request → Request
  | .pixel _ _ _ => .pixel 0 0 (0, 0, 0)
  | .line _ _ _ _ _ => .line 0 0 0 0 (0, 0, 0)
  | .rectangle _ _ _ _ _ => .rectangle 0 0 0 0 (0, 0, 0)

theorem drawMessage_eq (m : Message) : drawMessage m = (view m).map Request.draw := by
  unfold drawMessage view readRequest
  show (if get8 m.bytes 0 = 1 then _ else if get8 m.bytes 0 = 2 then _ else
    if get8 m.bytes 0 = 3 then _ else none) = _
  split_ifs <;> rfl

theorem finish_readMessage (m : Message) : readMessage.finish m = drawMessage m := by
  unfold readMessage drawMessage
  simp only [Reading.finish, apply_ite (Reading.finish m)]
  split_ifs <;> rfl

theorem assign_append (m : Message) (as bs : List Assign) :
    m.assign (as ++ bs) = (m.assign as).assign bs := List.foldl_append

/-- `insert_message_from_buffer` makes the assignments. -/
theorem insert_eq (server : Server) (buffer : Buffer) : server.insertMessageFromBuffer buffer =
    if server.messagesLen ≥ server.messagesCap then server
    else ((storesOf buffer).map fun stores =>
      server.push (Message.assign · stores)).getD server := by
  unfold Server.insertMessageFromBuffer storesOf
  simp only
  split_ifs <;> rfl

/-! ## Half-written messages -/

def FitsLong (kind : UInt8) (x y toX toY : UInt32) (rgb : UInt8 × UInt8 × UInt8) (m : Message) :
    Prop :=
  Partly kind (get8 m.bytes 0) ∧ Partly x (get32 m.bytes 1) ∧ Partly y (get32 m.bytes 5) ∧
    Partly toX (get32 m.bytes 9) ∧ Partly toY (get32 m.bytes 13) ∧
    PartlyRgb rgb (getRgb m.bytes 17)

/-- Each field of the message is that of the request, or zero. -/
def Fits : Request → Message → Prop
  | .pixel x y rgb, m =>
    Partly 1 (get8 m.bytes 0) ∧ Partly x (get32 m.bytes 1) ∧ Partly y (get32 m.bytes 5) ∧
      PartlyRgb rgb (getRgb m.bytes 9)
  | .line x y toX toY rgb, m => FitsLong 2 x y toX toY rgb m
  | .rectangle x y toX toY rgb, m => FitsLong 3 x y toX toY rgb m

theorem partly_self {α : Type} [OfNat α 0] (v : α) : Partly v v := .inr rfl

theorem fits_zero (r : Request) : Fits r .zero := by
  cases r with
  | pixel x y rgb => exact ⟨.inl rfl, .inl rfl, .inl rfl, .inl rfl, .inl rfl, .inl rfl⟩
  | line x y toX toY rgb | rectangle x y toX toY rgb =>
    exact ⟨.inl rfl, .inl rfl, .inl rfl, .inl rfl, .inl rfl, .inl rfl, .inl rfl, .inl rfl⟩

theorem fits_of_view {r : Request} {m : Message} (h : view m = some r) : Fits r m := by
  unfold view readRequest at h
  split_ifs at h with h1 h2 h3 <;> cases h
  · exact ⟨.inr h1, partly_self _, partly_self _, partly_self _, partly_self _, partly_self _⟩
  · exact ⟨.inr h2, partly_self _, partly_self _, partly_self _, partly_self _, partly_self _,
      partly_self _, partly_self _⟩
  · exact ⟨.inr h3, partly_self _, partly_self _, partly_self _, partly_self _, partly_self _,
      partly_self _, partly_self _⟩

/-- The assignments of a datagram, and the request in it. -/
theorem storesOf_cases (buffer : Buffer) :
    (storesOf buffer = none ∧ decode buffer = none) ∨
    (storesOf buffer = some (pixelStores buffer.bytes) ∧
      decode buffer = some (.pixel (swap32 (get32 buffer.bytes 1)) (swap32 (get32 buffer.bytes 5))
        (getRgb buffer.bytes 9))) ∨
    (storesOf buffer = some (lineStores buffer.bytes) ∧
      decode buffer = some (.line (swap32 (get32 buffer.bytes 1)) (swap32 (get32 buffer.bytes 5))
        (swap32 (get32 buffer.bytes 9)) (swap32 (get32 buffer.bytes 13))
        (getRgb buffer.bytes 17))) ∨
    (storesOf buffer = some (rectangleStores buffer.bytes) ∧
      decode buffer = some (.rectangle (swap32 (get32 buffer.bytes 1))
        (swap32 (get32 buffer.bytes 5)) (swap32 (get32 buffer.bytes 9))
        (swap32 (get32 buffer.bytes 13)) (getRgb buffer.bytes 17))) := by
  unfold storesOf decode readRequest
  show ((if get8 buffer.bytes 0 = 1 then _ else if get8 buffer.bytes 0 = 2 then _ else
    if get8 buffer.bytes 0 = 3 then _ else none) = none ∧ _) ∨ _
  by_cases h1 : get8 buffer.bytes 0 = 1
  · exact .inr (.inl ⟨if_pos h1, if_pos h1⟩)
  · by_cases h2 : get8 buffer.bytes 0 = 2
    · exact .inr (.inr (.inl ⟨(if_neg h1).trans (if_pos h2), (if_neg h1).trans (if_pos h2)⟩))
    · by_cases h3 : get8 buffer.bytes 0 = 3
      · refine .inr (.inr (.inr ⟨?_, ?_⟩))
        · exact (if_neg h1).trans ((if_neg h2).trans (if_pos h3))
        · exact (if_neg h1).trans ((if_neg h2).trans (if_pos h3))
      · refine .inl ⟨?_, ?_⟩
        · exact (if_neg h1).trans ((if_neg h2).trans (if_neg h3))
        · exact (if_neg h1).trans ((if_neg h2).trans (if_neg h3))

section
variable {mess : List UInt8} {m : Message} {a : Assign}

theorem fits_pixelStores (ha : a ∈ pixelStores mess)
    (h : Fits (.pixel (swap32 (get32 mess 1)) (swap32 (get32 mess 5)) (getRgb mess 9)) m) :
    Fits (.pixel (swap32 (get32 mess 1)) (swap32 (get32 mess 5)) (getRgb mess 9)) (a.apply m) := by
  obtain ⟨hk, hx, hy, hr, hg, hb⟩ := h
  simp only [getRgb] at hr hg hb
  simp only [pixelStores, List.mem_cons, List.not_mem_nil, or_false] at ha
  unfold Fits PartlyRgb getRgb
  rcases ha with rfl | rfl | rfl | rfl | rfl | rfl <;>
    simp (disch := decide) only [Assign.apply, discriminator, pixel, MsgType.toByte, htonl,
      Message.get8_set8, Message.get8_set8_ne, Message.get8_set32_ne, Message.get32_set8_ne,
      Message.get32_set32, Message.get32_set32_ne, partly_self, hk, hx, hy, hr, hg, hb, and_self]

/-- The assignments of the two long shapes. -/
theorem fitsLong_apply {kind : UInt8} {x y toX toY : UInt32} {rgb : UInt8 × UInt8 × UInt8}
    (ha : a ∈ [.set8 0 kind, .set32 1 x, .set32 5 y, .set32 9 toX, .set32 13 toY, .set8 17 rgb.1,
      .set8 18 rgb.2.1, .set8 19 rgb.2.2]) (h : FitsLong kind x y toX toY rgb m) :
    FitsLong kind x y toX toY rgb (a.apply m) := by
  obtain ⟨hk, hx, hy, htoX, htoY, hr, hg, hb⟩ := h
  simp only [getRgb] at hr hg hb
  simp only [List.mem_cons, List.not_mem_nil, or_false] at ha
  unfold FitsLong PartlyRgb getRgb
  rcases ha with rfl | rfl | rfl | rfl | rfl | rfl | rfl | rfl <;>
    simp (disch := decide) only [Assign.apply, Message.get8_set8, Message.get8_set8_ne,
      Message.get8_set32_ne, Message.get32_set8_ne, Message.get32_set32, Message.get32_set32_ne,
      partly_self, hk, hx, hy, htoX, htoY, hr, hg, hb, and_self]

end

/-- An assignment of the datagram writes a field of its request, and no other. -/
theorem fits_apply {buffer : Buffer} {stores : List Assign} {r : Request} {m : Message}
    {a : Assign} (hstores : storesOf buffer = some stores) (hr : decode buffer = some r)
    (ha : a ∈ stores) (h : Fits r m) : Fits r (a.apply m) := by
  rcases storesOf_cases buffer with ⟨hs, -⟩ | ⟨hs, hd⟩ | ⟨hs, hd⟩ | ⟨hs, hd⟩ <;>
    rw [hs] at hstores <;> cases hstores <;> rw [hd] at hr <;> cases hr
  · exact fits_pixelStores ha h
  · refine fitsLong_apply ?_ h
    -- `as.pixel.x` is the place of `as.line.x`
    rcases List.mem_cons.1 ha with rfl | ha
    · exact List.mem_cons_self
    · rcases List.mem_cons.1 ha with rfl | ha
      · exact List.mem_cons_of_mem _ List.mem_cons_self
      · exact List.mem_cons_of_mem _ ha
  · exact fitsLong_apply ha h

/-- The assignments of a datagram, all made, store its request. -/
theorem view_assign {buffer : Buffer} {stores : List Assign}
    (hstores : storesOf buffer = some stores)
    (slot : Message) : ∃ r, decode buffer = some r ∧ view (slot.assign stores) = some r := by
  rcases storesOf_cases buffer with ⟨hs, -⟩ | ⟨hs, hd⟩ | ⟨hs, hd⟩ | ⟨hs, hd⟩ <;>
    rw [hs] at hstores <;> cases hstores
  · exact ⟨_, hd, view_storePixel _ slot⟩
  · exact ⟨_, hd, view_storeLine _ slot⟩
  · exact ⟨_, hd, view_storeRectangle _ slot⟩

/-! ## Reading while it is written -/

/-- With every read made of some message of `A`, what is drawn is `ok`. -/
def Reading.Yields (A : Message → Prop) (ok : Option Draw → Prop) : Reading → Prop
  | drawn draw => ok draw
  | read8 i next => ∀ m, A m → (next (get8 m.bytes i)).Yields A ok
  | read32 i next => ∀ m, A m → (next (get32 m.bytes i)).Yields A ok

theorem yields_one (m : Message) (todo : Reading) :
    todo.Yields (fun m' => m' = m) (fun draw => draw = todo.finish m) := by
  induction todo with
  | drawn draw => exact rfl
  | read8 i next ih =>
    rintro m' rfl
    exact ih _
  | read32 i next ih =>
    rintro m' rfl
    exact ih _

/-- A message that is being written is drawn as a mix. -/
theorem yields_fits (r : Request) : readMessage.Yields (Fits r) (MixOrNone r) := by
  intro m hm
  show Reading.Yields _ _ (if get8 m.bytes 0 = 1 then readPixel else if get8 m.bytes 0 = 2 then
    readLine else if get8 m.bytes 0 = 3 then readRect else .drawn none)
  cases r with
  | pixel x y rgb =>
    rcases hm.1 with h0 | h1
    · rw [h0]
      exact .inl rfl
    · rw [h1]
      show readPixel.Yields _ _
      intro m₁ h₁ m₂ h₂ m₃ h₃ m₄ h₄ m₅ h₅
      exact .inr ⟨_, rfl, .pixel _ _ (get8 m₁.bytes 9, get8 m₂.bytes 10, get8 m₃.bytes 11),
        ⟨h₄.2.1, h₅.2.2.1, h₁.2.2.2.1, h₂.2.2.2.2.1, h₃.2.2.2.2.2⟩, rfl⟩
  | line x y toX toY rgb =>
    rcases hm.1 with h0 | h1
    · rw [h0]
      exact .inl rfl
    · rw [h1]
      show readLine.Yields _ _
      intro m₁ h₁ m₂ h₂ m₃ h₃ m₄ h₄ m₅ h₅ m₆ h₆ m₇ h₇
      exact .inr ⟨_, rfl, .line _ _ _ _ (get8 m₁.bytes 17, get8 m₂.bytes 18, get8 m₃.bytes 19),
        ⟨h₄.2.1, h₅.2.2.1, h₆.2.2.2.1, h₇.2.2.2.2.1, h₁.2.2.2.2.2.1, h₂.2.2.2.2.2.2.1,
          h₃.2.2.2.2.2.2.2⟩, rfl⟩
  | rectangle x y toX toY rgb =>
    rcases hm.1 with h0 | h1
    · rw [h0]
      exact .inl rfl
    · rw [h1]
      show readRect.Yields _ _
      intro m₁ h₁ m₂ h₂ m₃ h₃ m₄ h₄ m₅ h₅ m₆ h₆ m₇ h₇
      exact .inr ⟨_, rfl, .rectangle _ _ _ _ (get8 m₅.bytes 17, get8 m₆.bytes 18, get8 m₇.bytes 19),
        ⟨h₁.2.1, h₂.2.2.1, h₃.2.2.2.1, h₄.2.2.2.2.1, h₅.2.2.2.2.2.1, h₆.2.2.2.2.2.2.1,
          h₇.2.2.2.2.2.2.2⟩, rfl⟩

/-! ## The server behind the assignments -/

theorem modify_assign (messages : List Message) (len : Nat) (a : Assign) (rest : List Assign) :
    (messages.modify len (Assign.apply · a)).modify len (Message.assign · rest) =
      messages.modify len (Message.assign · (a :: rest)) := by
  rw [List.modify_modify_eq]
  rfl

theorem slot_modify_ne {messages : List Message} {len i : Nat} (h : len ≠ i)
    (f : Message → Message) :
    (messages.modify len f).getD i .zero = messages.getD i .zero := by
  rw [List.getD_eq_getElem?_getD, List.getElem?_modify_ne f messages h,
    ← List.getD_eq_getElem?_getD]

theorem slot_modify_self {messages : List Message} {len : Nat} (h : len < messages.length)
    (f : Message → Message) :
    (messages.modify len f).getD len .zero = f (messages.getD len .zero) := by
  rw [List.getD_eq_getElem?_getD, List.getD_eq_getElem?_getD, List.getElem?_modify_eq,
    List.getElem?_eq_getElem h]
  rfl

theorem requests_prefix (cap : Nat) (received : List Buffer) (buffer : Buffer) :
    requests cap received <+: requests cap (received ++ [buffer]) := by
  unfold requests
  rw [List.filterMap_append]
  exact List.IsPrefix.take (List.prefix_append _ _) cap

/-- The message a server has stored for a request. -/
theorem view_run {cap : Nat} {received : List Buffer} {i : Nat}
    (hi : i < (run cap received).messagesLen) : ∃ r, (requests cap received)[i]? = some r ∧
      view ((run cap received).messages.getD i .zero) = some r := by
  have hwf := run_wellFormed cap received
  have hlen := hwf.length_eq
  have hle := hwf.len_le
  have hslot : (run cap received).stored[i]? =
      some ((run cap received).messages.getD i .zero) := by
    unfold Server.stored
    rw [List.getElem?_take_of_lt hi, List.getD_eq_getElem?_getD,
      List.getElem?_eq_getElem (show i < (run cap received).messages.length by omega)]
    rfl
  have hview := congrArg (fun l => l[i]?) (run_view cap received)
  simp only [List.getElem?_map, hslot, Option.map_some] at hview
  cases hr : (requests cap received)[i]? with
  | none =>
    unfold requests at hr
    rw [hr] at hview
    cases hview
  | some r =>
    unfold requests at hr
    rw [hr] at hview
    exact ⟨r, rfl, Option.some.inj hview⟩

/-- What holds of the two threads, whatever the order of their steps. -/
structure Inv (cap : Nat) (s : State) : Prop where
  finished_eq : s.finished = run cap s.received
  /-- The slots that are not counted have never been written. -/
  behind : ∀ i, s.server.messagesLen ≤ i → s.slot i = .zero
  /-- The slot that is being written is the last one that is counted. -/
  storing : ∀ {len rest}, s.listener = .storing len rest → len + 1 = s.server.messagesLen ∧
    ∃ r, (requests cap s.received)[len]? = some r ∧ Fits r (s.slot len) ∧
      ∀ a ∈ rest, ∀ m, Fits r m → Fits r (a.apply m)

section
variable {cap : Nat} {s : State}

theorem Inv.messagesLen_eq (h : Inv cap s) :
    s.server.messagesLen = (run cap s.received).messagesLen := by
  rw [← h.finished_eq]
  unfold State.finished
  cases s.listener <;> rfl

theorem Inv.length_eq (h : Inv cap s) : s.server.messages.length = cap := by
  have hlen := (run_wellFormed cap s.received).length_eq
  rw [← h.finished_eq] at hlen
  unfold State.finished at hlen
  split at hlen
  · exact hlen
  · rwa [List.length_modify] at hlen

theorem Inv.len_le (h : Inv cap s) : s.server.messagesLen ≤ cap := by
  rw [h.messagesLen_eq]
  exact (run_wellFormed cap s.received).len_le

theorem Inv.settled_le (h : Inv cap s) : s.settled ≤ s.server.messagesLen := by
  unfold State.settled
  split
  · exact Nat.le_refl _
  · next len rest heq =>
    have := (h.storing heq).1
    omega

/-- A message that is complete is the one the sequential server stores. -/
theorem Inv.slot_settled (h : Inv cap s) {i : Nat} (hi : i < s.settled) :
    s.slot i = (run cap s.received).messages.getD i .zero := by
  rw [← h.finished_eq]
  unfold State.finished
  unfold State.settled at hi
  split
  · rfl
  · next len rest heq =>
    rw [heq] at hi
    exact (slot_modify_ne (Nat.ne_of_gt hi) _).symm

theorem Inv.fits (h : Inv cap s) {i : Nat} (hi : i < s.server.messagesLen) :
    ∃ r, (requests cap s.received)[i]? = some r ∧ Fits r (s.slot i) := by
  by_cases hset : i < s.settled
  · have hlt := hi
    rw [h.messagesLen_eq] at hlt
    obtain ⟨r, hr, hview⟩ := view_run hlt
    refine ⟨r, hr, fits_of_view ?_⟩
    rwa [h.slot_settled hset]
  · unfold State.settled at hset
    split at hset
    · exact absurd hi hset
    · next len rest heq =>
      obtain ⟨hlen, r, hr, hfits, -⟩ := h.storing heq
      have hlast : i = len := by omega
      subst hlast
      exact ⟨r, hr, hfits⟩

theorem inv_start (cap : Nat) : Inv cap { server := .create cap } where
  finished_eq := rfl
  behind i _ := by
    show (List.replicate cap Message.zero).getD i .zero = .zero
    rw [List.getD_eq_getElem?_getD, List.getElem?_replicate]
    split <;> rfl
  storing h := by cases h

/-- What a datagram does to the state. -/
theorem receive_cases (s : State) (buffer : Buffer) :
    (∃ len rest, s.listener = .storing len rest ∧ s.receive buffer = s) ∨
    (s.listener = .waiting ∧ s.server.insertMessageFromBuffer buffer = s.server ∧
      s.receive buffer = { s with received := s.received ++ [buffer] }) ∨
    ∃ stores, s.listener = .waiting ∧ s.server.messagesLen < s.server.messagesCap ∧
      storesOf buffer = some stores ∧ s.receive buffer = { s with
        received := s.received ++ [buffer]
        listener := .storing s.server.messagesLen stores
        server := { s.server with messagesLen := s.server.messagesLen + 1 } } := by
  unfold State.receive
  cases hl : s.listener with
  | storing len rest => exact .inl ⟨len, rest, rfl, rfl⟩
  | waiting =>
    by_cases hfull : s.server.messagesLen ≥ s.server.messagesCap
    · refine .inr (.inl ⟨rfl, ?_, ?_⟩)
      · rw [insert_eq, if_pos hfull]
      · exact if_pos hfull
    · cases hstores : storesOf buffer with
      | none =>
        refine .inr (.inl ⟨rfl, ?_, ?_⟩)
        · rw [insert_eq, if_neg hfull, hstores]
          rfl
        · simp only [if_neg hfull]
      | some stores =>
        refine .inr (.inr ⟨stores, rfl, by omega, rfl, ?_⟩)
        simp only [if_neg hfull]

theorem Inv.receive (h : Inv cap s) (buffer : Buffer) : Inv cap (s.receive buffer) := by
  rcases receive_cases s buffer with ⟨-, -, -, heq⟩ | ⟨hl, hinsert, heq⟩ |
    ⟨stores, hl, hroom, hstores, heq⟩
  · rw [heq]
    exact h
  · have hfin : s.server = run cap s.received := by
      rw [← h.finished_eq]
      unfold State.finished
      rw [hl]
    rw [heq]
    refine ⟨?_, h.behind, fun hst => ?_⟩
    · show State.finished _ = run cap (s.received ++ [buffer])
      rw [run_concat, ← hfin, hinsert]
      unfold State.finished
      simp only [hl]
    · rw [hl] at hst
      cases hst
  · have hfin : s.server = run cap s.received := by
      rw [← h.finished_eq]
      unfold State.finished
      rw [hl]
    have hrun : run cap (s.received ++ [buffer]) = s.server.push (Message.assign · stores) := by
      rw [run_concat, ← hfin, insert_eq, if_neg (by omega), hstores]
      rfl
    have hlen := h.length_eq
    have hcap : s.server.messagesCap = cap := by
      rw [hfin]
      exact (run_wellFormed cap s.received).cap_eq
    rw [heq]
    refine ⟨?_, fun i hi => h.behind i (Nat.le_of_succ_le hi), fun hst => ?_⟩
    · show _ = run cap (s.received ++ [buffer])
      rw [hrun]
      rfl
    · cases hst
      refine ⟨rfl, ?_⟩
      -- the request the sequential server stores in this slot is that of the datagram
      obtain ⟨r, hdecode, hview⟩ := view_assign hstores .zero
      have hlt : s.server.messagesLen < (run cap (s.received ++ [buffer])).messagesLen := by
        rw [hrun]
        exact Nat.lt_succ_self _
      obtain ⟨r', hr', hview'⟩ := view_run hlt
      have hslot : (run cap (s.received ++ [buffer])).messages.getD s.server.messagesLen .zero =
          Message.zero.assign stores := by
        rw [hrun]
        show (s.server.messages.modify _ _).getD _ _ = _
        rw [slot_modify_self (by omega)]
        exact congrArg (Message.assign · stores) (h.behind _ (Nat.le_refl _))
      rw [hslot, hview] at hview'
      cases hview'
      refine ⟨r, hr', ?_, fun a ha m hm => fits_apply hstores hdecode ha hm⟩
      have hzero : s.slot s.server.messagesLen = .zero := h.behind _ (Nat.le_refl _)
      show Fits r (s.slot s.server.messagesLen)
      rw [hzero]
      exact fits_zero r

theorem Inv.store (h : Inv cap s) : Inv cap s.store := by
  unfold State.store
  split
  · exact h
  · next len hl =>
    refine ⟨?_, h.behind, fun hst => nomatch hst⟩
    rw [← h.finished_eq]
    unfold State.finished
    rw [hl]
    show s.server = { s.server with messages := s.server.messages.modify len id }
    rw [List.modify_id]
  · next len a rest hl =>
    obtain ⟨hlen, r, hr, hfits, hrest⟩ := h.storing hl
    have hbound : len < s.server.messages.length := by
      have := h.length_eq
      have := h.len_le
      omega
    refine ⟨?_, fun i hi => ?_, fun hst => ?_⟩
    · show _ = run cap s.received
      rw [← h.finished_eq]
      unfold State.finished
      rw [hl]
      simp only
      rw [modify_assign]
    · show (s.server.messages.modify len _).getD i .zero = .zero
      rw [slot_modify_ne (show len ≠ i from fun he => by
        subst he
        exact absurd (show s.server.messagesLen ≤ len from hi) (by omega))]
      exact h.behind i hi
    · cases hst
      refine ⟨hlen, r, hr, ?_, fun b hb => hrest b (List.mem_cons_of_mem a hb)⟩
      show Fits r ((s.server.messages.modify len _).getD len .zero)
      rw [slot_modify_self hbound]
      exact hrest a List.mem_cons_self _ hfits

theorem Inv.render (h : Inv cap s) : Inv cap s.render := by
  have hkeep : ∀ {s' : State}, s'.server = s.server → s'.listener = s.listener →
      s'.received = s.received → Inv cap s' := by
    intro s' hserver hlistener hreceived
    refine ⟨?_, fun i hi => ?_, fun hst => ?_⟩
    · rw [hreceived, ← h.finished_eq]
      unfold State.finished
      rw [hserver, hlistener]
    · unfold State.slot
      rw [hserver] at hi ⊢
      exact h.behind i hi
    · unfold State.slot
      rw [hlistener] at hst
      rw [hserver, hreceived]
      exact h.storing hst
  unfold State.render
  split
  · split
    · exact hkeep rfl rfl rfl
    · exact hkeep rfl rfl rfl
  · exact hkeep rfl rfl rfl
  · exact hkeep rfl rfl rfl
  · exact hkeep rfl rfl rfl

theorem Inv.step (h : Inv cap s) (event : Event) : Inv cap (s.step event) := by
  cases event with
  | receive buffer => exact h.receive buffer
  | store => exact h.store
  | render => exact h.render

theorem inv_foldl (h : Inv cap s) (events : List Event) : Inv cap (events.foldl State.step s) := by
  induction events generalizing s with
  | nil => exact h
  | cons event events ih => exact ih (h.step event)

end

theorem inv_after (cap : Nat) (events : List Event) : Inv cap (after cap events) :=
  inv_foldl (inv_start cap) events

/-! ## The frames -/

/-- Each place of the frame shows a mix of its request, and the first `k` show the messages
`M`, as they are. -/
def Good (cap k : Nat) (M : Nat → Message) (received : List Buffer) (frame : List (Option Draw)) :
    Prop :=
  ∀ i draw, frame[i]? = some draw →
    (∃ r, (requests cap received)[i]? = some r ∧ MixOrNone r draw) ∧
      (i < k → draw = drawMessage (M i))

/-- What is left to read of `messages[i]` leads to such a place. -/
def Leads (cap k : Nat) (M : Nat → Message) (received : List Buffer) (i : Nat) (todo : Reading) :
    Prop :=
  (∃ r, (requests cap received)[i]? = some r ∧ todo.Yields (Fits r) (MixOrNone r)) ∧
    (i < k → todo.Yields (fun m => m = M i) (fun draw => draw = drawMessage (M i)))

/-- What holds of the render loop from a start on at which the first `k` messages are complete,
with `base` for the frames shown before it. -/
structure Drawn (cap k : Nat) (M : Nat → Message) (base : List (List (Option Draw))) (s : State) :
    Prop where
  settled_le : k ≤ s.settled
  slot_eq : ∀ i < k, s.slot i = M i
  shown_eq : ∃ frames, s.shown = base ++ frames ∧
    ∀ frame ∈ frames, Good cap k M s.received frame ∧ k ≤ frame.length
  frame_good : Good cap k M s.received s.frame
  checking : ∀ {i}, s.renderer = .checking i → s.frame.length = i
  drawing : ∀ {i todo}, s.renderer = .drawing i todo → s.frame.length = i ∧
    i < s.server.messagesLen ∧ Leads cap k M s.received i todo

section
variable {cap k : Nat} {M : Nat → Message} {base : List (List (Option Draw))} {s : State}

theorem requests_mono {received : List Buffer} (buffer : Buffer) {i : Nat} {r : Request}
    (h : (requests cap received)[i]? = some r) :
    (requests cap (received ++ [buffer]))[i]? = some r := by
  obtain ⟨more, hmore⟩ := requests_prefix cap received buffer
  rw [← hmore, List.getElem?_append_left (List.getElem?_eq_some_iff.1 h).1, h]

theorem Good.receive {received : List Buffer} {frame : List (Option Draw)} (buffer : Buffer)
    (h : Good cap k M received frame) : Good cap k M (received ++ [buffer]) frame := by
  intro i draw hdraw
  obtain ⟨⟨r, hr, hmix⟩, hset⟩ := h i draw hdraw
  exact ⟨⟨r, requests_mono buffer hr, hmix⟩, hset⟩

theorem Good.concat {received : List Buffer} {frame : List (Option Draw)} {draw : Option Draw}
    (h : Good cap k M received frame) (hdraw : Leads cap k M received frame.length (.drawn draw)) :
    Good cap k M received (frame ++ [draw]) := by
  intro i draw' hi
  rcases Nat.lt_trichotomy i frame.length with hlt | rfl | hgt
  · rw [List.getElem?_append_left hlt] at hi
    exact h i draw' hi
  · rw [List.getElem?_concat_length] at hi
    cases hi
    exact hdraw
  · rw [List.getElem?_eq_none (by rw [List.length_append, List.length_singleton]; omega)] at hi
    cases hi

/-- A datagram changes none of what the render loop sees of the messages counted before. -/
theorem Drawn.receive (h : Drawn cap k M base s) (buffer : Buffer) :
    Drawn cap k M base (s.receive buffer) := by
  have hgrow : ∀ {s' : State}, s'.received = s.received ++ [buffer] → s'.settled = s.settled →
      s'.server.messages = s.server.messages → s.server.messagesLen ≤ s'.server.messagesLen →
      s'.shown = s.shown → s'.frame = s.frame → s'.renderer = s.renderer →
      Drawn cap k M base s' := by
    intro s' hreceived hsettled hmessages hlen hshown hframe hrenderer
    refine ⟨hsettled ▸ h.settled_le, fun i hi => ?_, ?_, ?_, fun hc => ?_, fun hd => ?_⟩
    · unfold State.slot
      rw [hmessages]
      exact h.slot_eq i hi
    · obtain ⟨frames, heq, hframes⟩ := h.shown_eq
      refine ⟨frames, hshown.trans heq, fun frame hmem => ?_⟩
      rw [hreceived]
      exact ⟨(hframes frame hmem).1.receive buffer, (hframes frame hmem).2⟩
    · rw [hreceived, hframe]
      exact h.frame_good.receive buffer
    · rw [hframe]
      exact h.checking (hrenderer ▸ hc)
    · obtain ⟨hi, hlt, ⟨r, hr, hy⟩, hone⟩ := h.drawing (hrenderer ▸ hd)
      rw [hframe, hreceived]
      exact ⟨hi, by omega, ⟨r, requests_mono buffer hr, hy⟩, hone⟩
  rcases receive_cases s buffer with ⟨-, -, -, heq⟩ | ⟨hl, -, heq⟩ | ⟨stores, hl, -, -, heq⟩
  · rw [heq]
    exact h
  · rw [heq]
    exact hgrow rfl rfl rfl (Nat.le_refl _) rfl rfl rfl
  · rw [heq]
    refine hgrow rfl ?_ rfl (Nat.le_succ _) rfl rfl rfl
    unfold State.settled
    rw [hl]

theorem Drawn.store (h : Drawn cap k M base s) (hinv : Inv cap s) : Drawn cap k M base s.store := by
  unfold State.store
  split
  · exact h
  · next len hl =>
    have hset := h.settled_le
    have hlen := (hinv.storing hl).1
    refine ⟨?_, h.slot_eq, h.shown_eq, h.frame_good, h.checking, h.drawing⟩
    unfold State.settled at hset ⊢
    rw [hl] at hset
    show k ≤ s.server.messagesLen
    change k ≤ len at hset
    omega
  · next len a rest hl =>
    have hset := h.settled_le
    unfold State.settled at hset
    rw [hl] at hset
    change k ≤ len at hset
    refine ⟨hset, fun i hi => ?_, h.shown_eq, h.frame_good, h.checking, h.drawing⟩
    show (s.server.messages.modify len _).getD i .zero = M i
    rw [slot_modify_ne (by omega)]
    exact h.slot_eq i hi

theorem Drawn.render (h : Drawn cap k M base s) (hinv : Inv cap s) :
    Drawn cap k M base s.render := by
  -- a read of `messages[i]`
  have hread : ∀ {i todo next}, s.renderer = .drawing i todo →
      (∀ A ok, todo.Yields A ok → A (s.slot i) → Reading.Yields A ok next) →
      Drawn cap k M base { s with renderer := .drawing i next } := by
    intro i todo next hd hnext
    obtain ⟨hi, hlt, ⟨r, hr, hy⟩, hone⟩ := h.drawing hd
    obtain ⟨r', hr', hfits⟩ := hinv.fits hlt
    rw [hr] at hr'
    cases hr'
    refine ⟨h.settled_le, h.slot_eq, h.shown_eq, h.frame_good, (fun hc => nomatch hc),
      fun hd' => ?_⟩
    cases hd'
    exact ⟨hi, hlt, ⟨r, hr, hnext _ _ hy hfits⟩,
      fun hik => hnext _ _ (hone hik) (h.slot_eq i hik)⟩
  unfold State.render
  split
  · next i hc =>
    have hlen := h.checking hc
    split
    · next hlt =>
      refine ⟨h.settled_le, h.slot_eq, h.shown_eq, h.frame_good, (fun hc' => nomatch hc'),
        fun hd => ?_⟩
      cases hd
      obtain ⟨r, hr, -⟩ := hinv.fits hlt
      refine ⟨hlen, hlt, ⟨r, hr, yields_fits r⟩, fun _ => ?_⟩
      rw [← finish_readMessage]
      exact yields_one (M i) readMessage
    · next hge =>
      -- the frame is complete
      have hk : k ≤ s.frame.length := by
        have := h.settled_le
        have := hinv.settled_le
        omega
      refine ⟨h.settled_le, h.slot_eq, ?_, fun i draw hi => ?_, fun hc' => ?_, fun hd => nomatch hd⟩
      · obtain ⟨frames, heq, hframes⟩ := h.shown_eq
        refine ⟨frames ++ [s.frame], ?_, fun frame hmem => ?_⟩
        · show s.shown ++ [s.frame] = _
          rw [heq, List.append_assoc]
        · rcases List.mem_append.1 hmem with hmem | hmem
          · exact hframes frame hmem
          · rw [List.mem_singleton.1 hmem]
            exact ⟨h.frame_good, hk⟩
      · cases hi
      · cases hc'
        rfl
  · next i draw hd =>
    obtain ⟨hi, hlt, hleads⟩ := h.drawing hd
    subst hi
    refine ⟨h.settled_le, h.slot_eq, h.shown_eq, h.frame_good.concat hleads, fun hc => ?_,
      fun hd' => nomatch hd'⟩
    cases hc
    exact List.length_append
  · next i o next hd => exact hread hd fun A ok hy hA => hy _ hA
  · next i o next hd => exact hread hd fun A ok hy hA => hy _ hA

theorem drawn_foldl (h : Drawn cap k M base s) (hinv : Inv cap s) (events : List Event) :
    Drawn cap k M base (events.foldl State.step s) := by
  induction events generalizing s with
  | nil => exact h
  | cons event events ih =>
    refine ih ?_ (hinv.step event)
    cases event with
    | receive buffer => exact h.receive buffer
    | store => exact h.store hinv
    | render => exact h.render hinv

end

theorem drawn_after (cap : Nat) (events : List Event) :
    Drawn cap 0 (fun _ => .zero) [] (after cap events) := by
  refine drawn_foldl ⟨Nat.zero_le _, fun i hi => absurd hi (Nat.not_lt_zero i),
    ⟨[], rfl, fun _ hmem => absurd hmem List.not_mem_nil⟩, fun i draw hi => ?_, fun hc => ?_,
    fun hd => ?_⟩ (inv_start cap) events
  · cases hi
  · cases hc
    rfl
  · cases hd

/-- The request of a message that is complete, and what is drawn for it. -/
theorem settled_draw (cap : Nat) (events : List Event) {i : Nat}
    (hi : i < (after cap events).settled) :
    ∃ r, ((after cap events).received.filterMap decode)[i]? = some r ∧
      drawMessage ((after cap events).slot i) = some r.draw := by
  have hinv := inv_after cap events
  have hlt : i < (run cap (after cap events).received).messagesLen := by
    rw [← hinv.messagesLen_eq]
    exact Nat.lt_of_lt_of_le hi hinv.settled_le
  obtain ⟨r, hr, hview⟩ := view_run hlt
  refine ⟨r, ?_, ?_⟩
  · unfold requests at hr
    rw [List.getElem?_take] at hr
    split at hr
    · exact hr
    · cases hr
  · rw [drawMessage_eq, hinv.slot_settled hi, hview]
    rfl

section
variable (cap : Nat) (before behind : List Event)
  (hstart : (after cap before).renderer = .checking 0)

include hstart

/-- The frames that begin from there on. -/
theorem frames_from :
    ∃ frames, (after cap (before ++ behind)).shown = (after cap before).shown ++ frames ∧
      ∀ frame ∈ frames,
        Good cap (after cap before).settled (after cap before).slot
          (after cap (before ++ behind)).received frame ∧
        (after cap before).settled ≤ frame.length := by
  have hframe : (after cap before).frame = [] :=
    List.length_eq_zero_iff.1 ((drawn_after cap before).checking hstart)
  have hdrawn : Drawn cap (after cap before).settled (after cap before).slot
      (after cap before).shown (after cap before) := by
    refine ⟨Nat.le_refl _, fun _ _ => rfl,
      ⟨[], (List.append_nil _).symm, fun _ hmem => absurd hmem List.not_mem_nil⟩,
      fun i draw hi => ?_, (drawn_after cap before).checking, fun hd => ?_⟩
    · rw [hframe] at hi
      cases hi
    · rw [hstart] at hd
      cases hd
  have hafter : after cap (before ++ behind) = behind.foldl State.step (after cap before) :=
    List.foldl_append
  rw [hafter]
  exact (drawn_foldl hdrawn (inv_after cap before) behind).shown_eq

/-- **Every frame shows the requests in order and none skipped**: those that were complete when
it began, and behind them up to the capacity, each with its fields written or still zero, and
drawn as nothing only while it was not complete. -/
theorem frames_blend :
    ∃ frames, (after cap (before ++ behind)).shown = (after cap before).shown ++ frames ∧
      ∀ frame ∈ frames, (after cap before).settled ≤ frame.length ∧ frame.length ≤ cap ∧
        ∀ (i : Nat) (draw : Option Draw), frame[i]? = some draw →
          ∃ r, ((after cap (before ++ behind)).received.filterMap decode)[i]? = some r ∧
            ((∃ d, draw = some d ∧ Mix r d) ∨ draw = none ∧ (after cap before).settled ≤ i) := by
  obtain ⟨frames, heq, hframes⟩ := frames_from cap before behind hstart
  refine ⟨frames, heq, fun frame hmem => ?_⟩
  obtain ⟨hgood, hlen⟩ := hframes frame hmem
  have hplace : ∀ i < frame.length,
      i < cap ∧ ∃ r, ((after cap (before ++ behind)).received.filterMap decode)[i]? = some r := by
    intro i hi
    obtain ⟨⟨r, hr, -⟩, -⟩ := hgood i _ (List.getElem?_eq_getElem hi)
    unfold requests at hr
    rw [List.getElem?_take] at hr
    split at hr
    · next hcap => exact ⟨hcap, r, hr⟩
    · cases hr
  refine ⟨hlen, ?_, fun i draw hdraw => ?_⟩
  · by_contra hgt
    exact absurd (hplace cap (by omega)).1 (Nat.lt_irrefl cap)
  · obtain ⟨hi, -⟩ := List.getElem?_eq_some_iff.1 hdraw
    obtain ⟨⟨r, hr, hmix⟩, hset⟩ := hgood i draw hdraw
    obtain ⟨hcap, r', hr'⟩ := hplace i hi
    unfold requests at hr
    rw [List.getElem?_take, if_pos hcap] at hr
    refine ⟨r, hr, ?_⟩
    rcases hmix with hnone | hsome
    · refine .inr ⟨hnone, ?_⟩
      by_contra hlt
      obtain ⟨r'', -, hdrawn⟩ := settled_draw cap before (i := i) (by omega)
      rw [hnone, hdrawn] at hset
      exact absurd (hset (by omega)) nofun
    · exact .inl hsome

/-- **A frame shows every message that was complete when it began, as the datagram asked**, but
with the width and height of a rectangle exchanged. -/
theorem frames_settled :
    ∃ frames, (after cap (before ++ behind)).shown = (after cap before).shown ++ frames ∧
      ∀ frame ∈ frames, ∀ i < (after cap before).settled,
        ∃ r, ((after cap before).received.filterMap decode)[i]? = some r ∧
          frame[i]? = some (some r.asked.exchanged) := by
  obtain ⟨frames, heq, hframes⟩ := frames_from cap before behind hstart
  refine ⟨frames, heq, fun frame hmem i hi => ?_⟩
  obtain ⟨hgood, hlen⟩ := hframes frame hmem
  obtain ⟨r, hr, hdrawn⟩ := settled_draw cap before hi
  have hplace := List.getElem?_eq_getElem (show i < frame.length by omega)
  refine ⟨r, hr, ?_⟩
  rw [hplace, (hgood i _ hplace).2 hi, hdrawn]
  rfl

end

/-- The red dot, all its assignments made. -/
def dotStored : List Event :=
  .receive redDot.pixelMessage.toBuffer :: List.replicate 7 .store

theorem frames_settled_dot : (after 1 dotStored).settled = 1 ∧
    ∃ frames, (after 1 (dotStored ++ List.replicate 9 .render)).shown =
        (after 1 dotStored).shown ++ frames ∧
      ∀ frame ∈ frames, ∀ i < (after 1 dotStored).settled,
        ∃ r, ((after 1 dotStored).received.filterMap decode)[i]? = some r ∧
          frame[i]? = some (some r.asked.exchanged) :=
  ⟨by decide +kernel, frames_settled 1 dotStored (List.replicate 9 .render) rfl⟩

theorem frames_blend_dot : (after 1 dotStored).settled = 1 ∧
    ∃ frames, (after 1 (dotStored ++ List.replicate 9 .render)).shown =
        (after 1 dotStored).shown ++ frames ∧
      ∀ frame ∈ frames, (after 1 dotStored).settled ≤ frame.length ∧ frame.length ≤ 1 ∧
        ∀ (i : Nat) (draw : Option Draw), frame[i]? = some draw →
          ∃ r, ((after 1 (dotStored ++ List.replicate 9 .render)).received.filterMap
              decode)[i]? = some r ∧
            ((∃ d, draw = some d ∧ Mix r d) ∨ draw = none ∧ (after 1 dotStored).settled ≤ i) :=
  ⟨by decide +kernel, frames_blend 1 dotStored (List.replicate 9 .render) rfl⟩

/-! ## A frame of a message that is not there yet -/

/-- The render loop alone makes all its reads of one message. -/
theorem render_finish (todo : Reading) {s : State} {i : Nat} (h : s.renderer = .drawing i todo) :
    ∃ k, (List.replicate k Event.render).foldl State.step s =
      { s with renderer := .drawing i (.drawn (todo.finish (s.slot i))) } := by
  induction todo generalizing s with
  | drawn draw =>
    obtain ⟨server, listener, renderer, received, frame, shown⟩ := s
    cases h
    exact ⟨0, rfl⟩
  | read8 o next ih =>
    have hstep : s.render = { s with renderer := .drawing i (next (get8 (s.slot i).bytes o)) } := by
      unfold State.render
      rw [h]
    obtain ⟨k, hk⟩ := @ih _ s.render (by rw [hstep])
    refine ⟨k + 1, ?_⟩
    show (List.replicate k Event.render).foldl State.step s.render = _
    rw [hk, hstep]
    rfl
  | read32 o next ih =>
    have hstep : s.render =
        { s with renderer := .drawing i (next (get32 (s.slot i).bytes o)) } := by
      unfold State.render
      rw [h]
    obtain ⟨k, hk⟩ := @ih _ s.render (by rw [hstep])
    refine ⟨k + 1, ?_⟩
    show (List.replicate k Event.render).foldl State.step s.render = _
    rw [hk, hstep]
    rfl

/-- The first assignment is the discriminator's. -/
theorem storesOf_head {buffer : Buffer} {r : Request} (hr : decode buffer = some r) :
    ∃ kind rest, storesOf buffer = some (.set8 0 kind :: rest) ∧
      drawMessage (Message.zero.set8 0 kind) = some r.blank.draw := by
  rcases storesOf_cases buffer with ⟨-, hd⟩ | ⟨hs, hd⟩ | ⟨hs, hd⟩ | ⟨hs, hd⟩ <;>
    rw [hd] at hr <;> cases hr
  · have hpoint : drawMessage (Message.zero.set8 0 1) = some (.point 0 0 (0, 0, 0)) := by
      decide +kernel
    exact ⟨1, _, hs, hpoint⟩
  · have hline : drawMessage (Message.zero.set8 0 2) = some (.line 0 0 0 0 (0, 0, 0)) := by
      decide +kernel
    exact ⟨2, _, hs, hline⟩
  · have hrect : drawMessage (Message.zero.set8 0 3) = some (.rect ⟨0, 0, 0, 0⟩ (0, 0, 0)) := by
      decide +kernel
    exact ⟨3, _, hs, hrect⟩

/-- **Any request can first be shown at the origin and in black.** -/
theorem frames_blank {cap : Nat} (hcap : 0 < cap) {buffer : Buffer} {r : Request}
    (hr : decode buffer = some r) : ∃ events, (after cap events).received = [buffer] ∧
      (after cap events).shown = [[some r.blank.draw]] := by
  obtain ⟨kind, rest, hstores, hdraw⟩ := storesOf_head hr
  -- the datagram, its discriminator, and the render loop at `messages[0]`
  let s : State :=
    { server :=
        { messagesLen := 1
          messagesCap := cap
          messages := (List.replicate cap .zero).modify 0 (Assign.apply · (.set8 0 kind)) }
      listener := .storing 0 rest
      renderer := .drawing 0 readMessage
      received := [buffer] }
  have hreach : after cap [.receive buffer, .store, .render] = s := by
    have hreceive : State.receive { server := .create cap } buffer =
        { server := { Server.create cap with messagesLen := 1 }
          listener := .storing 0 (.set8 0 kind :: rest)
          received := [buffer] } := by
      unfold State.receive
      have hroom : ¬ (Server.create cap).messagesLen ≥ (Server.create cap).messagesCap :=
        Nat.not_le.2 hcap
      simp only [if_neg hroom, hstores]
      rfl
    show State.render (State.store (State.receive { server := .create cap } buffer)) = s
    rw [hreceive]
    rfl
  have hslot : s.slot 0 = Message.zero.set8 0 kind := by
    show ((List.replicate cap Message.zero).modify 0 _).getD 0 .zero = _
    rw [slot_modify_self (by rw [List.length_replicate]; exact hcap)]
    cases cap with
    | zero => exact absurd hcap (Nat.lt_irrefl 0)
    | succ cap => rfl
  obtain ⟨k, hk⟩ := render_finish readMessage (show s.renderer = .drawing 0 readMessage from rfl)
  rw [finish_readMessage, hslot, hdraw] at hk
  refine ⟨[.receive buffer, .store, .render] ++ List.replicate k .render ++ [.render, .render], ?_⟩
  have hend : after cap ([.receive buffer, .store, .render] ++ List.replicate k .render ++
      [.render, .render]) = State.render (State.render
        { s with renderer := .drawing 0 (.drawn (some r.blank.draw)) }) := by
    rw [← hk, ← hreach]
    unfold after
    rw [List.foldl_append, List.foldl_append]
    rfl
  rw [hend]
  exact ⟨rfl, rfl⟩

theorem frames_blank_dot : ∃ events,
    (after 1 events).received = [redDot.pixelMessage.toBuffer] ∧
      (after 1 events).shown = [[some (.point 0 0 (0, 0, 0))]] :=
  frames_blank (r := .pixel 7 9 (255, 0, 0)) Nat.zero_lt_one (by decide +kernel)

end Packetdraw
