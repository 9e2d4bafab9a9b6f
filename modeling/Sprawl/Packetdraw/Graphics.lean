import Sprawl.Packetdraw.Message

/-!
# Drawing the stored messages (`packetdraw/graphics.c`)

The render loop goes through the stored messages and draws one shape for each.  The client
sends the width of a rectangle as `to_x` and the height as `to_y`; `draw_rect` makes `to_x`
the height and `to_y` the width, so that only squares come out as they were asked for
(`draws_iff`).
-/

namespace Packetdraw

open PackedStruct

/-- `SDL_Rect`. -/
structure Rect where
  x : Int32
  y : Int32
  h : Int32
  w : Int32
deriving DecidableEq

/-- A shape handed to the renderer, with the colour set for it. -/
inductive Draw
  | point (x y : Int32) (rgb : UInt8 × UInt8 × UInt8)
  | line (x y toX toY : Int32) (rgb : UInt8 × UInt8 × UInt8)
  | rect (rect : Rect) (rgb : UInt8 × UInt8 × UInt8)
deriving DecidableEq

def drawRect (message : List UInt8) : Draw :=
  let rect : Rect :=
    { x := (get32 message rectangle.x).toInt32
      y := (get32 message rectangle.y).toInt32
      h := (get32 message rectangle.toX).toInt32
      w := (get32 message rectangle.toY).toInt32 }
  .rect rect (getRgb message rectangle.rgb)

def drawPixel (message : List UInt8) : Draw :=
  .point (get32 message pixel.x).toInt32 (get32 message pixel.y).toInt32
    (getRgb message pixel.rgb)

def drawLine (message : List UInt8) : Draw :=
  .line (get32 message line.x).toInt32 (get32 message line.y).toInt32
    (get32 message line.toX).toInt32 (get32 message line.toY).toInt32 (getRgb message line.rgb)

/-- `draw_message`: what it draws, if anything. -/
def drawMessage (message : Message) : Option Draw :=
  if get8 message.bytes discriminator = MsgType.pixel.toByte then some (drawPixel message.bytes)
  else if get8 message.bytes discriminator = MsgType.line.toByte then some (drawLine message.bytes)
  else if get8 message.bytes discriminator = MsgType.rectangle.toByte then
    some (drawRect message.bytes)
  else none

/-- One pass of `packetdraw_graphics_render`: what it draws for each stored message. -/
def render (server : Server) : List (Option Draw) := server.stored.map drawMessage

/-- The rectangle as the client asked for it. -/
def Client.rect (client : Client) : Draw :=
  .rect { x := client.x.toInt32, y := client.y.toInt32,
          w := client.w.toInt32, h := client.h.toInt32 }
    (client.r, client.g, client.b)

/-- Wherever the request is stored, it is drawn as it was asked for. -/
def DrawsAsAsked (client : Client) : Prop :=
  ∀ cap before buffer after, client.sendMessage = some buffer →
    (run cap before).messagesLen < cap →
      (render (run cap (before ++ buffer :: after)))[(run cap before).messagesLen]? =
        some (some client.rect)

theorem drawMessage_rectangle {m : Message} {x y toX toY : UInt32} {rgb : UInt8 × UInt8 × UInt8}
    (h : view m = some (.rectangle x y toX toY rgb)) : drawMessage m =
      some (.rect { x := x.toInt32, y := y.toInt32, h := toX.toInt32, w := toY.toInt32 } rgb) := by
  unfold view readRequest at h
  unfold drawMessage discriminator
  split at h
  · cases h
  · next hpixel =>
    split at h
    · cases h
    · next hline =>
      split at h
      · next hrectangle =>
        cases h
        exact (if_neg hpixel).trans ((if_neg hline).trans (if_pos hrectangle))
      · cases h

/-- The message a datagram leaves in the slot it comes to. -/
theorem stored_buffer {cap : Nat} {before : List Buffer} {buffer : Buffer} (after : List Buffer)
    {request : Request} (hdecode : decode buffer = some request)
    (hroom : (run cap before).messagesLen < cap) :
    ∃ m, (run cap (before ++ buffer :: after)).stored[(run cap before).messagesLen]? = some m ∧
      view m = some request := by
  have hwf := run_wellFormed cap before
  rcases insert_cases (run cap before) buffer with
    ⟨hnone | hfull, -⟩ | ⟨-, request', store, hdecode', hview, heq⟩
  · rw [hdecode] at hnone
    cases hnone
  · rw [hwf.cap_eq] at hfull
    omega
  · rw [hdecode] at hdecode'
    cases hdecode'
    obtain ⟨slot, hstored⟩ := push_stored hwf hroom store
    have hprefix := run_keeps_stored cap (before ++ [buffer]) after
    rw [run_concat, heq, hstored, List.append_assoc, List.singleton_append] at hprefix
    obtain ⟨rest, hrest⟩ := hprefix
    refine ⟨store slot, ?_, hview slot⟩
    rw [← hrest, ← hwf.length_stored, List.append_assoc, List.getElem?_append_right (Nat.le_refl _)]
    simp

/-- **A rectangle is drawn as it was asked for exactly if it is a square.** -/
theorem draws_iff (client : Client) (h : client.type = .rectangle) :
    DrawsAsAsked client ↔ client.w = client.h := by
  have hrequest : client.request =
      some (.rectangle client.x client.y client.w client.h (client.r, client.g, client.b)) := by
    rw [Client.request, h]
  have hdrawn : ∀ cap before buffer after, client.sendMessage = some buffer →
      (run cap before).messagesLen < cap →
        (render (run cap (before ++ buffer :: after)))[(run cap before).messagesLen]? =
          some (some (.rect
            ⟨client.x.toInt32, client.y.toInt32, client.w.toInt32, client.h.toInt32⟩
            (client.r, client.g, client.b))) := by
    intro cap before buffer after hsend hroom
    obtain ⟨m, hm, hview⟩ :=
      stored_buffer after ((decode_sentMessage hsend).trans hrequest) hroom
    rw [render, List.getElem?_map, hm, Option.map_some, drawMessage_rectangle hview]
  constructor
  · intro hasked
    have hsend : client.sendMessage = some client.rectangleMessage.toBuffer := by
      rw [Client.sendMessage, h]
    have hdraw := hasked 1 [] _ [] hsend Nat.zero_lt_one
    rw [hdrawn 1 [] _ [] hsend Nat.zero_lt_one, Client.rect] at hdraw
    simp only [Option.some.injEq, Draw.rect.injEq, Rect.mk.injEq] at hdraw
    have hw : client.w.toInt32 = client.h.toInt32 := hdraw.1.2.2.1
    have hw' := congrArg Int32.toUInt32 hw
    rwa [UInt32.toUInt32_toInt32, UInt32.toUInt32_toInt32] at hw'
  · intro hsquare cap before buffer after hsend hroom
    rw [hdrawn cap before buffer after hsend hroom, Client.rect, hsquare]

def square : Client :=
  { type := .rectangle, x := 1, y := 2, w := 3, h := 3, r := 255, g := 0, b := 0 }

theorem draws_iff_square : DrawsAsAsked square ↔ square.w = square.h := draws_iff square rfl

/-- A rectangle of width 40 and height 10. -/
def wide : Client :=
  { type := .rectangle, x := 1, y := 2, w := 40, h := 10, r := 255, g := 0, b := 0 }

/-- It is drawn with width 10 and height 40. -/
theorem wide_not_drawn : ¬ DrawsAsAsked wide := by
  intro h
  have hdraw := h 1 [] wide.rectangleMessage.toBuffer [] rfl Nat.zero_lt_one
  revert hdraw
  decide +kernel

end Packetdraw
