import Sprawl.Fttl.Datagram
import Sprawl.Lib.Text

/-!
# The lines of the client (`fttl/fttl.cc`)

`ClientLoop` looks for `send` in a line, takes what is behind the first blank and cuts it
at its first colon into a path and a timestamp.  A path, with blanks or without, is sent as
it was typed and with its timestamp exactly when it has no colon and leaves room for the
timestamp in the buffer (`clientLine_sends_iff`).
-/

namespace Fttl

open Cxx Text

/-! ## The code -/

inductive Effect
  | print (text : List Char)
  | send (datagram : List UInt8)
deriving DecidableEq

/-- `help_fn()` -/
def help : Effect :=
  .print ("usage: \n  help - print this\n" ++
    "  send - send a message in the format of 'path:unixtimestamp'\n").toList

def prompt : Effect := .print "[fttl] ".toList

def badFormat : Effect :=
  .print "bad format for path:timestamp. example: /tmp/blah/bleh:123123123\n".toList

/-- The `char`s of a path. -/
def pathBytes (text : List Char) : List Int8 := text.map fun c => c.toNat.toUInt8.toInt8

/-- One turn of `ClientLoop`. -/
def clientLine (input : List Char) : Except Stop (List Effect) := do
  let helped := if input = "help".toList then [help] else []
  match find input "send".toList 0 with
  | none => return helped ++ [prompt]
  | some _ =>
    match find input " ".toList 0 with
    | none => return helped ++ [help]
    | some offset =>
      let token ← substr input (offset + 1) (input.length - offset - 1)
      let helped := helped ++ [.print ("token: ".toList ++ (token ++ "\n".toList))]
      match find token ":".toList 0 with
      | none => return helped ++ [badFormat, help]
      | some timestampOffset =>
        let path ← substr token 0 timestampOffset
        let unixTimestamp ← substr token (timestampOffset + 1) (token.length - 1)
        let datagram ← sendMessage (pathBytes path) unixTimestamp
        return helped ++ [.send datagram, prompt]

/-- `ClientLoop` over the lines of its input; an exception ends it. -/
def clientLoop : List (List Char) → List Effect × Option Stop
  | [] => ([], none)
  | input :: inputs =>
    match clientLine input with
    | .error stop => ([], some stop)
    | .ok effects => (effects ++ (clientLoop inputs).1, (clientLoop inputs).2)

/-- The datagrams among the effects. -/
def sent (effects : List Effect) : List (List UInt8) :=
  effects.filterMap fun effect =>
    match effect with
    | .print _ => none
    | .send datagram => some datagram

/-- A decimal numeral below 2 ^ 64. -/
structure Numeral where
  text : List Char
  ne_nil : text ≠ []
  isDigit : ∀ c ∈ text, c.isDigit
  lt : Nat.ofDigitChars 10 text 0 < 2 ^ 64

def Numeral.value (n : Numeral) : UInt64 := (Nat.ofDigitChars 10 n.text 0).toUInt64

/-- The line that asks for a path with a timestamp. -/
def sendLine (path : List Int8) (timestamp : Numeral) : List Char :=
  "send ".toList ++ (pathText path ++ ':' :: timestamp.text)

/-! ## What is sent -/

theorem pathBytes_pathText (path : List Int8) : pathBytes (pathText path) = path := by
  unfold pathBytes pathText
  rw [List.map_map]
  calc path.map _ = path.map id := by
        apply List.map_congr_left
        intro c _
        show (Char.ofNat c.toUInt8.toNat).toNat.toUInt8.toInt8 = c
        rw [toNat_ofNat_byte]
        simp
    _ = path := List.map_id path

/-- Only a path that leaves room for the timestamp is sent. -/
theorem sendMessage_eq_ok {path : List Int8} {text : List Char} {datagram : List UInt8} :
    sendMessage path text = .ok datagram ↔
      path.length ≤ 1012 ∧
        ∃ timestamp, stoull 10 text = .ok timestamp ∧ datagram = layout path timestamp := by
  constructor
  · intro h
    cases hstoull : stoull 10 text with
    | error e =>
      unfold sendMessage at h
      obtain ⟨m1, -, h⟩ := bind_eq_ok.1 h
      obtain ⟨m2, -, h⟩ := bind_eq_ok.1 h
      rw [hstoull] at h
      cases h
    | ok timestamp =>
      by_cases hpath : path.length ≤ 1012
      · rw [sendMessage_eq hpath hstoull] at h
        exact ⟨hpath, timestamp, rfl, (Except.ok.inj h).symm⟩
      · rw [sendMessage_overflow (by omega) hstoull] at h
        cases h
  · rintro ⟨hpath, timestamp, hstoull, rfl⟩
    exact sendMessage_eq hpath hstoull

/-- The path is what is in front of the first colon. -/
theorem clientLine_cut {pre rest : List Char} (h : ':' ∉ pre) :
    clientLine ("send ".toList ++ (pre ++ ':' :: rest)) = do
      let datagram ← sendMessage (pathBytes pre) rest
      return [.print ("token: ".toList ++ (pre ++ ':' :: rest ++ "\n".toList)), .send datagram,
        prompt] := by
  have hsend : find ("send ".toList ++ (pre ++ ':' :: rest)) "send".toList 0 = some 0 := by
    rw [find_eq_some]
    exact ⟨⟨Nat.le_refl 0, Nat.zero_le _⟩, ⟨' ' :: (pre ++ ':' :: rest), rfl⟩, by omega⟩
  have hblank : find ("send ".toList ++ (pre ++ ':' :: rest)) " ".toList 0 = some 4 :=
    @find_delim _ _ ' ' [] "send".toList (pre ++ ':' :: rest) (by decide)
  have htoken : substr ("send ".toList ++ (pre ++ ':' :: rest)) (4 + 1)
      (("send ".toList ++ (pre ++ ':' :: rest)).length - 4 - 1) = .ok (pre ++ ':' :: rest) :=
    substr_rest "send ".toList _ (by simp)
  have hcolon : find (pre ++ ':' :: rest) ":".toList 0 = some pre.length := by
    have hfind := @find_delim _ _ ':' [] pre rest h
    rwa [List.nil_append, List.length_nil, Nat.zero_add] at hfind
  have hpath : substr (pre ++ ':' :: rest) 0 pre.length = .ok pre :=
    substr_between [] pre (':' :: rest)
  have htimestamp : substr (pre ++ ':' :: rest) (pre.length + 1)
      ((pre ++ ':' :: rest).length - 1) = .ok rest := by
    have hrest := @substr_rest _ (pre ++ [':']) rest ((pre ++ ':' :: rest).length - 1) (by simp)
    rwa [List.append_assoc, List.singleton_append, List.length_append, List.length_singleton]
      at hrest
  unfold clientLine
  rw [hsend]
  simp only [hblank, htoken, ok_bind, hcolon, hpath, htimestamp]
  rfl

theorem sent_cut {pre rest : List Char} (h : ':' ∉ pre) (datagram : List UInt8) :
    (∃ effects, clientLine ("send ".toList ++ (pre ++ ':' :: rest)) = .ok effects ∧
        sent effects = [datagram]) ↔
      sendMessage (pathBytes pre) rest = .ok datagram := by
  rw [clientLine_cut h]
  constructor
  · rintro ⟨effects, hline, hsent⟩
    obtain ⟨datagram', hmessage, heffects⟩ := bind_eq_ok.1 hline
    cases heffects
    cases hsent
    exact hmessage
  · intro hmessage
    rw [hmessage]
    exact ⟨_, rfl, rfl⟩

theorem Numeral.stoull_text (n : Numeral) : stoull 10 n.text = .ok n.value :=
  stoull_isDigit n.ne_nil n.isDigit n.lt

/-- A path without a colon that leaves room for the timestamp is sent as it was typed. -/
theorem exists_sent {path : List Int8} (hcolon : ':' ∉ pathText path) (hpath : path.length ≤ 1012)
    (timestamp : Numeral) :
    ∃ effects, clientLine (sendLine path timestamp) = .ok effects ∧
      sent effects = [layout path timestamp.value] := by
  unfold sendLine
  rw [sent_cut hcolon, pathBytes_pathText]
  exact sendMessage_eq hpath timestamp.stoull_text

/-- **The path is sent with its timestamp exactly when it has no colon and leaves room for the
timestamp.** -/
theorem clientLine_sends_iff (path : List Int8) (timestamp : Numeral) :
    (∃ effects, clientLine (sendLine path timestamp) = .ok effects ∧
        sent effects = [layout path timestamp.value]) ↔
      ':' ∉ pathText path ∧ path.length ≤ 1012 := by
  by_cases hcolon : ':' ∈ pathText path
  · refine iff_of_false ?_ (fun h => h.1 hcolon)
    obtain ⟨pre, post, hpath, hpre⟩ := List.eq_append_cons_of_mem hcolon
    -- the path that is sent ends in front of the colon
    have hshort : pre.length < path.length := by
      have hlen := congrArg List.length hpath
      rw [pathText, List.length_map, List.length_append, List.length_cons] at hlen
      omega
    unfold sendLine
    rw [hpath, List.append_assoc, List.cons_append, sent_cut hpre, sendMessage_eq_ok]
    rintro ⟨-, ts, -, hlayout⟩
    have hlen := congrArg List.length hlayout
    rw [length_layout, length_layout, pathBytes, List.length_map] at hlen
    omega
  · rw [and_iff_right hcolon]
    constructor
    · intro h
      unfold sendLine at h
      rw [sent_cut hcolon, pathBytes_pathText, sendMessage_eq_ok] at h
      exact h.1
    · intro hpath
      exact exists_sent hcolon hpath timestamp

/-- The path `a:b`, with the timestamp 1: `b:1` is not a number. -/
theorem not_clientLine_sends :
    ¬ ∀ (path : List Int8) (timestamp : Numeral), path ≠ [] → 10 ∉ path →
      ∃ effects, clientLine (sendLine path timestamp) = .ok effects ∧
        sent effects = [layout path timestamp.value] := by
  intro h
  obtain ⟨effects, hline, -⟩ := h [97, 58, 98] ⟨"1".toList, by decide, by decide, by decide⟩
    (by decide) (by decide)
  have hthrow : clientLine (sendLine [97, 58, 98] ⟨"1".toList, by decide, by decide, by decide⟩) =
      .error .exception := by decide +kernel
  rw [hthrow] at hline
  cases hline

/-! ## A session -/

/-- The datagrams of a session are those of its lines, one for each. -/
theorem clientLoop_sends {messages : List (List Int8 × Numeral)}
    (h : ∀ message ∈ messages, ':' ∉ pathText message.1 ∧ message.1.length ≤ 1012) :
    (clientLoop (messages.map fun message => sendLine message.1 message.2)).2 = none ∧
      sent (clientLoop (messages.map fun message => sendLine message.1 message.2)).1 =
        messages.map fun message => layout message.1 message.2.value := by
  induction messages with
  | nil => exact ⟨rfl, rfl⟩
  | cons message messages ih =>
    obtain ⟨hcolon, hpath⟩ := h message List.mem_cons_self
    obtain ⟨hnone, hsent⟩ := ih fun m hm => h m (List.mem_cons_of_mem message hm)
    obtain ⟨effects, hline, hsends⟩ := exists_sent hcolon hpath message.2
    rw [List.map_cons, List.map_cons, clientLoop, hline]
    refine ⟨hnone, ?_⟩
    show sent (effects ++ _) = _
    rw [sent, List.filterMap_append]
    show sent effects ++ sent _ = _
    rw [hsends, hsent, List.singleton_append]

end Fttl
