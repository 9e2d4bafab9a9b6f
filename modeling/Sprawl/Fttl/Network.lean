import Sprawl.Fttl.Client
import Sprawl.Fttl.Receive
import Sprawl.Lib.Datagrams
import Sprawl.Lib.Steps

/-!
# Clients, network and server (`fttl/fttl.cc`)

Any number of clients read lines and send datagrams, the network loses, copies and reorders
them, and the server files the pairs and removes what is due.  Behind every run

* the paths attempted under a timestamp and then those still filed under it are the paths
  taken under it, in order, each attempted when the clock had reached its timestamp;
* each of them was asked for by a line of a client, apart from the empty path that the server
  takes out of a buffer that `read` did not fill

(`removes_asked`).  Only the network loses or copies a request (`requests_conserved`), and
only a client, with a path that does not fit its buffer, leaves its memory
(`run_stops_iff`).
-/

namespace Fttl

open Cxx OrderedMap Text Datagrams

/-! ## The system -/

/-- What happens next, anywhere. -/
inductive Event (ι : Type)
  /-- A client reads a line. -/
  | line (client : ι) (input : List Char)
  | lose (i : Nat)
  | copy (i : Nat)
  /-- The server's `read` gets the datagram at `i`. -/
  | deliver (i : Nat)
  /-- Its `read` returns a negative number. -/
  | failedRead
  /-- The clock is at `ss` when `Consumer` has the lock. -/
  | sweep (ss : UInt64)
deriving DecidableEq

/-- The clients, the network and the server; `inserted` and `attempted` are the calls to
`InsertPair` and `remove` so far, these with the clock. -/
structure Network (ι : Type) where
  running : ι → Bool
  pool : Pool (List UInt8)
  files : Files
  inserted : List (UInt64 × List Char)
  attempted : List (UInt64 × Removal)

namespace Network

variable {ι : Type}

def start : Network ι :=
  { running := fun _ => true, pool := .empty, files := .empty, inserted := [], attempted := [] }

/-- What `read` puts into 1024 bytes of the server. -/
def ofDatagram (d : List UInt8) : Received :=
  { bytes := d.take messageLen, fits := List.length_take_le messageLen d }

/-- One turn of `Run`. -/
def serve (s : Network ι) (result : Option Received) : Except Stop (Network ι) := do
  let (path, timestamp) ← decode (received result)
  return { s with
    files := insertPair s.files timestamp (pathText path)
    inserted := s.inserted ++ [(timestamp, pathText path)] }

variable [DecidableEq ι]

/-- One event.  A client that an exception ended reads no more lines; the model ends where a
program leaves its memory. -/
def step (s : Network ι) : Event ι → Except Stop (Network ι)
  | .line client input =>
    if s.running client then
      match clientLine input with
      | .ok effects => .ok { s with pool := s.pool.send (sent effects) }
      | .error (.undefined what) => .error (.undefined what)
      | .error _ => .ok { s with running := Function.update s.running client false }
    else .ok s
  | .lose i => .ok { s with pool := s.pool.lose i }
  | .copy i => .ok { s with pool := s.pool.copy i }
  | .deliver i =>
    match s.pool.flying[i]? with
    | none => .ok s
    | some d => serve { s with pool := s.pool.deliver i d } (some (ofDatagram d))
  | .failedRead => serve s none
  | .sweep ss =>
    let (files, removed) := consume ss s.files
    .ok { s with
      files := files
      attempted := s.attempted ++ removed.map fun removal => (ss, removal) }

/-- The system behind its events. -/
def run (events : List (Event ι)) : Except Stop (Network ι) := events.foldlM step start

end Network

/-- The line has `send` in it, and behind its first blank a path up to the first colon and
then a timestamp. -/
structure Asks (input : List Char) (path : List Int8) (timestamp : UInt64) : Prop where
  send : "send".toList <:+: input
  parts : ∃ pre name rest, input = pre ++ ' ' :: (name ++ ':' :: rest) ∧ ' ' ∉ pre ∧
    ':' ∉ name ∧ path = pathBytes name ∧ stoull 10 rest = .ok timestamp

/-- The line has `send` in it, and behind its first blank a name up to the first colon that is
longer than the client's buffer leaves room for. -/
structure Overflows (input : List Char) : Prop where
  send : "send".toList <:+: input
  parts : ∃ pre name rest, input = pre ++ ' ' :: (name ++ ':' :: rest) ∧ ' ' ∉ pre ∧
    ':' ∉ name ∧ 1012 < name.length ∧
    (1020 < name.length ∨ ∃ timestamp, stoull 10 rest = .ok timestamp)

/-! ## What a line sends -/

/-- The path alone fills the buffer, or it leaves no room for the timestamp. -/
theorem sendMessage_undefined_iff {path : List Int8} {text : List Char} :
    (∃ what, sendMessage path text = .error (.undefined what)) ↔
      1012 < path.length ∧ (1020 < path.length ∨ ∃ timestamp, stoull 10 text = .ok timestamp) := by
  have hroom : messageLen = 1024 := rfl
  have hzero : Message.empty.cursor = 0 := rfl
  have h4 := length_pathSizeBytes path.length.toUInt64
  obtain ⟨m1, hput1, -, hcursor1⟩ :=
    @Message.putAll_spec (pathSizeShifts.map (byteAt path.length.toUInt64)) .empty (by omega)
  cases hstoull : stoull 10 text with
  | ok timestamp =>
    by_cases hpath : path.length ≤ 1012
    · refine iff_of_false ?_ (by omega)
      rintro ⟨what, h⟩
      rw [sendMessage_eq hpath hstoull] at h
      cases h
    · refine iff_of_true ⟨_, sendMessage_overflow (by omega) hstoull⟩ ⟨by omega, .inr ?_⟩
      exact ⟨timestamp, rfl⟩
  | error e =>
    by_cases hpath : path.length ≤ 1020
    · obtain ⟨m2, hput2, -, -⟩ := @Message.putAll_spec path m1 (by omega)
      refine iff_of_false ?_ ?_
      · rintro ⟨what, h⟩
        unfold sendMessage at h
        simp only [hput1, ok_bind, hput2, hstoull] at h
        cases h
      · rintro ⟨-, hlong | ⟨timestamp, htimestamp⟩⟩
        · omega
        · cases htimestamp
    · refine iff_of_true ⟨.outOfBounds, ?_⟩ ⟨by omega, .inl (by omega)⟩
      unfold sendMessage
      simp only [hput1, ok_bind]
      rw [putAll_overflow _ (by omega) (by omega)]
      rfl

section
variable {pre name rest : List Char}

/-- The path of a line is what is between its first blank and the next colon. -/
theorem clientLine_parts (hsend : "send".toList <:+: pre ++ ' ' :: (name ++ ':' :: rest))
    (hpre : ' ' ∉ pre) (hname : ':' ∉ name) :
    clientLine (pre ++ ' ' :: (name ++ ':' :: rest)) = do
      let datagram ← sendMessage (pathBytes name) rest
      return [.print ("token: ".toList ++ (name ++ ':' :: rest ++ "\n".toList)), .send datagram,
        prompt] := by
  have hfind : ∃ i, find (pre ++ ' ' :: (name ++ ':' :: rest)) "send".toList 0 = some i :=
    exists_find_iff.2 hsend
  obtain ⟨i, hfind⟩ := hfind
  have hhelp : pre ++ ' ' :: (name ++ ':' :: rest) ≠ "help".toList := by
    intro h
    rw [h] at hsend
    exact absurd hsend (by decide)
  have hblank : find (pre ++ ' ' :: (name ++ ':' :: rest)) " ".toList 0 = some pre.length := by
    have h := @find_delim _ _ ' ' [] pre (name ++ ':' :: rest) hpre
    rwa [List.nil_append, List.length_nil, Nat.zero_add] at h
  have htoken : substr (pre ++ ' ' :: (name ++ ':' :: rest)) (pre.length + 1)
      ((pre ++ ' ' :: (name ++ ':' :: rest)).length - pre.length - 1) =
        .ok (name ++ ':' :: rest) := by
    have h := @substr_rest _ (pre ++ [' ']) (name ++ ':' :: rest)
      ((pre ++ ' ' :: (name ++ ':' :: rest)).length - pre.length - 1) (by simp)
    rwa [List.append_assoc, List.singleton_append, List.length_append, List.length_singleton] at h
  have hcolon : find (name ++ ':' :: rest) ":".toList 0 = some name.length := by
    have h := @find_delim _ _ ':' [] name rest hname
    rwa [List.nil_append, List.length_nil, Nat.zero_add] at h
  have hpath : substr (name ++ ':' :: rest) 0 name.length = .ok name :=
    substr_between [] name (':' :: rest)
  have htimestamp : substr (name ++ ':' :: rest) (name.length + 1)
      ((name ++ ':' :: rest).length - 1) = .ok rest := by
    have h := @substr_rest _ (name ++ [':']) rest ((name ++ ':' :: rest).length - 1) (by simp)
    rwa [List.append_assoc, List.singleton_append, List.length_append, List.length_singleton] at h
  unfold clientLine
  rw [hfind, if_neg hhelp]
  simp only [hblank, htoken, ok_bind, hcolon, hpath, htimestamp]
  rfl

/-- Any other line sends nothing and stops nothing. -/
theorem clientLine_cases (input : List Char) :
    (∃ effects, clientLine input = .ok effects ∧ sent effects = []) ∨
      "send".toList <:+: input ∧ ∃ pre name rest, input = pre ++ ' ' :: (name ++ ':' :: rest) ∧
        ' ' ∉ pre ∧ ':' ∉ name := by
  have hhelp : sent (if input = "help".toList then [help] else []) = [] := by
    split <;> rfl
  cases hsend : find input "send".toList 0 with
  | none =>
    refine .inl ⟨_, by unfold clientLine; rw [hsend]; rfl, ?_⟩
    rw [sent, List.filterMap_append]
    show sent _ ++ _ = _
    rw [hhelp]
    rfl
  | some i =>
    cases hblank : find input " ".toList 0 with
    | none =>
      refine .inl ⟨_, by unfold clientLine; rw [hsend]; simp only [hblank]; rfl, ?_⟩
      rw [sent, List.filterMap_append]
      show sent _ ++ _ = _
      rw [hhelp]
      rfl
    | some offset =>
      obtain ⟨pre, token, rfl, hpre, rfl⟩ := @find_delim_eq_some _ _ ' ' _ _ hblank
      by_cases hcolon : ':' ∈ token
      · obtain ⟨name, rest, rfl, hname⟩ := List.eq_append_cons_of_mem hcolon
        exact .inr ⟨exists_find_iff.1 ⟨i, hsend⟩, pre, name, rest, rfl, hpre, hname⟩
      · have htoken : substr (pre ++ ' ' :: token) (pre.length + 1)
            ((pre ++ ' ' :: token).length - pre.length - 1) = .ok token := by
          have h := @substr_rest _ (pre ++ [' ']) token
            ((pre ++ ' ' :: token).length - pre.length - 1) (by simp)
          rwa [List.append_assoc, List.singleton_append, List.length_append,
            List.length_singleton] at h
        have hnone : find token ":".toList 0 = none := @find_no_delim _ _ ':' [] token hcolon
        refine .inl ⟨_, by
          unfold clientLine
          rw [hsend]
          simp only [hblank, htoken, ok_bind, hnone]
          rfl, ?_⟩
        rw [sent, List.filterMap_append, List.filterMap_append]
        show (sent _ ++ _) ++ _ = _
        rw [hhelp]
        rfl

end

/-- A client that goes on has sent nothing, or the one datagram it was asked for. -/
theorem sent_of_ok {input : List Char} {effects : List Effect}
    (h : clientLine input = .ok effects) :
    sent effects = [] ∨ ∃ path timestamp, Asks input path timestamp ∧ path.length ≤ 1012 ∧
      sent effects = [layout path timestamp] := by
  rcases clientLine_cases input with ⟨effects', heffects, hsent⟩ |
    ⟨hsend, pre, name, rest, rfl, hpre, hname⟩
  · rw [heffects] at h
    cases h
    exact .inl hsent
  · rw [clientLine_parts hsend hpre hname] at h
    obtain ⟨datagram, hmessage, heffects⟩ := bind_eq_ok.1 h
    cases heffects
    obtain ⟨hpath, timestamp, hstoull, rfl⟩ := sendMessage_eq_ok.1 hmessage
    exact .inr ⟨pathBytes name, timestamp,
      ⟨hsend, pre, name, rest, rfl, hpre, hname, rfl, hstoull⟩, hpath, rfl⟩

/-- What stops a client in the middle of a line is its buffer or an exception. -/
theorem clientLine_undefined_iff {input : List Char} :
    (∃ what, clientLine input = .error (.undefined what)) ↔ Overflows input := by
  constructor
  · rintro ⟨what, h⟩
    rcases clientLine_cases input with ⟨effects, heffects, -⟩ |
      ⟨hsend, pre, name, rest, rfl, hpre, hname⟩
    · rw [heffects] at h
      cases h
    · rw [clientLine_parts hsend hpre hname] at h
      have hmessage : ∃ what, sendMessage (pathBytes name) rest = .error (.undefined what) := by
        cases hsent : sendMessage (pathBytes name) rest with
        | ok datagram =>
          rw [hsent] at h
          cases h
        | error stop =>
          rw [hsent] at h
          cases h
          exact ⟨what, rfl⟩
      rw [sendMessage_undefined_iff, pathBytes, List.length_map] at hmessage
      exact ⟨hsend, pre, name, rest, rfl, hpre, hname, hmessage⟩
  · rintro ⟨hsend, pre, name, rest, rfl, hpre, hname, hlong⟩
    have hlen : (pathBytes name).length = name.length := List.length_map _
    obtain ⟨what, hmessage⟩ := (@sendMessage_undefined_iff (pathBytes name) rest).2 (by
      rw [hlen]
      exact hlong)
    refine ⟨what, ?_⟩
    rw [clientLine_parts hsend hpre hname, hmessage]
    rfl

/-! ## What a step does -/

namespace Network

variable {ι : Type}

/-- A datagram that a client sent is taken apart again, and a buffer that was not filled holds
the empty path at the time 0. -/
theorem serve_layout (s : Network ι) {path : List Int8} (hpath : path.length ≤ 1012)
    (timestamp : UInt64) :
    serve s (some (ofDatagram (layout path timestamp))) = .ok { s with
      files := insertPair s.files timestamp (pathText path)
      inserted := s.inserted ++ [(timestamp, pathText path)] } := by
  have hbytes : received (some (ofDatagram (layout path timestamp))) = layout path timestamp := by
    apply List.take_of_length_le
    rw [length_layout]
    show path.length + 12 ≤ 1024
    omega
  unfold serve
  rw [hbytes, decode_layout hpath timestamp]
  rfl

theorem serve_none (s : Network ι) : serve s none = .ok { s with
    files := insertPair s.files 0 []
    inserted := s.inserted ++ [(0, [])] } := by
  have hdecode : decode [] = .ok ([], 0) := by decide +kernel
  show (decode [] >>= _) = _
  rw [hdecode]
  rfl

variable {events : List (Event ι)} {s : Network ι}

/-- The server takes the empty path with the timestamp 0 out of a buffer that was not filled. -/
def failures (events : List (Event ι)) (path : List Int8) (timestamp : UInt64) : Nat :=
  if path = [] ∧ timestamp = 0 then events.countP fun event => event matches .failedRead else 0

/-- What holds of the system behind its events. -/
structure Invariant (events : List (Event ι)) (s : Network ι) : Prop where
  conserves : s.pool.Conserves
  copied : ∀ d ∈ s.pool.copied, d ∈ s.pool.sent
  asked : ∀ d ∈ s.pool.sent, ∃ client input path timestamp, .line client input ∈ events ∧
    Asks input path timestamp ∧ path.length ≤ 1012 ∧ d = layout path timestamp
  filed : ∀ t, valuesOf t (s.attempted.map Prod.snd) ++ s.files.valuesAt t =
    valuesOf t s.inserted
  due : ∀ a ∈ s.attempted, .sweep a.1 ∈ events ∧ a.2.1 ≤ a.1
  taken : ∀ p ∈ s.inserted,
    (∃ path, path.length ≤ 1012 ∧ layout path p.1 ∈ s.pool.delivered ∧ p.2 = pathText path) ∨
      .failedRead ∈ events ∧ p = (0, [])
  counted : ∀ path timestamp, path.length ≤ 1012 →
    s.inserted.count (timestamp, pathText path) =
      s.pool.delivered.count (layout path timestamp) + failures events path timestamp

theorem invariant_start : Invariant [] (start : Network ι) where
  conserves := Pool.conserves_empty
  copied := by
    intro d hd
    cases hd
  asked := by
    intro d hd
    cases hd
  filed := fun _ => rfl
  due := by
    intro a ha
    cases ha
  taken := by
    intro p hp
    cases hp
  counted := by
    intro path timestamp _
    unfold failures
    rw [List.countP_nil, ite_self]
    rfl

theorem failures_concat {event : Event ι} (h : (event matches .failedRead) = false)
    (path : List Int8) (timestamp : UInt64) :
    failures (events ++ [event]) path timestamp = failures events path timestamp := by
  unfold failures
  rw [List.countP_append, List.countP_singleton, h]
  rfl

/-- An event that changes the pool only, and delivers nothing. -/
theorem Invariant.pool {event : Event ι} (h : Invariant events s)
    (hevent : (event matches .failedRead) = false) {running : ι → Bool} {pool : Pool (List UInt8)}
    (hconserves : pool.Conserves) (hcopied : ∀ d ∈ pool.copied, d ∈ pool.sent)
    (hsent : ∀ d ∈ pool.sent, d ∈ s.pool.sent ∨ ∃ client input path timestamp,
      event = .line client input ∧ Asks input path timestamp ∧ path.length ≤ 1012 ∧
        d = layout path timestamp)
    (hdelivered : pool.delivered = s.pool.delivered) :
    Invariant (events ++ [event]) { s with running := running, pool := pool } where
  conserves := hconserves
  copied := hcopied
  asked := by
    intro d hd
    rcases hsent d hd with hold | ⟨client, input, path, timestamp, rfl, hasks, hpath, hlayout⟩
    · obtain ⟨client, input, path, timestamp, hmem, hasks⟩ := h.asked d hold
      exact ⟨client, input, path, timestamp, List.mem_append_left _ hmem, hasks⟩
    · exact ⟨client, input, path, timestamp, List.mem_append_right _ List.mem_cons_self, hasks,
        hpath, hlayout⟩
  filed := h.filed
  due := fun a ha => ⟨List.mem_append_left _ (h.due a ha).1, (h.due a ha).2⟩
  taken := by
    intro p hp
    rcases h.taken p hp with ⟨path, hpath, hmem, hp2⟩ | ⟨hmem, hzero⟩
    · refine .inl ⟨path, hpath, ?_, hp2⟩
      show layout path p.1 ∈ pool.delivered
      rw [hdelivered]
      exact hmem
    · exact .inr ⟨List.mem_append_left _ hmem, hzero⟩
  counted := by
    intro path timestamp hpath
    rw [failures_concat hevent]
    show s.inserted.count _ = pool.delivered.count _ + _
    rw [hdelivered]
    exact h.counted path timestamp hpath

/-! ### What the server takes -/

/-- A sweep attempts nothing that is not due. -/
theorem due_of_mem_consume {ss : UInt64} {files : Files} {removal : Removal}
    (h : removal ∈ (consume ss files).2) : removal.1 ≤ ss := by
  by_contra hdue
  have hnone := consume_removals ss files removal.1
  rw [if_neg hdue, valuesOf, List.map_eq_nil_iff, List.filter_eq_nil_iff] at hnone
  apply hnone removal h
  simp

theorem pathText_inj {path path' : List Int8} : pathText path = pathText path' ↔ path = path' := by
  constructor
  · intro h
    rw [← pathBytes_pathText path, h, pathBytes_pathText]
  · intro h
    rw [h]

theorem layout_inj {path path' : List Int8} {timestamp timestamp' : UInt64}
    (hpath : path.length ≤ 1012) (hpath' : path'.length ≤ 1012) :
    layout path timestamp = layout path' timestamp' ↔ path = path' ∧ timestamp = timestamp' := by
  constructor
  · intro h
    have hdecode := decode_layout hpath timestamp
    rw [h, decode_layout hpath' timestamp'] at hdecode
    cases hdecode
    exact ⟨rfl, rfl⟩
  · rintro ⟨rfl, rfl⟩
    rfl

/-- One more pair, filed and recorded. -/
theorem filed_insert {files : Files} {attempted inserted : List (UInt64 × List Char)}
    (h : ∀ t, valuesOf t attempted ++ files.valuesAt t = valuesOf t inserted) (timestamp : UInt64)
    (path : List Char) (t : UInt64) :
    valuesOf t attempted ++ (insertPair files timestamp path).valuesAt t =
      valuesOf t (inserted ++ [(timestamp, path)]) := by
  have hone : valuesOf t [(timestamp, path)] = if timestamp = t then [path] else [] := by
    by_cases ht : timestamp = t <;> simp [valuesOf, ht]
  rw [insertPair_valuesAt, valuesOf_append, hone, ← List.append_assoc, h t]

/-- A sweep attempts what it takes out. -/
theorem filed_consume {files : Files} {attempted inserted : List (UInt64 × List Char)}
    (h : ∀ t, valuesOf t attempted ++ files.valuesAt t = valuesOf t inserted) (ss t : UInt64) :
    valuesOf t (attempted ++ (consume ss files).2) ++ (consume ss files).1.valuesAt t =
      valuesOf t inserted := by
  rw [valuesOf_append, consume_removals, consume_valuesAt, ← h t]
  by_cases hdue : t ≤ ss
  · rw [if_pos hdue, if_pos hdue, List.append_nil]
  · rw [if_neg hdue, if_neg hdue, List.append_nil]

theorem Invariant.deliver (h : Invariant events s) {i : Nat} {path : List Int8}
    {timestamp : UInt64} (hpath : path.length ≤ 1012)
    (hflying : s.pool.flying[i]? = some (layout path timestamp)) :
    Invariant (events ++ [.deliver i]) { s with
      pool := s.pool.deliver i (layout path timestamp)
      files := insertPair s.files timestamp (pathText path)
      inserted := s.inserted ++ [(timestamp, pathText path)] } where
  conserves := h.conserves.deliver hflying
  copied := h.copied
  asked := by
    intro d hd
    obtain ⟨client, input, path, timestamp, hmem, hasks⟩ := h.asked d hd
    exact ⟨client, input, path, timestamp, List.mem_append_left _ hmem, hasks⟩
  filed := filed_insert h.filed timestamp (pathText path)
  due := fun a ha => ⟨List.mem_append_left _ (h.due a ha).1, (h.due a ha).2⟩
  taken := by
    intro p hp
    rcases List.mem_append.1 hp with hp | hp
    · rcases h.taken p hp with ⟨path', hpath', hmem, hp2⟩ | ⟨hmem, hzero⟩
      · exact .inl ⟨path', hpath', List.mem_append_left _ hmem, hp2⟩
      · exact .inr ⟨List.mem_append_left _ hmem, hzero⟩
    · cases List.mem_singleton.1 hp
      exact .inl ⟨path, hpath, List.mem_append_right _ List.mem_cons_self, rfl⟩
  counted := by
    intro path' timestamp' hpath'
    have hcount := h.counted path' timestamp' hpath'
    rw [failures_concat rfl]
    show (s.inserted ++ [(timestamp, pathText path)]).count _ =
      (s.pool.delivered ++ [layout path timestamp]).count _ + _
    rw [List.count_append, List.count_append]
    by_cases hsame : path = path' ∧ timestamp = timestamp'
    · obtain ⟨rfl, rfl⟩ := hsame
      rw [List.count_singleton_self, List.count_singleton_self]
      omega
    · have hlayout : layout path timestamp ≠ layout path' timestamp' := by
        rw [Ne, layout_inj hpath hpath']
        exact hsame
      have hpair : (timestamp, pathText path) ≠ (timestamp', pathText path') := by
        intro heq
        apply hsame
        rw [Prod.mk.injEq, pathText_inj] at heq
        exact ⟨heq.2, heq.1⟩
      have hone : [(timestamp, pathText path)].count (timestamp', pathText path') = 0 :=
        List.count_eq_zero.2 fun hmem => hpair (List.mem_singleton.1 hmem).symm
      have hone' : [layout path timestamp].count (layout path' timestamp') = 0 :=
        List.count_eq_zero.2 fun hmem => hlayout (List.mem_singleton.1 hmem).symm
      omega

theorem Invariant.failedRead (h : Invariant events s) :
    Invariant (events ++ [.failedRead]) { s with
      files := insertPair s.files 0 []
      inserted := s.inserted ++ [(0, [])] } where
  conserves := h.conserves
  copied := h.copied
  asked := by
    intro d hd
    obtain ⟨client, input, path, timestamp, hmem, hasks⟩ := h.asked d hd
    exact ⟨client, input, path, timestamp, List.mem_append_left _ hmem, hasks⟩
  filed := filed_insert h.filed 0 []
  due := fun a ha => ⟨List.mem_append_left _ (h.due a ha).1, (h.due a ha).2⟩
  taken := by
    intro p hp
    rcases List.mem_append.1 hp with hp | hp
    · rcases h.taken p hp with hsent | ⟨hmem, hzero⟩
      · exact .inl hsent
      · exact .inr ⟨List.mem_append_left _ hmem, hzero⟩
    · exact .inr ⟨List.mem_append_right _ List.mem_cons_self, List.mem_singleton.1 hp⟩
  counted := by
    intro path timestamp hpath
    have hcount := h.counted path timestamp hpath
    show (s.inserted ++ [(0, [])]).count _ = _
    unfold failures at hcount ⊢
    rw [List.count_append, List.countP_append]
    by_cases hzero : path = [] ∧ timestamp = 0
    · obtain ⟨rfl, rfl⟩ := hzero
      rw [if_pos ⟨rfl, rfl⟩] at hcount ⊢
      have hone : [((0 : UInt64), ([] : List Char))].count (0, pathText []) = 1 := rfl
      rw [hone, List.countP_singleton]
      show _ = s.pool.delivered.count _ + (_ + 1)
      omega
    · have hpair : ((0 : UInt64), ([] : List Char)) ≠ (timestamp, pathText path) := by
        intro heq
        apply hzero
        rw [Prod.mk.injEq] at heq
        exact ⟨List.map_eq_nil_iff.1 heq.2.symm, heq.1.symm⟩
      rw [if_neg hzero] at hcount ⊢
      rw [List.count_singleton, if_neg (by simpa using hpair)]
      omega

theorem Invariant.sweep (h : Invariant events s) (ss : UInt64) :
    Invariant (events ++ [.sweep ss]) { s with
      files := (consume ss s.files).1
      attempted := s.attempted ++ (consume ss s.files).2.map fun removal => (ss, removal) } where
  conserves := h.conserves
  copied := h.copied
  asked := by
    intro d hd
    obtain ⟨client, input, path, timestamp, hmem, hasks⟩ := h.asked d hd
    exact ⟨client, input, path, timestamp, List.mem_append_left _ hmem, hasks⟩
  filed := by
    intro t
    rw [List.map_append, List.map_map]
    show valuesOf t (s.attempted.map Prod.snd ++ (consume ss s.files).2.map _) ++ _ = _
    rw [show (Prod.snd ∘ fun removal : Removal => (ss, removal)) = id from rfl, List.map_id]
    exact filed_consume h.filed ss t
  due := by
    intro a ha
    rcases List.mem_append.1 ha with ha | ha
    · exact ⟨List.mem_append_left _ (h.due a ha).1, (h.due a ha).2⟩
    · obtain ⟨removal, hremoval, rfl⟩ := List.mem_map.1 ha
      refine ⟨List.mem_append_right _ List.mem_cons_self, ?_⟩
      exact due_of_mem_consume hremoval
  taken := by
    intro p hp
    rcases h.taken p hp with hsent | ⟨hmem, hzero⟩
    · exact .inl hsent
    · exact .inr ⟨List.mem_append_left _ hmem, hzero⟩
  counted := by
    intro path timestamp hpath
    rw [failures_concat rfl]
    exact h.counted path timestamp hpath

/-! ### One event -/

/-- A datagram under way is one that a line asked for. -/
theorem Invariant.flying (h : Invariant events s) {d : List UInt8} (hd : d ∈ s.pool.flying) :
    ∃ path timestamp, path.length ≤ 1012 ∧ d = layout path timestamp := by
  obtain ⟨-, -, path, timestamp, -, -, hpath, hlayout⟩ :=
    h.asked d (Pool.mem_sent_of_mem_flying h.conserves h.copied hd)
  exact ⟨path, timestamp, hpath, hlayout⟩

variable [DecidableEq ι]

theorem Invariant.line (h : Invariant events s) {client : ι} {input : List Char} {s' : Network ι}
    (hstep : step s (.line client input) = .ok s') :
    Invariant (events ++ [.line client input]) s' := by
  have hsame : ∀ running : ι → Bool,
      Invariant (events ++ [.line client input]) { s with running := running } := by
    intro running
    exact h.pool rfl h.conserves h.copied (fun d hd => .inl hd) rfl
  unfold step at hstep
  by_cases hrunning : s.running client = true
  · simp only [if_pos hrunning] at hstep
    cases hline : clientLine input with
    | ok effects =>
      rw [hline] at hstep
      cases hstep
      apply h.pool rfl (h.conserves.send _) (Pool.FromSent.send h.copied _) ?_ rfl
      · intro d hd
        rcases List.mem_append.1 hd with hd | hd
        · exact .inl hd
        · rcases sent_of_ok hline with hnone | ⟨path, timestamp, hasks, hpath, hone⟩
          · rw [hnone] at hd
            cases hd
          · rw [hone] at hd
            exact .inr ⟨client, input, path, timestamp, rfl, hasks, hpath, List.mem_singleton.1 hd⟩
    | error stop =>
      rw [hline] at hstep
      cases stop with
      | undefined what => cases hstep
      | exit code =>
        cases hstep
        exact hsame _
      | abort =>
        cases hstep
        exact hsame _
      | exception =>
        cases hstep
        exact hsame _
  · simp only [if_neg hrunning] at hstep
    cases hstep
    exact hsame s.running

/-- Every event but a line has a next state, and all of them keep the invariant. -/
theorem Invariant.step (h : Invariant events s) (event : Event ι) :
    (∀ s', step s event = .ok s' → Invariant (events ++ [event]) s') ∧
      ((∀ client input, event ≠ .line client input) → ∃ s', step s event = .ok s') := by
  cases event with
  | line client input =>
    exact ⟨fun s' => h.line, fun hno => absurd rfl (hno client input)⟩
  | lose i =>
    refine ⟨fun s' hstep => ?_, fun _ => ⟨_, rfl⟩⟩
    cases hstep
    refine h.pool rfl (h.conserves.lose i) (Pool.FromSent.lose h.copied i) (fun d hd => .inl ?_) ?_
    · rwa [Pool.sent_lose] at hd
    · exact Pool.delivered_lose _ _
  | copy i =>
    refine ⟨fun s' hstep => ?_, fun _ => ⟨_, rfl⟩⟩
    cases hstep
    refine h.pool rfl (h.conserves.copy i) (Pool.FromSent.copy h.copied h.conserves i)
      (fun d hd => .inl ?_) ?_
    · rwa [Pool.sent_copy] at hd
    · exact Pool.delivered_copy _ _
  | deliver i =>
    cases hi : s.pool.flying[i]? with
    | none =>
      have hstep : Network.step s (.deliver i) = .ok s := by
        unfold Network.step
        simp only [hi]
      refine ⟨fun s' hs' => ?_, fun _ => ⟨s, hstep⟩⟩
      rw [hstep] at hs'
      cases hs'
      exact h.pool rfl h.conserves h.copied (fun d hd => .inl hd) rfl
    | some d =>
      obtain ⟨path, timestamp, hpath, rfl⟩ := h.flying (List.mem_of_getElem? hi)
      have hstep : Network.step s (.deliver i) = .ok { s with
          pool := s.pool.deliver i (layout path timestamp)
          files := insertPair s.files timestamp (pathText path)
          inserted := s.inserted ++ [(timestamp, pathText path)] } := by
        unfold Network.step
        simp only [hi]
        exact serve_layout _ hpath timestamp
      refine ⟨fun s' hs' => ?_, fun _ => ⟨_, hstep⟩⟩
      rw [hstep] at hs'
      cases hs'
      exact h.deliver hpath hi
  | failedRead =>
    refine ⟨fun s' hs' => ?_, fun _ => ⟨_, serve_none s⟩⟩
    have hstep : Network.step s .failedRead = serve s none := rfl
    rw [hstep, serve_none s] at hs'
    cases hs'
    exact h.failedRead
  | sweep ss =>
    refine ⟨fun s' hs' => ?_, fun _ => ⟨_, rfl⟩⟩
    cases hs'
    exact h.sweep ss

theorem invariant_run {events : List (Event ι)} {s : Network ι} (h : run events = .ok s) :
    Invariant events s :=
  Steps.run_induction invariant_start
    (fun _ _ event _ hinv hstep => (hinv.step event).1 _ hstep) h

/-! ## Runs -/

/-- **The server removes what clients asked it to remove, once it is due.**  Under each
timestamp the paths attempted and then those still filed are the paths taken, in order. -/
theorem removes_asked (events : List (Event ι)) (s : Network ι) (h : run events = .ok s) :
    (∀ t, valuesOf t (s.attempted.map Prod.snd) ++ s.files.valuesAt t = valuesOf t s.inserted) ∧
      (∀ a ∈ s.attempted, .sweep a.1 ∈ events ∧ a.2.1 ≤ a.1) ∧
      ∀ p ∈ s.inserted,
        (∃ client input path, .line client input ∈ events ∧ Asks input path p.1 ∧
          p.2 = pathText path) ∨
        .failedRead ∈ events ∧ p = (0, []) := by
  have hinv := invariant_run h
  refine ⟨hinv.filed, hinv.due, ?_⟩
  intro p hp
  rcases hinv.taken p hp with ⟨path, hpath, hdelivered, hp2⟩ | hfailed
  · have hsent : layout path p.1 ∈ s.pool.sent := by
      have hmem : layout path p.1 ∈ s.pool.sent ++ s.pool.copied :=
        hinv.conserves.subset (List.mem_append_right _ hdelivered)
      exact (List.mem_append.1 hmem).elim id (hinv.copied _)
    obtain ⟨client, input, path', timestamp, hline, hasks, hpath', hlayout⟩ :=
      hinv.asked _ hsent
    obtain ⟨rfl, rfl⟩ := (layout_inj hpath hpath').1 hlayout
    exact .inl ⟨client, input, path, hline, hasks, hp2⟩
  · exact .inr hfailed

/-- A copied datagram: the second attempt is at the same file. -/
def copiedOnce : List (Event Unit) :=
  [.line () "send /tmp/a:7".toList, .copy 0, .deliver 0, .sweep 6, .sweep 7, .deliver 0,
    .failedRead,
    .sweep 8]

theorem exists_copiedOnce : ∃ s, run copiedOnce = .ok s ∧
    s.attempted = [(7, 7, "/tmp/a".toList), (8, 0, []), (8, 7, "/tmp/a".toList)] := by
  have h : (run copiedOnce).toOption.map Network.attempted =
      some [(7, 7, "/tmp/a".toList), (8, 0, []), (8, 7, "/tmp/a".toList)] := by decide +kernel
  cases hrun : run copiedOnce with
  | error stop =>
    rw [hrun] at h
    cases h
  | ok s =>
    rw [hrun] at h
    exact ⟨s, rfl, Option.some.inj h⟩

theorem removes_asked_copiedOnce : ∃ s, run copiedOnce = .ok s ∧
    (∀ t, valuesOf t (s.attempted.map Prod.snd) ++ s.files.valuesAt t = valuesOf t s.inserted) ∧
      (∀ a ∈ s.attempted, .sweep a.1 ∈ copiedOnce ∧ a.2.1 ≤ a.1) ∧
      ∀ p ∈ s.inserted,
        (∃ client input path, .line client input ∈ copiedOnce ∧ Asks input path p.1 ∧
          p.2 = pathText path) ∨
        .failedRead ∈ copiedOnce ∧ p = (0, []) := by
  obtain ⟨s, hrun, -⟩ := exists_copiedOnce
  exact ⟨s, hrun, removes_asked copiedOnce s hrun⟩

/-- **Only the network loses or copies a request**: what was attempted, is filed, is under way
or was lost is what was sent or copied, and the empty path at the time 0 for each failed read. -/
theorem requests_conserved (events : List (Event ι)) (s : Network ι) (h : run events = .ok s)
    (path : List Int8) (hpath : path.length ≤ 1012) (timestamp : UInt64) :
    (s.attempted.map Prod.snd).count (timestamp, pathText path) +
        (s.files.valuesAt timestamp).count (pathText path) +
        s.pool.flying.count (layout path timestamp) + s.pool.lost.count (layout path timestamp) =
      s.pool.sent.count (layout path timestamp) + s.pool.copied.count (layout path timestamp) +
        failures events path timestamp := by
  have hinv := invariant_run h
  have hpool := Pool.conserves_iff.1 hinv.conserves (layout path timestamp)
  have hcounted := hinv.counted path timestamp hpath
  have hfiled := congrArg (List.count (pathText path)) (hinv.filed timestamp)
  rw [List.count_append, count_valuesOf, count_valuesOf] at hfiled
  omega

theorem requests_conserved_copiedOnce : ∃ s, run copiedOnce = .ok s ∧
    (s.attempted.map Prod.snd).count (7, pathText [47, 116, 109, 112, 47, 97]) +
        (s.files.valuesAt 7).count (pathText [47, 116, 109, 112, 47, 97]) +
        s.pool.flying.count (layout [47, 116, 109, 112, 47, 97] 7) +
        s.pool.lost.count (layout [47, 116, 109, 112, 47, 97] 7) =
      s.pool.sent.count (layout [47, 116, 109, 112, 47, 97] 7) +
        s.pool.copied.count (layout [47, 116, 109, 112, 47, 97] 7) +
        failures copiedOnce [47, 116, 109, 112, 47, 97] 7 := by
  obtain ⟨s, hrun, -⟩ := exists_copiedOnce
  exact ⟨s, hrun, requests_conserved copiedOnce s hrun [47, 116, 109, 112, 47, 97] (by decide) 7⟩

/-- **Only a client leaves its memory**: the run stops exactly when a line that a running
client reads has a path that does not fit. -/
theorem run_stops_iff (events : List (Event ι)) :
    (∃ stop, run events = .error stop) ↔
      ∃ pre client input post s, events = pre ++ .line client input :: post ∧
        run pre = .ok s ∧ s.running client = true ∧ Overflows input := by
  constructor
  · rintro ⟨stop, h⟩
    obtain ⟨pre, event, post, s, rfl, hrun, hstop⟩ := Steps.exists_stop h
    have hinv := invariant_run hrun
    cases event with
    | line client input =>
      unfold step at hstop
      by_cases hrunning : s.running client = true
      · simp only [if_pos hrunning] at hstop
        refine ⟨pre, client, input, post, s, rfl, hrun, hrunning, ?_⟩
        rw [← clientLine_undefined_iff]
        cases hline : clientLine input with
        | ok effects =>
          rw [hline] at hstop
          cases hstop
        | error stop' =>
          rw [hline] at hstop
          cases stop' with
          | undefined what => exact ⟨what, rfl⟩
          | exit code => cases hstop
          | abort => cases hstop
          | exception => cases hstop
      · simp only [if_neg hrunning] at hstop
        cases hstop
    | lose i => cases hstop
    | copy i => cases hstop
    | deliver i =>
      obtain ⟨s', hs'⟩ := (hinv.step (.deliver i)).2 fun _ _ heq => by cases heq
      rw [hs'] at hstop
      cases hstop
    | failedRead =>
      obtain ⟨s', hs'⟩ := (hinv.step .failedRead).2 fun _ _ heq => by cases heq
      rw [hs'] at hstop
      cases hstop
    | sweep ss => cases hstop
  · rintro ⟨pre, client, input, post, s, rfl, hrun, hrunning, hoverflows⟩
    obtain ⟨what, hline⟩ := clientLine_undefined_iff.2 hoverflows
    refine ⟨.undefined what, ?_⟩
    have hstep : step s (.line client input) = .error (.undefined what) := by
      unfold step
      simp only [if_pos hrunning, hline]
    unfold run at hrun ⊢
    rw [List.foldlM_append, hrun, ok_bind, List.foldlM_cons, hstep]
    rfl

end Network

end Fttl
