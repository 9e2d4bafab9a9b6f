import Sprawl.Tvm.Labels

/-!
# What `Encode` reads

The branches of `Encode` are one shape: a word is the bits of the operation and,
or-ed to them, what a `Reader` makes of each operand (`encodeRow_reads`).

What a reader gets from a label stays inside its `mask` (`labelValue_mask`), and
four texts (`probes`) together reach every bit of it (`labelValue_probes`).
-/

namespace Tvm

open Cxx Loop RegExp

/-! ## Readers and formats -/

/-- How a branch of `Encode` reads one operand. -/
inductive Reader
  | dr | sr1 | last | offset | origin
deriving DecidableEq, Repr

def Reader.read : Reader → Token → Except Stop UInt16
  | dr, t => do return asDR (← stringToRegister t.value)
  | sr1, t => do return asSR1 (← stringToRegister t.value)
  | last, t => encodeLast t
  | offset, t => return 0b111111111 &&& t.litValue
  | origin, t => return t.hexToU16

/-- The bits a label can set there. -/
def Reader.mask : Reader → UInt16
  | dr => asDR 0b111111
  | sr1 => asSR1 0b111111
  | last => 0b111111
  | offset => 0b111111111
  | origin => 0xffff

/-- The operands an operation reads, and the bits it sets by itself. -/
structure Format where
  bits : UInt16
  readers : List (Fin 3 × Reader) := []
deriving DecidableEq, Repr

/-- A reader and its operand. -/
abbrev Read := Option Token × Reader

/-- All reads of one row. -/
def encodeReads : List Read → Except Stop UInt16
  | [] => return 0
  | (o, r) :: reads => do
    let v ← r.read (← deref o)
    let w ← encodeReads reads
    return v ||| w

def Format.reads (f : Format) (operands : Operands) : List Read :=
  f.readers.map fun p => (operands.get p.1, p.2)

def Format.encode (f : Format) (operands : Operands) : Except Stop UInt16 := do
  let w ← encodeReads (f.reads operands)
  return f.bits ||| w

def regOffset (opcode : OpCode) : Format :=
  { bits := opcode.bits, readers := [(0, .dr), (1, .offset)] }

def rrx (opcode : OpCode) : Format :=
  { bits := opcode.bits, readers := [(0, .dr), (1, .sr1), (2, .last)] }

def branch (opcode : OpCode) : Format := { bits := opcode.bits, readers := [(0, .offset)] }

/-- The formats, in the order of `encoders`. -/
def formats : List (List Char × Format) :=
  [(".ORIG".toList, { bits := 0, readers := [(0, .origin)] }),
    ("NOT".toList, { bits := OpCode.kNot.bits ||| 0b111111, readers := [(0, .dr), (1, .sr1)] }),
    ("AND".toList, rrx .kAnd),
    ("ADD".toList, rrx .kAdd),
    ("GETC".toList, { bits := OpCode.kTrapGetc.bits }),
    ("OUT".toList, { bits := OpCode.kTrapOut.bits }),
    ("PUTS".toList, { bits := OpCode.kTrapPuts.bits }),
    ("IN".toList, { bits := OpCode.kTrapIn.bits }),
    ("PUTSP".toList, { bits := OpCode.kTrapPutsp.bits }),
    ("HALT".toList, { bits := OpCode.kTrapHalt.bits }),
    ("LD".toList, regOffset .kLd),
    ("LEA".toList, regOffset .kLea),
    ("LDI".toList, regOffset .kLdi),
    ("BR".toList, branch .kBr),
    ("BRn".toList, branch .kBrn),
    ("BRzp".toList, branch .kBrzp),
    ("BRnz".toList, branch .kBrnz),
    ("BRp".toList, branch .kBrp),
    ("BRz".toList, branch .kBrz),
    ("BRnp".toList, branch .kBrnp),
    ("BRnzp".toList, branch .kBrnzp),
    ("ST".toList, { bits := OpCode.kSt.bits, readers := [(0, .sr1), (0, .offset)] }),
    ("RET".toList, { bits := OpCode.kRet.bits })]

/-- The branch of `Encode` does what the format says. -/
def Encodes (e : Operands → Except Stop UInt16) (f : Format) : Prop :=
  ∀ operands, e operands = f.encode operands

section
variable (operands : Operands) (opcode : OpCode)

@[simp] theorem Operands.get_first : operands.get 0 = operands.first := rfl
@[simp] theorem Operands.get_second : operands.get 1 = operands.second := rfl
@[simp] theorem Operands.get_third : operands.get 2 = operands.third := rfl

theorem encodeNot_format : encodeNot operands =
    Format.encode { bits := OpCode.kNot.bits ||| 0b111111, readers := [(0, .dr), (1, .sr1)] }
      operands := by
  simp only [encodeNot, Format.encode, Format.reads, List.map_cons, List.map_nil, encodeReads,
    Reader.read, bind_assoc, pure_bind, Operands.get_first, Operands.get_second]
  refine bind_congr fun x => bind_congr fun a => bind_congr fun y => bind_congr fun b => ?_
  congr 1
  ac_rfl

theorem encodeRRX_format : encodeRRX opcode operands = (rrx opcode).encode operands := by
  simp only [encodeRRX, rrx, Format.encode, Format.reads, List.map_cons, List.map_nil, encodeReads,
    Reader.read, bind_assoc, pure_bind, Operands.get_first, Operands.get_second,
    Operands.get_third, UInt16.or_zero, UInt16.or_assoc]

theorem encodeRegOffset_format :
    encodeRegOffset opcode operands = (regOffset opcode).encode operands := by
  simp only [encodeRegOffset, regOffset, Format.encode, Format.reads, List.map_cons, List.map_nil,
    encodeReads, Reader.read, bind_assoc, pure_bind, Operands.get_first, Operands.get_second,
    UInt16.or_zero, UInt16.or_assoc]

theorem encodeOffset_format : encodeOffset opcode operands = (branch opcode).encode operands := by
  simp only [encodeOffset, branch, Format.encode, Format.reads, List.map_cons, List.map_nil,
    encodeReads, Reader.read, bind_assoc, pure_bind, Operands.get_first, UInt16.or_zero]

theorem encodeSt_format : encodeSt operands =
    Format.encode { bits := OpCode.kSt.bits, readers := [(0, .sr1), (0, .offset)] } operands := by
  simp only [encodeSt, Format.encode, Format.reads, List.map_cons, List.map_nil, encodeReads,
    Reader.read, bind_assoc, pure_bind, Operands.get_first, UInt16.or_zero, UInt16.or_assoc]
  -- the second read of the operand succeeds when the first one does
  cases operands.first with
  | none => rfl
  | some x => simp only [deref_some, ok_bind]

end

/-- Every branch of `Encode` reads its operands by its format. -/
theorem encoders_formats :
    List.Forall₂ (fun e f => e.1 = f.1 ∧ Encodes e.2 f.2) encoders formats := by
  have horig : ∀ operands : Operands, (do return (← deref operands.first).hexToU16) =
      Format.encode { bits := 0, readers := [(0, .origin)] } operands := by
    intro operands
    simp only [Format.encode, Format.reads, List.map_cons, List.map_nil, encodeReads, Reader.read,
      bind_assoc, pure_bind, Operands.get_first, UInt16.or_zero, UInt16.zero_or]
  have hconst : ∀ (opcode : OpCode) (operands : Operands), (pure opcode.bits : Except Stop UInt16) =
      Format.encode { bits := opcode.bits } operands := by
    intro opcode operands
    simp only [Format.encode, Format.reads, List.map_nil, encodeReads, pure_bind, UInt16.or_zero]
  exact .cons ⟨rfl, horig⟩ <| .cons ⟨rfl, encodeNot_format⟩ <|
    .cons ⟨rfl, fun x => encodeRRX_format x _⟩ <| .cons ⟨rfl, fun x => encodeRRX_format x _⟩ <|
    .cons ⟨rfl, hconst _⟩ <| .cons ⟨rfl, hconst _⟩ <| .cons ⟨rfl, hconst _⟩ <|
    .cons ⟨rfl, hconst _⟩ <| .cons ⟨rfl, hconst _⟩ <| .cons ⟨rfl, hconst _⟩ <|
    .cons ⟨rfl, fun x => encodeRegOffset_format x _⟩ <|
    .cons ⟨rfl, fun x => encodeRegOffset_format x _⟩ <|
    .cons ⟨rfl, fun x => encodeRegOffset_format x _⟩ <|
    .cons ⟨rfl, fun x => encodeOffset_format x _⟩ <|
    .cons ⟨rfl, fun x => encodeOffset_format x _⟩ <|
    .cons ⟨rfl, fun x => encodeOffset_format x _⟩ <|
    .cons ⟨rfl, fun x => encodeOffset_format x _⟩ <|
    .cons ⟨rfl, fun x => encodeOffset_format x _⟩ <|
    .cons ⟨rfl, fun x => encodeOffset_format x _⟩ <|
    .cons ⟨rfl, fun x => encodeOffset_format x _⟩ <|
    .cons ⟨rfl, fun x => encodeOffset_format x _⟩ <|
    .cons ⟨rfl, encodeSt_format⟩ <| .cons ⟨rfl, hconst _⟩ .nil

theorem lookup_forall₂ {κ α β : Type} [BEq κ] {R : α → β → Prop} {l : List (κ × α)}
    {l' : List (κ × β)} (h : List.Forall₂ (fun e f => e.1 = f.1 ∧ R e.2 f.2) l l') (k : κ) :
    Option.Rel R (l.lookup k) (l'.lookup k) := by
  induction h with
  | nil => exact .none
  | @cons e f l l' he _ ih =>
    obtain ⟨x, a⟩ := e
    obtain ⟨y, b⟩ := f
    obtain ⟨rfl, hr⟩ : x = y ∧ R a b := he
    rw [List.lookup_cons, List.lookup_cons]
    cases k == x with
    | true => exact .some hr
    | false => exact ih

def InstructionRow.format (row : InstructionRow) : Option Format := do
  formats.lookup (← row.op).value

/-- The reads of a row whose tokens are mapped. -/
def mapRead (g : Token → Token) (p : Read) : Read := (p.1.map g, p.2)

theorem reads_map (g : Token → Token) (f : Format) (row : InstructionRow) :
    f.reads (row.map g).operands = (f.reads row.operands).map (mapRead g) := by
  unfold Format.reads
  rw [List.map_map]
  apply List.map_congr_left
  intro p _
  simp [mapRead, InstructionRow.map]

/-- The format depends on the text of the operation. -/
theorem format_map {g : Token → Token} {row : InstructionRow}
    (h : ∀ op ∈ row.op, (g op).value = op.value) : (row.map g).format = row.format := by
  show (row.op.map g).bind _ = row.op.bind _
  cases hop : row.op with
  | none => rfl
  | some op => exact congrArg (formats.lookup ·) (h op hop)

/-- **The word of a row is what its format reads.** -/
theorem encodeRow_reads (row : InstructionRow) : encodeRow row =
    match row.format with
    | none => .ok none
    | some f => (f.encode row.operands).map some := by
  unfold encodeRow InstructionRow.format
  cases row.op with
  | none => rfl
  | some op =>
    have h := lookup_forall₂ encoders_formats op.value
    simp only [Option.bind_eq_bind, Option.bind_some]
    generalize encoders.lookup op.value = e at h ⊢
    generalize formats.lookup op.value = f at h ⊢
    cases h with
    | none => rfl
    | some hr => exact congrArg (Except.map some) (hr row.operands)

/-! ## Reading a label -/

/-- The second character of a text as a register number. -/
def labelRegister : List Char → UInt16
  | _ :: c :: _ => UInt16.ofInt (signedChar c - 0x30)
  | _ => 0

/-- What a reader gets from the text of a label. -/
def Reader.labelValue : Reader → List Char → UInt16
  | dr, v => asDR (labelRegister v)
  | sr1, v => asSR1 (labelRegister v)
  | last, v => labelRegister v
  | offset, v => 0b111111111 &&& extractU16 10 (v.drop 1)
  | origin, v => extractU16 16 (v.drop 1)

theorem read_label (r : Reader) {t : Token} (h : t.type = .Label) :
    r.read t = .ok (r.labelValue t.value) := by
  obtain ⟨c, s, hv, hne, -⟩ := label_shape h
  obtain ⟨d, s, rfl⟩ := List.exists_cons_of_ne_nil hne
  cases r with
  | dr => rw [Reader.read, Reader.labelValue, hv]; rfl
  | sr1 => rw [Reader.read, Reader.labelValue, hv]; rfl
  | last => rw [Reader.read, Reader.labelValue, encodeLast, if_neg (by rw [h]; decide), hv]; rfl
  | offset => rfl
  | origin => rfl

theorem and_or_self (m x : UInt16) : (m &&& x) ||| m = m := by
  apply UInt16.eq_of_toBitVec_eq
  ext i hi
  simp only [UInt16.toBitVec_or, UInt16.toBitVec_and, BitVec.getElem_or, BitVec.getElem_and]
  cases m.toBitVec[i] <;> simp

/-- A label sets bits of the mask only. -/
theorem labelValue_mask (r : Reader) {v : List Char} (h : classify v = .Label) :
    r.labelValue v ||| r.mask = r.mask := by
  obtain ⟨c, s, rfl, hne, hs⟩ := label_shape h
  obtain ⟨d, s, rfl⟩ := List.exists_cons_of_ne_nil hne
  have hd := hs d List.mem_cons_self
  have hreg : ∀ d ∈ labelChars, asDR (labelRegister [c, d]) ||| asDR 0b111111 = asDR 0b111111 ∧
      asSR1 (labelRegister [c, d]) ||| asSR1 0b111111 = asSR1 0b111111 ∧
      labelRegister [c, d] ||| 0b111111 = 0b111111 := by
    show ∀ d ∈ labelChars, asDR (UInt16.ofInt (signedChar d - 0x30)) ||| _ = _ ∧
      asSR1 (UInt16.ofInt (signedChar d - 0x30)) ||| _ = _ ∧
      UInt16.ofInt (signedChar d - 0x30) ||| _ = _
    decide
  cases r with
  | dr => exact (hreg d hd).1
  | sr1 => exact (hreg d hd).2.1
  | last => exact (hreg d hd).2.2
  | offset => exact and_or_self _ _
  | origin =>
    have h := and_or_self 0xffff (extractU16 16 (d :: s))
    rwa [UInt16.and_comm, show (0xffff : UInt16) = -1 from rfl, UInt16.and_neg_one] at h

/-! ## Probes -/

/-- A new name for a label: a letter, `s`, an underscore and the old name. -/
def probe (s v : List Char) : List Char := 'A' :: s ++ '_' :: v

/-- The texts behind the first letter that reach every bit of every mask. -/
def probes : List (List Char) := ["_", "A", "511", "FFFF"].map String.toList

/-- The old name behind the underscore is not read. -/
theorem labelValue_probe (r : Reader) (v : List Char) :
    r.labelValue (probe "0".toList v) = 0 ∧
      ∀ s ∈ probes, r.labelValue (probe s v) = r.labelValue (probe s []) := by
  have hs : ∀ P : List Char → Prop, P "_".toList → P "A".toList → P "511".toList →
      P "FFFF".toList → ∀ s ∈ probes, P s := by
    intro P h1 h2 h3 h4 s hs
    simp only [probes, List.map_cons, List.map_nil, List.mem_cons, List.not_mem_nil, or_false] at hs
    rcases hs with rfl | rfl | rfl | rfl <;> assumption
  cases r with
  | dr => exact ⟨rfl, hs _ rfl rfl rfl rfl⟩
  | sr1 => exact ⟨rfl, hs _ rfl rfl rfl rfl⟩
  | last => exact ⟨rfl, hs _ rfl rfl rfl rfl⟩
  | offset =>
    have h0 : extractU16 10 ("0".toList ++ '_' :: v) = 0 := rfl
    have h : ∀ s ∈ probes, extractU16 10 (s ++ '_' :: v) = extractU16 10 (s ++ ['_']) :=
      hs _ rfl rfl rfl rfl
    refine ⟨?_, fun s hm => ?_⟩
    · show 0b111111111 &&& extractU16 10 ("0".toList ++ '_' :: v) = 0
      rw [h0, UInt16.and_zero]
    · show 0b111111111 &&& extractU16 10 (s ++ '_' :: v) = _
      rw [h s hm]
      rfl
  | origin => exact ⟨rfl, hs _ rfl rfl rfl rfl⟩

theorem labelValue_probes (r : Reader) :
    (probes.map fun s => r.labelValue (probe s [])).foldr (· ||| ·) 0 = r.mask := by
  cases r <;> decide

end Tvm
