import Sprawl.Tvm.Parse

/-!
# `Encode`

A fold over the rows.  `encodeRow` is the body of the loop without the store:
the word a row emits, or none.  The branches of one instruction format share a
definition (`encodeRRX`, `encodeRegOffset`, `encodeOffset`); `ST` differs from
its siblings and keeps its own.

    encodeRows_words : encodeRows img rows = ok img' →
      ∃ ws, emitRows rows = ok ws ∧ img'.words = img.words ++ ws
-/

namespace Tvm

open Cxx

/-- The number of words in `Image::data_`. -/
def kImageSize : Nat := 0xffff

structure Image where
  data : Vector UInt16 kImageSize
  len : Nat

/-- `Image()`. -/
def Image.empty : Image := { data := Vector.replicate kImageSize 0, len := 0 }

/-- The first `len_` words. -/
def Image.words (img : Image) : List UInt16 := img.data.toList.take img.len

/-- `img.data_[img.len_++] = w`. -/
def Image.push (img : Image) (w : UInt16) : Except Stop Image :=
  if h : img.len < kImageSize then .ok { data := img.data.set img.len w, len := img.len + 1 }
  else .error (.undefined .outOfBounds)

/-! ## The words of the rows -/

def encodeNot (operands : Operands) : Except Stop UInt16 := do
  let dr ← stringToRegister (← deref operands.first).value
  let sr ← stringToRegister (← deref operands.second).value
  return OpCode.kNot.bits ||| asDR dr ||| asSR1 sr ||| 0b111111

/-- The last operand of `AND` and `ADD`: bit 5 and a 5-bit literal, or a register. -/
def encodeLast (x : Token) : Except Stop UInt16 :=
  if x.type = .NumberLiteral then .ok (0b100000 ||| (0b11111 &&& x.litValue))
  else stringToRegister x.value

/-- `AND` and `ADD`. -/
def encodeRRX (opcode : OpCode) (operands : Operands) : Except Stop UInt16 := do
  let dr ← stringToRegister (← deref operands.first).value
  let sr1 ← stringToRegister (← deref operands.second).value
  let last ← encodeLast (← deref operands.third)
  return opcode.bits ||| asDR dr ||| asSR1 sr1 ||| last

/-- `LD`, `LEA` and `LDI`. -/
def encodeRegOffset (opcode : OpCode) (operands : Operands) : Except Stop UInt16 := do
  let dr ← stringToRegister (← deref operands.first).value
  let x ← deref operands.second
  return opcode.bits ||| asDR dr ||| (0b111111111 &&& x.litValue)

/-- The `BR` family. -/
def encodeOffset (opcode : OpCode) (operands : Operands) : Except Stop UInt16 := do
  let x ← deref operands.first
  return opcode.bits ||| (0b111111111 &&& x.litValue)

/-- `ST`: both fields are read from the first operand. -/
def encodeSt (operands : Operands) : Except Stop UInt16 := do
  let x ← deref operands.first
  let sr ← stringToRegister x.value
  return OpCode.kSt.bits ||| asSR1 sr ||| (0b111111111 &&& x.litValue)

/-- The branches of `Encode`, by the text of the operation, in their order. -/
def encoders : List (List Char × (Operands → Except Stop UInt16)) :=
  [(".ORIG".toList, fun operands => do return (← deref operands.first).hexToU16),
    ("NOT".toList, encodeNot),
    ("AND".toList, encodeRRX .kAnd),
    ("ADD".toList, encodeRRX .kAdd),
    ("GETC".toList, fun _ => pure OpCode.kTrapGetc.bits),
    ("OUT".toList, fun _ => pure OpCode.kTrapOut.bits),
    ("PUTS".toList, fun _ => pure OpCode.kTrapPuts.bits),
    ("IN".toList, fun _ => pure OpCode.kTrapIn.bits),
    ("PUTSP".toList, fun _ => pure OpCode.kTrapPutsp.bits),
    ("HALT".toList, fun _ => pure OpCode.kTrapHalt.bits),
    ("LD".toList, encodeRegOffset .kLd),
    ("LEA".toList, encodeRegOffset .kLea),
    ("LDI".toList, encodeRegOffset .kLdi),
    ("BR".toList, encodeOffset .kBr),
    ("BRn".toList, encodeOffset .kBrn),
    ("BRzp".toList, encodeOffset .kBrzp),
    ("BRnz".toList, encodeOffset .kBrnz),
    ("BRp".toList, encodeOffset .kBrp),
    ("BRz".toList, encodeOffset .kBrz),
    ("BRnp".toList, encodeOffset .kBrnp),
    ("BRnzp".toList, encodeOffset .kBrnzp),
    ("ST".toList, encodeSt),
    ("RET".toList, fun _ => pure OpCode.kRet.bits)]

/-- The word a row emits; a row without an operation, or with one that no branch
names (`.END`, `LDR`), emits none. -/
def encodeRow (row : InstructionRow) : Except Stop (Option UInt16) :=
  match row.op with
  | none => .ok none
  | some op =>
    match encoders.lookup op.value with
    | none => .ok none
    | some encoder => (encoder row.operands).map some

/-- The loop of `Encode`. -/
def encodeRows (img : Image) : List InstructionRow → Except Stop Image
  | [] => .ok img
  | row :: rows => do
    match ← encodeRow row with
    | none => encodeRows img rows
    | some w => encodeRows (← img.push w) rows

/-- `Encode(inset)`. -/
def encode (inset : InstructionSet) : Except Stop Image := encodeRows .empty inset.rows

/-! ## The image is the list of the emitted words -/

/-- The words the rows emit, in order. -/
def emitRows : List InstructionRow → Except Stop (List UInt16)
  | [] => .ok []
  | row :: rows => do
    let w ← encodeRow row
    let ws ← emitRows rows
    return w.toList ++ ws

theorem Image.words_empty : Image.empty.words = [] := by
  simp [Image.words, Image.empty]

theorem Image.words_push {img img' : Image} {w : UInt16} (h : img.push w = .ok img') :
    img'.words = img.words ++ [w] ∧ img'.len = img.len + 1 ∧ img'.len ≤ kImageSize := by
  unfold Image.push at h
  split at h
  · next hlt =>
    cases h
    refine ⟨?_, rfl, hlt⟩
    unfold Image.words
    have hlen : img.len < (img.data.toList.set img.len w).length := by simpa using hlt
    rw [Vector.toList_set, List.take_succ_eq_append_getElem hlen, List.getElem_set_self]
    rw [List.take_set_of_le (Nat.le_refl _)]
  · cases h

theorem Image.push_of_lt {img : Image} (w : UInt16) (h : img.len < kImageSize) :
    ∃ img', img.push w = .ok img' := by
  unfold Image.push
  rw [dif_pos h]
  exact ⟨_, rfl⟩

/-- What `Encode` returns is what the rows emit. -/
theorem encodeRows_words {rows : List InstructionRow} {img img' : Image}
    (h : encodeRows img rows = .ok img') :
    ∃ ws, emitRows rows = .ok ws ∧ img'.words = img.words ++ ws ∧
      img'.len = img.len + ws.length := by
  induction rows generalizing img with
  | nil =>
    cases h
    exact ⟨[], rfl, by simp, by simp⟩
  | cons row rows ih =>
    rw [encodeRows, bind_eq_ok] at h
    obtain ⟨w, hr, h⟩ := h
    cases w with
    | none =>
      obtain ⟨ws, hws, himg, hlen⟩ := ih h
      exact ⟨ws, by simp only [emitRows, hr, hws]; rfl, himg, hlen⟩
    | some w =>
      rw [bind_eq_ok] at h
      obtain ⟨img1, hp, h⟩ := h
      obtain ⟨ws, hws, himg, hlen⟩ := ih h
      obtain ⟨hw1, hl1, -⟩ := Image.words_push hp
      refine ⟨w :: ws, by simp only [emitRows, hr, hws]; rfl, ?_, ?_⟩
      · rw [himg, hw1]; simp
      · rw [hlen, hl1, List.length_cons]; omega

/-- Rows that emit words that fit are encoded. -/
theorem encodeRows_of_emit {rows : List InstructionRow} {img : Image} {ws : List UInt16}
    (h : emitRows rows = .ok ws) (hfit : img.len + ws.length ≤ kImageSize) :
    ∃ img', encodeRows img rows = .ok img' := by
  induction rows generalizing img ws with
  | nil => exact ⟨img, rfl⟩
  | cons row rows ih =>
    rw [emitRows, bind_eq_ok] at h
    obtain ⟨w, hr, h⟩ := h
    rw [bind_eq_ok] at h
    obtain ⟨ws', hrs, h⟩ := h
    cases h
    rw [encodeRows, hr]
    cases w with
    | none => exact ih hrs (by simpa using hfit)
    | some w =>
      simp only [Option.toList_some, List.length_append, List.length_singleton] at hfit
      obtain ⟨img1, hp⟩ := Image.push_of_lt w (show img.len < kImageSize by omega)
      obtain ⟨-, hl1, -⟩ := Image.words_push hp
      obtain ⟨img', himg⟩ := @ih img1 ws' hrs (by omega)
      exact ⟨img', by simp only [ok_bind, hp]; exact himg⟩

end Tvm
