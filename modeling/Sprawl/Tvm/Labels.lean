import Sprawl.Tvm.Literals
import Sprawl.Tvm.Program

/-!
# Label operands

`BuildSymtab` records where the labels are, and `Encode` never looks there: the
offset field of `LD`, `LEA` and the `BR` family is `Token::LitValue` of the
label's own text, the number its name spells from the second character on
(`nameNumber`); `ST` reads both of its fields from its first operand (`sourceNumber`).

    FieldsHold inset img ↔ NamesSpellDistances inset      (fieldsHold_iff)

where `FieldsHold` is what the symbol table is for: the register of a row in bits
11..9, the distance to its label operand in bits 8..0.
-/

namespace Tvm

open Cxx Loop RegExp

/-! ## What the fields should hold -/

/-- `LD DR LABEL`, `LEA DR LABEL`, `ST SR1 LABEL`. -/
def memOps : List (List Char) := ["LD", "LEA", "ST"].map String.toList

/-- `BR* LABEL`. -/
def branchOps : List (List Char) :=
  ["BR", "BRn", "BRzp", "BRnz", "BRp", "BRz", "BRnp", "BRnzp"].map String.toList

/-- The register of an `LD`, `LEA` or `ST` row. -/
def InstructionRow.memRegister (row : InstructionRow) : Option Token :=
  match row.op, row.operands.first with
  | some op, some reg => if op.value ∈ memOps ∧ reg.type = .Register then some reg else none
  | _, _ => none

/-- What stands where an `LD`, `LEA`, `ST` or `BR*` row has its label. -/
def InstructionRow.offsetOperand (row : InstructionRow) : Option Token :=
  match row.op with
  | none => none
  | some op =>
    if op.value ∈ memOps then row.operands.second
    else if op.value ∈ branchOps then row.operands.first
    else none

/-- The label a row uses as an operand. -/
def InstructionRow.usedLabel (row : InstructionRow) : Option Token :=
  row.offsetOperand.filter fun x => x.type = .Label

/-- The offset of `BuildSymtab` behind the rows. -/
def offsetAfter (offset : Nat) : List InstructionRow → Except Stop Nat
  | [] => .ok offset
  | row :: rows => do
    let (_, _, offset) ← symtabRow offset row
    offsetAfter offset rows

/-- The distance from the instruction after row `i` to a label, as the symbol table
records it. -/
def InstructionSet.distance (inset : InstructionSet) (i : Nat) (label : Token) : Option Int := do
  let t ← inset.lookup label.value
  let next ← (offsetAfter 0 (inset.rows.take (i + 1))).toOption
  return t.address.toNat - next

/-- Some branch of `Encode` takes the row. -/
def InstructionRow.emits (row : InstructionRow) : Bool :=
  match row.op with
  | none => false
  | some op => (encoders.lookup op.value).isSome

/-- The index in the image of the word of row `i`. -/
def wordIndex (rows : List InstructionRow) (i : Nat) : Nat :=
  (rows.take i).countP InstructionRow.emits

/-- The word of row `i`. -/
def wordAt (inset : InstructionSet) (img : Image) (i : Nat) : Option UInt16 :=
  img.words[wordIndex inset.rows i]?

/-- Bits 11..9 hold the register. -/
def RegisterField (w : UInt16) (reg : Token) : Prop :=
  ∃ r : Fin 4, reg.value = regText r ∧ w.toNat / 512 % 8 = r

/-- Bits 8..0 hold the distance in two's complement. -/
def OffsetField (w : UInt16) (d : Int) : Prop := (w.toNat % 512 : Nat) = d % 512

/-- The words of `LD`, `LEA` and `ST` hold their registers, and the words of all rows with a
label operand the distances that the symbol table says. -/
def FieldsHold (inset : InstructionSet) (img : Image) : Prop :=
  ∀ i row, inset.rows[i]? = some row →
    (∀ reg, row.memRegister = some reg → ∃ w, wordAt inset img i = some w ∧ RegisterField w reg) ∧
    (∀ label, row.usedLabel = some label →
      ∃ w d, wordAt inset img i = some w ∧ inset.distance i label = some d ∧ OffsetField w d)

/-- Every label used as an operand stands on exactly one row. -/
def DefinedOnce (inset : InstructionSet) : Prop :=
  ∀ row ∈ inset.rows, ∀ label ∈ row.usedLabel,
    inset.rows.countP (fun r => r.label.map Token.value = some label.value) = 1

/-- Every distance fits in 9 signed bits. -/
def DistancesFit (inset : InstructionSet) : Prop :=
  ∀ i < inset.rows.length, ∀ row ∈ inset.rows[i]?, ∀ label ∈ row.usedLabel,
    ∀ d ∈ inset.distance i label, -256 ≤ d ∧ d ≤ 255

/-! ## What they hold -/

/-- The number a name spells from its second character on, at most 65535. -/
def nameNumber (name : List Char) : Nat :=
  min 65535 (ofDigits 10 (leadingDigits 10 (name.drop 1)))

/-- The number that the text of the first operand of `ST` spells: the code of its second
character in bits 8..6 and, or-ed to it, the number from there on. -/
def sourceNumber (text : List Char) : Nat :=
  (text.getD 1 '0').toNat % 8 * 64 ||| (extractU16 10 (text.drop 1)).toNat % 512

def InstructionRow.isSt (row : InstructionRow) : Prop := row.op.map Token.value = some "ST".toList

instance (row : InstructionRow) : Decidable row.isSt := inferInstanceAs (Decidable (_ = _))

/-- The number spelled where the offset is read: in the label, by `ST` in its first operand. -/
def InstructionRow.spelled (row : InstructionRow) (label : Token) : Nat :=
  if row.isSt then row.operands.first.elim 0 fun x => sourceNumber x.value
  else nameNumber label.value

/-- Every register that is stored is `R0`, and what is spelled where the offset is read is the
distance to the label mod 512. -/
def NamesSpellDistances (inset : InstructionSet) : Prop :=
  ∀ i row, inset.rows[i]? = some row →
    (∀ reg, row.memRegister = some reg → row.isSt → reg.value = "R0".toList) ∧
    (∀ label, row.usedLabel = some label →
      ∃ d, inset.distance i label = some d ∧ (row.spelled label % 512 : Nat) = d % 512)

/-! ## Names and registers -/

def labelChars : List Char := upper ++ digits ++ ['_']

/-- A label is a letter or underscore and at least one more character. -/
theorem label_shape {v : List Char} (h : classify v = .Label) :
    ∃ c s, v = c :: s ∧ s ≠ [] ∧ ∀ d ∈ s, d ∈ labelChars := by
  have hm : v ∈ kLabel.matches' := classify_pattern (by rw [h]; rfl)
  obtain ⟨c, s, rfl, -, hs⟩ := (mem_oneOf_mul _ _ _).1 hm
  obtain ⟨hne, hs⟩ := (mem_some1_oneOf _ _).1 hs
  exact ⟨c, s, rfl, hne, hs⟩

theorem register_shape {v : List Char} (h : classify v = .Register) : ∃ r, v = regText r := by
  have hm : v ∈ kRegister.matches' := classify_pattern (by rw [h]; rfl)
  obtain ⟨b, rfl, hb⟩ := (mem_char_mul _ _ _).1 hm
  obtain ⟨d, hd, rfl⟩ := (mem_oneOf _ _).1 hb
  have hall : ∀ d ∈ "0123".toList, ∃ r, 'R' :: [d] = regText r := by decide
  exact hall d hd

theorem stringToRegister_regText (r : Fin 4) :
    stringToRegister (regText r) = .ok (UInt16.ofNat r) := by
  revert r; decide

theorem labelChars_facts : ∀ d ∈ labelChars, isSpace d = false ∧ d ≠ '-' ∧ d ≠ '+' := by
  decide

/-- `LitValue` of a label is the number its name spells. -/
theorem litValue_label {t : Token} (h : t.type = .Label) :
    t.litValue.toNat = nameNumber t.value := by
  obtain ⟨c, s, hv, hne, hs⟩ := label_shape h
  have hmag : extractU16 10 s = extractMagnitude 10 false s := by
    cases s with
    | nil => exact absurd rfl hne
    | cons d u =>
      obtain ⟨hspace, hminus, hplus⟩ := labelChars_facts d (hs d List.mem_cons_self)
      exact (unsigned_front 10 u hspace hminus hplus).2.2
  have hprefix : dropHexPrefix 10 s = s := by
    unfold dropHexPrefix
    split
    · rw [if_neg (by simp)]
    · rfl
  unfold Token.litValue nameNumber
  rw [hv, List.drop_succ_cons, List.drop_zero, hmag, extractMagnitude, hprefix]
  split
  · next heq => rw [heq]; rfl
  · next heq =>
    simp only [Bool.false_eq_true, if_false]
    split
    · next hle =>
      rw [Nat.min_eq_right hle]
      exact UInt16.toNat_ofNat_of_lt' (Nat.lt_succ_of_le hle)
    · next hgt =>
      rw [Nat.min_eq_left (by omega)]
      rfl

/-! ## The words of the rows -/

theorem encodeRow_isSome {row : InstructionRow} {o : Option UInt16} (h : encodeRow row = .ok o) :
    o.isSome = row.emits := by
  unfold encodeRow at h
  unfold InstructionRow.emits
  cases hop : row.op with
  | none => rw [hop] at h; cases h; rfl
  | some op =>
    rw [hop] at h
    simp only at h ⊢
    cases hl : encoders.lookup op.value with
    | none => rw [hl] at h; cases h; rfl
    | some encoder =>
      rw [hl] at h
      simp only at h
      cases he : encoder row.operands with
      | error e => rw [he] at h; cases h
      | ok w => rw [he] at h; cases h; rfl

/-- The word of row `i` stands behind the words of the rows before it. -/
theorem emitRows_getElem {rows : List InstructionRow} {ws : List UInt16}
    (h : emitRows rows = .ok ws) {i : Nat} {row : InstructionRow} (hi : rows[i]? = some row)
    (he : row.emits = true) :
    ∃ w, encodeRow row = .ok (some w) ∧ ws[wordIndex rows i]? = some w := by
  induction rows generalizing i ws with
  | nil => simp at hi
  | cons r rows ih =>
    rw [emitRows, bind_eq_ok] at h
    obtain ⟨o, ho, h⟩ := h
    rw [bind_eq_ok] at h
    obtain ⟨ws1, h1, h⟩ := h
    cases h
    have hsome := encodeRow_isSome ho
    cases i with
    | zero =>
      rw [List.getElem?_cons_zero, Option.some.injEq] at hi
      subst hi
      rw [he, Option.isSome_iff_exists] at hsome
      obtain ⟨w, rfl⟩ := hsome
      exact ⟨w, ho, by simp [wordIndex]⟩
    | succ i =>
      rw [List.getElem?_cons_succ] at hi
      obtain ⟨w, hw, hget⟩ := ih h1 hi
      refine ⟨w, hw, ?_⟩
      have hidx : wordIndex (r :: rows) (i + 1) = o.toList.length + wordIndex rows i := by
        unfold wordIndex
        rw [List.take_succ_cons, List.countP_cons, ← hsome]
        cases o <;> simp [Nat.add_comm]
      rw [hidx, List.getElem?_append_right (Nat.le_add_right _ _), Nat.add_sub_cancel_left]
      exact hget

theorem wordAt_eq {inset : InstructionSet} {img : Image} (h : encode inset = .ok img) {i : Nat}
    {row : InstructionRow} (hi : inset.rows[i]? = some row) (he : row.emits = true) :
    ∃ w, encodeRow row = .ok (some w) ∧ wordAt inset img i = some w := by
  obtain ⟨ws, hws, hwords, -⟩ := encodeRows_words h
  rw [Image.words_empty, List.nil_append] at hwords
  unfold wordAt
  rw [hwords]
  exact emitRows_getElem hws hi he

/-- Nine bits of a literal below a head of bits 15..9. -/
theorem toNat_or_low {h : UInt16} (hh : h.toNat % 512 = 0) (x : UInt16) :
    (h ||| (0b111111111 &&& x)).toNat = h.toNat + x.toNat % 512 := by
  have hlow : ((0b111111111 : UInt16) &&& x).toNat = x.toNat % 512 := by
    rw [UInt16.toNat_and, Nat.and_comm]
    exact Nat.and_two_pow_sub_one_eq_mod x.toNat 9
  have hshift : h.toNat = (h.toNat / 512) <<< 9 := by rw [Nat.shiftLeft_eq]; omega
  rw [UInt16.toNat_or, hlow, hshift, ← Nat.shiftLeft_add_eq_or_of_lt (by omega)]

section
variable {row : InstructionRow} {reg label : Token}

theorem memRegister_eq_some (h : row.memRegister = some reg) :
    ∃ op, row.op = some op ∧ op.value ∈ memOps ∧ row.operands.first = some reg ∧
      reg.type = .Register := by
  unfold InstructionRow.memRegister at h
  split at h
  · next op r hop hr =>
    split at h
    · next hc =>
      cases h
      exact ⟨op, hop, hc.1, hr, hc.2⟩
    · cases h
  · cases h

theorem usedLabel_eq_some (h : row.usedLabel = some label) :
    ∃ op, row.op = some op ∧ label.type = .Label ∧
      (op.value ∈ memOps ∧ row.operands.second = some label ∨
        op.value ∈ branchOps ∧ row.operands.first = some label) := by
  obtain ⟨hoperand, htype⟩ := Option.filter_eq_some_iff.1 h
  unfold InstructionRow.offsetOperand at hoperand
  split at hoperand
  · cases hoperand
  · next op hop =>
    refine ⟨op, hop, by simpa using htype, ?_⟩
    split at hoperand
    · next hmem => exact .inl ⟨hmem, hoperand⟩
    · split at hoperand
      · next hbranch => exact .inr ⟨hbranch, hoperand⟩
      · cases hoperand

end

theorem encodeRow_of_lookup {row : InstructionRow} {op : Token}
    {encoder : Operands → Except Stop UInt16} (hop : row.op = some op)
    (hl : encoders.lookup op.value = some encoder) :
    row.emits = true ∧ encodeRow row = (encoder row.operands).map some := by
  unfold InstructionRow.emits encodeRow
  simp [hop, hl]

theorem map_some_eq_ok {x : Except Stop UInt16} {w : UInt16}
    (h : x.map some = .ok (some w)) : x = .ok w := by
  cases x with
  | error e => cases h
  | ok v => cases h; rfl

/-- The head of `LD` and `LEA` leaves the low nine bits free. -/
theorem head_mod {opcode : OpCode} (ho : opcode.bits.toNat % 512 = 0) (dr : UInt16) :
    (opcode.bits ||| asDR dr).toNat % 512 = 0 := by
  have hdr : (asDR dr).toNat % 512 = 0 := by
    unfold asDR
    rw [UInt16.toNat_shiftLeft, Nat.shiftLeft_eq]
    show dr.toNat * 2 ^ 9 % 2 ^ 16 % 512 = 0
    omega
  rw [UInt16.toNat_or, show 512 = 2 ^ 9 from rfl, Nat.or_mod_two_pow]
  show opcode.bits.toNat % 512 ||| (asDR dr).toNat % 512 = 0
  rw [ho, hdr]
  rfl

section
variable {operands : Operands} {reg label : Token} {r : Fin 4} {w : UInt16}

/-- The register in the word of `LD` and `LEA`. -/
theorem encodeRegOffset_register {opcode : OpCode} (ho : opcode = .kLd ∨ opcode = .kLea)
    (hreg : operands.first = some reg) (hr : reg.value = regText r)
    (h : encodeRegOffset opcode operands = .ok w) : w.toNat / 512 % 8 = r := by
  have hhead : ∀ r : Fin 4,
      (OpCode.kLd.bits ||| asDR (UInt16.ofNat r)).toNat = 512 * (16 + r) ∧
      (OpCode.kLea.bits ||| asDR (UInt16.ofNat r)).toNat = 512 * (112 + r) := by
    decide
  simp only [encodeRegOffset, hreg, deref_some, ok_bind, hr, stringToRegister_regText,
    bind_eq_ok] at h
  obtain ⟨label, -, hw⟩ := h
  cases hw
  rcases ho with rfl | rfl
  · rw [toNat_or_low (by rw [(hhead r).1]; omega), (hhead r).1]
    omega
  · rw [toNat_or_low (by rw [(hhead r).2]; omega), (hhead r).2]
    omega

/-- The offset in the word of `LD` and `LEA`. -/
theorem encodeRegOffset_offset {opcode : OpCode} (ho : opcode.bits.toNat % 512 = 0)
    (hlabel : operands.second = some label) (h : encodeRegOffset opcode operands = .ok w) :
    w.toNat % 512 = label.litValue.toNat % 512 := by
  simp only [encodeRegOffset, hlabel, deref_some, ok_bind, bind_eq_ok] at h
  obtain ⟨reg, -, dr, -, hw⟩ := h
  cases hw
  have hhead := head_mod ho dr
  rw [toNat_or_low hhead]
  omega

/-- The register in the word of `ST`: there is none. -/
theorem encodeSt_register (hreg : operands.first = some reg) (hr : reg.value = regText r)
    (h : encodeSt operands = .ok w) : w.toNat / 512 % 8 = 0 := by
  have hlit : ∀ r : Fin 4, extractU16 10 ((regText r).drop 1) = UInt16.ofNat r := by decide
  have hbits : ∀ r : Fin 4, (OpCode.kSt.bits ||| asSR1 (UInt16.ofNat r) |||
      (0b111111111 &&& UInt16.ofNat r)).toNat / 512 % 8 = 0 := by decide
  simp only [encodeSt, hreg, deref_some, ok_bind, Token.litValue, hr, stringToRegister_regText,
    hlit] at h
  cases h
  exact hbits r

/-- The offset in the word of `ST` is read from its first operand. -/
theorem encodeSt_offset (h : encodeSt operands = .ok w) :
    ∃ x, operands.first = some x ∧ w.toNat % 512 = sourceNumber x.value % 512 := by
  simp only [encodeSt, bind_eq_ok, deref_eq_ok] at h
  obtain ⟨x, hx, sr, hsr, hw⟩ := h
  cases hw
  refine ⟨x, hx, ?_⟩
  unfold stringToRegister at hsr
  split at hsr
  · next c d s hv =>
    cases hsr
    have hdigit : (asSR1 (UInt16.ofInt (signedChar d - 0x30))).toNat % 512 =
        d.toNat % 8 * 64 := by
      unfold asSR1
      rw [UInt16.toNat_shiftLeft, Nat.shiftLeft_eq, toNat_ofInt]
      show ((signedChar d - 48) % 65536).toNat * 2 ^ 6 % 2 ^ 16 % 512 = d.toNat % 8 * 64
      unfold signedChar
      split <;> omega
    have hlit : ((0b111111111 : UInt16) &&& x.litValue).toNat % 512 = x.litValue.toNat % 512 := by
      rw [UInt16.toNat_and, Nat.and_comm]
      have hmask := Nat.and_two_pow_sub_one_eq_mod x.litValue.toNat 9
      rw [show (0b111111111 : UInt16).toNat = 2 ^ 9 - 1 from rfl, hmask]
      omega
    unfold sourceNumber
    rw [UInt16.toNat_or, UInt16.toNat_or, show 512 = 2 ^ 9 from rfl, Nat.or_mod_two_pow,
      Nat.or_mod_two_pow, Nat.or_mod_two_pow]
    show (OpCode.kSt.bits.toNat % 512 ||| _ % 512) ||| _ % 512 = _ % 512 ||| _ % 512 % 512
    rw [hdigit, hlit, Nat.mod_mod, hv]
    show (0 ||| d.toNat % 8 * 64) ||| _ = d.toNat % 8 * 64 % 512 ||| _
    rw [Nat.zero_or, Nat.mod_eq_of_lt (show d.toNat % 8 * 64 < 512 by omega), ← hv]
    rfl
  · cases hsr

/-- The offset field of the word of the `BR` family. -/
theorem encodeOffset_field {opcode : OpCode} (ho : opcode.bits.toNat % 512 = 0)
    (hlabel : operands.first = some label) (h : encodeOffset opcode operands = .ok w) :
    w.toNat % 512 = label.litValue.toNat % 512 := by
  simp only [encodeOffset, hlabel, deref_some, ok_bind] at h
  cases h
  rw [toNat_or_low ho]
  omega

end

/-- The branch of `Encode` for `LD`, `LEA` and `ST`. -/
theorem memEncoder {row : InstructionRow} {op : Token} (hop : row.op = some op)
    (hmem : op.value ∈ memOps) :
    row.isSt ∧ encoders.lookup op.value = some encodeSt ∨
      ¬ row.isSt ∧ ∃ opcode, (opcode = .kLd ∨ opcode = .kLea) ∧
        encoders.lookup op.value = some (encodeRegOffset opcode) := by
  unfold InstructionRow.isSt
  rw [hop]
  simp only [memOps, List.map_cons, List.map_nil, List.mem_cons, List.not_mem_nil, or_false] at hmem
  rcases hmem with hv | hv | hv
  · exact .inr ⟨by rw [Option.map_some, hv]; decide, .kLd, .inl rfl, by rw [hv]; rfl⟩
  · exact .inr ⟨by rw [Option.map_some, hv]; decide, .kLea, .inr rfl, by rw [hv]; rfl⟩
  · exact .inl ⟨by rw [Option.map_some, hv], by rw [hv]; rfl⟩

/-- The branch of `Encode` for `BR*`. -/
theorem branchEncoder {row : InstructionRow} {op : Token} (hop : row.op = some op)
    (hmem : op.value ∈ branchOps) :
    ¬ row.isSt ∧ ∃ opcode : OpCode, opcode.bits.toNat % 512 = 0 ∧
      encoders.lookup op.value = some (encodeOffset opcode) := by
  have hne : ∀ v ∈ branchOps, v ≠ "ST".toList := by decide
  refine ⟨?_, ?_⟩
  · unfold InstructionRow.isSt
    rw [hop, Option.map_some, Option.some.injEq]
    exact hne _ hmem
  · simp only [branchOps, List.map_cons, List.map_nil, List.mem_cons, List.not_mem_nil,
      or_false] at hmem
    rcases hmem with hv | hv | hv | hv | hv | hv | hv | hv
    · exact ⟨.kBr, rfl, by rw [hv]; rfl⟩
    · exact ⟨.kBrn, rfl, by rw [hv]; rfl⟩
    · exact ⟨.kBrzp, rfl, by rw [hv]; rfl⟩
    · exact ⟨.kBrnz, rfl, by rw [hv]; rfl⟩
    · exact ⟨.kBrp, rfl, by rw [hv]; rfl⟩
    · exact ⟨.kBrz, rfl, by rw [hv]; rfl⟩
    · exact ⟨.kBrnp, rfl, by rw [hv]; rfl⟩
    · exact ⟨.kBrnzp, rfl, by rw [hv]; rfl⟩

/-! ## When the fields hold -/

theorem registerField_regText {w : UInt16} {reg : Token} {r : Fin 4} (hr : reg.value = regText r) :
    RegisterField w reg ↔ w.toNat / 512 % 8 = r := by
  have hinj : ∀ r r' : Fin 4, regText r = regText r' → r = r' := by decide
  constructor
  · rintro ⟨r', hr', h⟩
    rw [hinj r r' (by rw [← hr, hr'])]
    exact h
  · exact fun h => ⟨r, hr, h⟩

section
variable {inset : InstructionSet} {img : Image} (henc : encode inset = .ok img) {i : Nat}
  {row : InstructionRow} (hi : inset.rows[i]? = some row)
include henc hi

/-- The word of a row is what its branch of `Encode` makes of the operands. -/
theorem wordAt_of_lookup {op : Token} {encoder : Operands → Except Stop UInt16}
    (hop : row.op = some op) (hl : encoders.lookup op.value = some encoder) :
    ∃ w, wordAt inset img i = some w ∧ encoder row.operands = .ok w := by
  obtain ⟨hemits, hencode⟩ := encodeRow_of_lookup hop hl
  obtain ⟨w, hw, hat⟩ := wordAt_eq henc hi hemits
  rw [hencode] at hw
  exact ⟨w, hat, map_some_eq_ok hw⟩

theorem register_iff {reg : Token} (h : row.memRegister = some reg) :
    (∃ w, wordAt inset img i = some w ∧ RegisterField w reg) ↔
      (row.isSt → reg.value = "R0".toList) := by
  obtain ⟨op, hop, hmem, hreg, htr⟩ := memRegister_eq_some h
  obtain ⟨r, hr⟩ := register_shape htr
  rcases memEncoder hop hmem with ⟨hst, hl⟩ | ⟨hst, opcode, ho, hl⟩
  · obtain ⟨w, hat, hw⟩ := wordAt_of_lookup henc hi hop hl
    have hfield := encodeSt_register hreg hr hw
    have hall : ∀ r, regText r = "R0".toList ↔ r = 0 := by decide
    simp only [hat, Option.some.injEq, exists_eq_left', registerField_regText hr, hst,
      true_implies, hr, hall, hfield]
    rw [Fin.ext_iff]
    exact eq_comm
  · obtain ⟨w, hat, hw⟩ := wordAt_of_lookup henc hi hop hl
    have hfield := encodeRegOffset_register ho hreg hr hw
    exact iff_of_true ⟨w, hat, (registerField_regText hr).2 hfield⟩ fun h => absurd h hst

/-- The offset of a row with a label operand is what is spelled there. -/
theorem offset_spelled {label : Token} (h : row.usedLabel = some label) :
    ∃ w, wordAt inset img i = some w ∧ w.toNat % 512 = row.spelled label % 512 := by
  obtain ⟨op, hop, htl, ⟨hmem, hlabel⟩ | ⟨hmem, hlabel⟩⟩ := usedLabel_eq_some h
  · rcases memEncoder hop hmem with ⟨hst, hl⟩ | ⟨hst, opcode, ho, hl⟩
    · obtain ⟨w, hat, hw⟩ := wordAt_of_lookup henc hi hop hl
      obtain ⟨x, hx, hfield⟩ := encodeSt_offset hw
      refine ⟨w, hat, ?_⟩
      rw [hfield, InstructionRow.spelled, if_pos hst, hx]
      rfl
    · obtain ⟨w, hat, hw⟩ := wordAt_of_lookup henc hi hop hl
      have hbits : opcode.bits.toNat % 512 = 0 := by rcases ho with rfl | rfl <;> rfl
      refine ⟨w, hat, ?_⟩
      rw [encodeRegOffset_offset hbits hlabel hw, litValue_label htl,
        InstructionRow.spelled, if_neg hst]
  · obtain ⟨hst, opcode, hbits, hl⟩ := branchEncoder hop hmem
    obtain ⟨w, hat, hw⟩ := wordAt_of_lookup henc hi hop hl
    refine ⟨w, hat, ?_⟩
    rw [encodeOffset_field hbits hlabel hw, litValue_label htl,
      InstructionRow.spelled, if_neg hst]

theorem offset_iff {label : Token} (h : row.usedLabel = some label) :
    (∃ w d, wordAt inset img i = some w ∧ inset.distance i label = some d ∧ OffsetField w d) ↔
      ∃ d, inset.distance i label = some d ∧ (row.spelled label % 512 : Nat) = d % 512 := by
  obtain ⟨w, hat, hfield⟩ := offset_spelled henc hi h
  simp only [hat, OffsetField, ← hfield]
  constructor
  · rintro ⟨w', d, hw', hd, hfits⟩
    cases hw'
    exact ⟨d, hd, hfits⟩
  · rintro ⟨d, hd, hfits⟩
    exact ⟨w, d, rfl, hd, hfits⟩

end

/-- **The fields hold exactly when the names spell the distances.** -/
theorem fieldsHold_iff {inset : InstructionSet} {img : Image} (henc : encode inset = .ok img) :
    FieldsHold inset img ↔ NamesSpellDistances inset := by
  unfold FieldsHold NamesSpellDistances
  refine forall₃_congr fun i row hi => and_congr ?_ ?_
  · exact forall₂_congr fun reg h => register_iff henc hi h
  · exact forall₂_congr fun label h => offset_iff henc hi h

end Tvm
