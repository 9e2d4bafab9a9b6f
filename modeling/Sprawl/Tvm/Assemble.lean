import Sprawl.Tvm.Labels
import Sprawl.Tvm.Rows

/-!
# The three passes compose

For every program of the fragment and every layout of its text, `Tokenize`,
`Parse` and `Encode` end, and the image is the program's:

    Layout p.tokens text →
      tokenize text = ok toks, Parse toks (ok inset), encode inset = ok img,
      img.words = p.image                                    (assemble_layout)

Each pass has one lemma: a layout is read as its tokens (`tokenize_layout`), the
tokens of an instruction become one row (`parseBody_instr`, `parseRows_program`),
the row of an instruction emits its word (`encodeRow_instr`).
-/

namespace Tvm

open Cxx Loop

/-! ## Tokenize -/

theorem tokenizeFrom_gap {gap : List Char} (h : Gap gap) (tokens : List Token) (lineNumber : Nat)
    (is : List Char) :
    ∃ lineNumber', tokenizeFrom tokens [] lineNumber (gap ++ is) =
      tokenizeFrom tokens [] lineNumber' is := by
  induction h generalizing lineNumber with
  | nil => exact ⟨lineNumber, rfl⟩
  | @blank c s hc _ ih =>
    have h1 := tokenizeFrom_blank tokens [] lineNumber (s ++ is) hc
    obtain ⟨ln', h2⟩ := ih (if c = '\n' then lineNumber + 1 else lineNumber)
    exact ⟨ln', by rw [List.cons_append, h1, ← h2]; rfl⟩
  | @comment body s hb _ ih =>
    obtain ⟨ln', h2⟩ := ih (lineNumber + 1)
    refine ⟨ln', ?_⟩
    rw [← h2, ← tokenizeFrom_comment tokens [] lineNumber (s ++ is) hb]
    simp

/-- A token's text can stand between blanks. -/
def IsTokenText (t : List Char) : Prop := t ≠ [] ∧ ∀ c ∈ t, IsPlain c

instance (t : List Char) : Decidable (IsTokenText t) := by unfold IsTokenText; infer_instance

theorem tokenizeFrom_layout {toks : List (List Char)} {text : List Char} (h : Layout toks text)
    (ht : ∀ t ∈ toks, IsTokenText t) (tokens : List Token) (lineNumber : Nat) :
    ∃ ts, tokenizeFrom tokens [] lineNumber text = .ok (tokens ++ ts) ∧
      ts.map Token.value = toks := by
  induction h generalizing tokens lineNumber with
  | @nil gap hg =>
    obtain ⟨ln, h1⟩ := tokenizeFrom_gap hg tokens lineNumber []
    rw [List.append_nil] at h1
    exact ⟨[], by rw [h1, tokenizeFrom_nil]; simp [flushBuffer], rfl⟩
  | @comment gap body hg hb =>
    obtain ⟨ln, h1⟩ := tokenizeFrom_gap hg tokens lineNumber (';' :: body)
    have h2 := tokenizeFrom_lastComment tokens [] ln hb
    exact ⟨[], by rw [h1, h2]; simp [flushBuffer], rfl⟩
  | @last gap tok hg =>
    obtain ⟨hne, hplain⟩ := ht tok List.mem_cons_self
    obtain ⟨ln, h1⟩ := tokenizeFrom_gap hg tokens lineNumber tok
    have h2 := tokenizeFrom_plains tokens [] ln [] hplain
    rw [List.append_nil, List.nil_append] at h2
    refine ⟨[{ value := tok, lineNumber := ln }], ?_, rfl⟩
    rw [h1, h2, tokenizeFrom_nil, flushBuffer, if_neg hne]
  | @cons gap tok c toks text hg hc _ ih =>
    obtain ⟨hne, hplain⟩ := ht tok List.mem_cons_self
    obtain ⟨ln, h1⟩ := tokenizeFrom_gap hg tokens lineNumber (tok ++ c :: text)
    have h2 := tokenizeFrom_plains tokens [] ln (c :: text) hplain
    rw [List.nil_append] at h2
    have h3 := tokenizeFrom_blank tokens tok ln text hc
    obtain ⟨ts, h4, h5⟩ := ih (fun t h => ht t (List.mem_cons_of_mem _ h))
      (flushBuffer tokens tok ln) (if c = '\n' then ln + 1 else ln)
    refine ⟨{ value := tok, lineNumber := ln } :: ts, ?_, by rw [List.map_cons, h5]⟩
    rw [h1, h2, h3, h4, flushBuffer, if_neg hne]
    simp

/-- **A layout is read as its tokens.** -/
theorem tokenize_layout {toks : List (List Char)} {text : List Char} (h : Layout toks text)
    (ht : ∀ t ∈ toks, IsTokenText t) :
    ∃ ts, tokenize text = .ok ts ∧ ts.map Token.value = toks := by
  obtain ⟨ts, h1, h2⟩ := tokenizeFrom_layout h ht [] 1
  exact ⟨ts, h1, h2⟩

/-! ## The texts of a program's tokens -/

theorem regText_isTokenText (r : Fin 4) : IsTokenText (regText r) := by
  revert r; decide

theorem immText_facts : ∀ n ∈ Finset.Icc (-16 : Int) 15,
    IsTokenText (immText n) ∧ classify (immText n) = .NumberLiteral ∧
      0b11111 &&& extractU16 10 ((immText n).drop 1) = UInt16.ofNat (n % 32).toNat := by
  decide +kernel

theorem Operand.text_isTokenText (x : Operand) : IsTokenText x.text := by
  cases x with
  | reg r => exact regText_isTokenText r
  | imm n h => exact (immText_facts n (Finset.mem_Icc.2 h)).1

theorem Instr.tokens_isTokenText (i : Instr) : ∀ t ∈ i.tokens, IsTokenText t := by
  cases i with
  | alu op dr sr1 x =>
    have hop : IsTokenText op.text := by cases op <;> decide
    simp only [Instr.tokens, List.forall_mem_cons]
    exact ⟨hop, regText_isTokenText dr, regText_isTokenText sr1, x.text_isTokenText, by simp⟩
  | not dr sr =>
    simp only [Instr.tokens, List.forall_mem_cons]
    exact ⟨by decide, regText_isTokenText dr, regText_isTokenText sr, by simp⟩
  | puts => decide
  | halt => decide

theorem hexDigits_isPlain : ∀ c ∈ hexDigits, IsPlain c := by decide

theorem Program.tokens_isTokenText (p : Program) : ∀ t ∈ p.tokens, IsTokenText t := by
  intro t ht
  unfold Program.tokens at ht
  simp only [List.cons_append, List.mem_cons, List.mem_append, List.mem_flatMap] at ht
  rcases ht with rfl | rfl | ⟨i, -, hi⟩ | ht
  · decide
  · refine ⟨by simp, fun c hc => ?_⟩
    rcases List.mem_cons.1 hc with rfl | hc
    · decide
    · exact hexDigits_isPlain c (p.origin_digits c hc)
  · exact i.tokens_isTokenText t hi
  · split at ht
    · rw [List.mem_singleton.1 ht]; decide
    · simp at ht

/-! ## Parse -/

/-- The row of an instruction without a label: the operation and its operands. -/
def plainRow (ts : List Token) : InstructionRow :=
  { op := ts[0]?, operands := #v[ts[1]?, ts[2]?, ts[3]?] }

theorem AluOp.text_mem (op : AluOp) : op.text ∈ takesThree ∧ op.text ∈ instructionWords := by
  cases op <;> decide

/-- A turn of the loop on an instruction. -/
theorem parseBody_instruction {t : Token} (rows : List InstructionRow) (it : List Token)
    (ht : t.value ∈ instructionWords) :
    parseBody (rows, t :: it) =
      .again (rows ++ [(parseInstruction { it := t :: it } t).row],
        (parseInstruction { it := t :: it } t).it) := by
  have htype : t.type = .Instruction := classify_opText _ ht
  simp only [parseBody, parseRow, htype]

/-- The tokens of an instruction become one row. -/
theorem parseBody_instr (i : Instr) (rows : List InstructionRow) {ts : List Token}
    (rest : List Token) (h : ts.map Token.value = i.tokens) :
    parseBody (rows, ts ++ rest) = .again (rows ++ [plainRow ts], rest) := by
  cases i with
  | alu op dr sr1 x =>
    simp only [Instr.tokens, List.map_eq_cons_iff, List.map_eq_nil_iff] at h
    obtain ⟨t0, _, rfl, h0, t1, _, rfl, -, t2, _, rfl, -, t3, _, rfl, -, rfl⟩ := h
    obtain ⟨h3, hw⟩ := op.text_mem
    simp only [List.cons_append, List.nil_append]
    rw [parseBody_instruction _ _ (h0 ▸ hw), parseInstruction, h0, if_pos h3]
    rfl
  | not dr sr =>
    simp only [Instr.tokens, List.map_eq_cons_iff, List.map_eq_nil_iff] at h
    obtain ⟨t0, _, rfl, h0, t1, _, rfl, -, t2, _, rfl, -, rfl⟩ := h
    simp only [List.cons_append, List.nil_append]
    rw [parseBody_instruction _ _ (h0 ▸ by decide), parseInstruction, h0]
    rfl
  | puts =>
    simp only [Instr.tokens, List.map_eq_cons_iff, List.map_eq_nil_iff] at h
    obtain ⟨t0, _, rfl, h0, rfl⟩ := h
    simp only [List.cons_append, List.nil_append]
    rw [parseBody_instruction _ _ (h0 ▸ by decide), parseInstruction, h0]
    rfl
  | halt =>
    simp only [Instr.tokens, List.map_eq_cons_iff, List.map_eq_nil_iff] at h
    obtain ⟨t0, _, rfl, h0, rfl⟩ := h
    simp only [List.cons_append, List.nil_append]
    rw [parseBody_instruction _ _ (h0 ▸ by decide), parseInstruction, h0]
    rfl

/-- The tokens spell the instruction. -/
def Spells (i : Instr) (ts : List Token) : Prop := ts.map Token.value = i.tokens

/-- The tokens of the instructions become one row each. -/
theorem reach_instrs (is : List Instr) (rows : List InstructionRow) {ts : List Token}
    (rest : List Token) (h : ts.map Token.value = is.flatMap Instr.tokens) :
    ∃ tss : List (List Token), List.Forall₂ Spells is tss ∧
      Reach parseBody (rows, ts ++ rest) (rows ++ tss.map plainRow, rest) := by
  induction is generalizing rows ts with
  | nil =>
    rw [List.flatMap_nil, List.map_eq_nil_iff] at h
    subst h
    exact ⟨[], .nil, by simpa using Reach.refl _⟩
  | cons i is ih =>
    rw [List.flatMap_cons, List.map_eq_append_iff] at h
    obtain ⟨u, ts, rfl, hu, hts⟩ := h
    obtain ⟨tss, htss, hreach⟩ := ih (rows ++ [plainRow u]) hts
    refine ⟨u :: tss, .cons hu htss, ?_⟩
    have hstep := parseBody_instr i rows (ts ++ rest) hu
    rw [List.append_assoc]
    simpa using Reach.head hstep hreach

/-- The row of a segment that takes `n` operands. -/
theorem parseBody_segment (rows : List InstructionRow) {t : Token} (it : List Token)
    (ht : t.type = .Segment) :
    parseBody (rows, t :: it) = .again (rows ++ [(parseSegment { it := t :: it } t).row],
      (parseSegment { it := t :: it } t).it) := by
  simp only [parseBody, parseRow, ht]

/-- A program becomes the row of its origin, the rows of its instructions and the
row of its `.END`. -/
theorem parseRows_program (p : Program) {ts : List Token} (h : ts.map Token.value = p.tokens) :
    ∃ (t0 t1 : Token) (tss ends : List (List Token)),
      t0.value = ".ORIG".toList ∧ t1.value = 'x' :: p.origin ∧
      List.Forall₂ Spells p.instrs tss ∧
      (∀ u ∈ ends, u.map Token.value = [".END".toList]) ∧
      ParseRows ts (.ok (plainRow [t0, t1] :: tss.map plainRow ++ ends.map plainRow)) := by
  unfold Program.tokens at h
  simp only [List.cons_append, List.map_eq_cons_iff, List.map_eq_append_iff] at h
  obtain ⟨t0, _, rfl, h0, t1, _, rfl, h1, u, e, rfl, hu, he⟩ := h
  have hseg : t0.type = .Segment := by rw [Token.type, h0]; decide +kernel
  have horig : parseBody ([], t0 :: t1 :: (u ++ e)) = .again ([plainRow [t0, t1]], u ++ e) := by
    rw [parseBody_segment _ _ hseg, parseSegment, h0]
    rfl
  obtain ⟨tss, htss, hreach⟩ := reach_instrs p.instrs [plainRow [t0, t1]] e hu
  cases hc : p.closed with
  | false =>
    rw [hc] at he
    simp only [Bool.false_eq_true, if_false, List.map_eq_nil_iff] at he
    subst he
    refine ⟨t0, t1, tss, [], h0, h1, htss, by simp, ?_⟩
    rw [ParseRows, (Reach.head horig hreach).returns_iff]
    exact returns_of_done (by simp [parseBody])
  | true =>
    rw [hc] at he
    simp only [if_true, List.map_eq_cons_iff, List.map_eq_nil_iff] at he
    obtain ⟨t2, _, rfl, h2, rfl⟩ := he
    have hend : t2.type = .Segment := by rw [Token.type, h2]; decide +kernel
    have hlast : parseBody ([plainRow [t0, t1]] ++ tss.map plainRow, [t2]) =
        .again ([plainRow [t0, t1]] ++ tss.map plainRow ++ [plainRow [t2]], []) := by
      rw [parseBody_segment _ _ hend, parseSegment, h2]
      rfl
    refine ⟨t0, t1, tss, [[t2]], h0, h1, htss, by simp [h2], ?_⟩
    rw [ParseRows, (Reach.head horig hreach).returns_iff, returns_again_iff hlast]
    exact returns_of_done (by simp [parseBody])

/-! ## The symbol table -/

/-- A row that `BuildSymtab` passes over. -/
def Unlabelled (row : InstructionRow) : Prop :=
  row.label = none ∧ ∃ op, row.op = some op ∧
    (op.value = ".ORIG".toList → ∃ x, row.operands.first = some x)

theorem buildSymtabFrom_unlabelled {rows : List InstructionRow} (h : ∀ row ∈ rows, Unlabelled row)
    (offset : Nat) (symtab : List (List Char × Token)) :
    buildSymtabFrom offset symtab rows = .ok { rows, symtab } := by
  induction rows generalizing offset with
  | nil => rfl
  | cons row rows ih =>
    obtain ⟨hl, op, hop, horig⟩ := h row List.mem_cons_self
    have hrest := ih fun r hr => h r (List.mem_cons_of_mem _ hr)
    have hrow : ∃ o, symtabRow offset row = .ok (row, none, o) := by
      unfold symtabRow originOffset
      simp only [hop, deref_some, ok_bind, hl]
      split
      · next ho =>
        obtain ⟨x, hx⟩ := horig ho
        exact ⟨x.hexToU16.toNat + 2, by simp only [hx, deref_some, ok_bind]; rfl⟩
      · exact ⟨offset + 2, rfl⟩
    obtain ⟨o, ho⟩ := hrow
    rw [buildSymtabFrom, ho]
    simp only [ok_bind, Option.toList_none, List.nil_append, hrest o]
    rfl

theorem plainRow_unlabelled {t : Token} (ts : List Token) (ht : t.value ≠ ".ORIG".toList) :
    Unlabelled (plainRow (t :: ts)) :=
  ⟨rfl, t, rfl, fun h => absurd h ht⟩

theorem Instr.head_ne_orig (i : Instr) : ∃ w ws, i.tokens = w :: ws ∧ w ≠ ".ORIG".toList := by
  cases i with
  | alu op dr sr1 x => exact ⟨_, _, rfl, by cases op <;> decide⟩
  | not dr sr => exact ⟨_, _, rfl, by decide⟩
  | puts => exact ⟨_, _, rfl, by decide⟩
  | halt => exact ⟨_, _, rfl, by decide⟩

theorem Spells.unlabelled {i : Instr} {ts : List Token} (h : Spells i ts) :
    Unlabelled (plainRow ts) := by
  obtain ⟨w, ws, hw, hne⟩ := i.head_ne_orig
  unfold Spells at h
  rw [hw] at h
  obtain ⟨t, ts, rfl, rfl, -⟩ := List.map_eq_cons_iff.1 h
  exact plainRow_unlabelled ts hne

theorem unlabelled_instrs {is : List Instr} {tss : List (List Token)}
    (h : List.Forall₂ Spells is tss) : ∀ u ∈ tss, Unlabelled (plainRow u) := by
  induction h with
  | nil => simp
  | cons hu _ ih => exact List.forall_mem_cons.2 ⟨hu.unlabelled, ih⟩

/-! ## Encode -/

theorem classify_regText (r : Fin 4) : classify (regText r) = .Register := by
  revert r; decide +kernel

/-- The operand bits `ADD` and `AND` pack. -/
theorem encodeLast_operand (x : Operand) {t : Token} (ht : t.value = x.text) :
    encodeLast t = .ok (UInt16.ofNat x.bits) := by
  unfold encodeLast
  cases x with
  | reg r =>
    have htype : t.type = .Register := by rw [Token.type, ht]; exact classify_regText r
    rw [htype, if_neg (by decide), ht]
    exact stringToRegister_regText r
  | imm n h =>
    obtain ⟨-, hc, hbits⟩ := immText_facts n (Finset.mem_Icc.2 h)
    have htype : t.type = .NumberLiteral := by rw [Token.type, ht]; exact hc
    have hor : ∀ k : Fin 32, (0b100000 : UInt16) ||| UInt16.ofNat k = UInt16.ofNat (32 + k) := by
      decide
    rw [if_pos htype, Token.litValue, ht, show (Operand.imm n h).text = immText n from rfl, hbits]
    exact congrArg Except.ok (hor ⟨(n % 32).toNat, by omega⟩)

theorem alu_bits : ∀ (op : Bool) (dr sr1 : Fin 4) (b : Fin 64),
    (if op then OpCode.kAdd else OpCode.kAnd).bits ||| asDR (UInt16.ofNat dr) |||
        asSR1 (UInt16.ofNat sr1) ||| UInt16.ofNat b =
      UInt16.ofNat ((if op then 1 else 5) * 4096 + dr * 512 + sr1 * 64 + b) := by
  decide +kernel

theorem not_bits : ∀ dr sr : Fin 4,
    OpCode.kNot.bits ||| asDR (UInt16.ofNat dr) ||| asSR1 (UInt16.ofNat sr) ||| 0b111111 =
      UInt16.ofNat (9 * 4096 + dr * 512 + sr * 64 + 63) := by
  decide

def AluOp.opCode : AluOp → OpCode
  | add => .kAdd
  | and => .kAnd

theorem encodeRow_alu {op : AluOp} {row : InstructionRow} {t : Token} (ht : row.op = some t)
    (hv : t.value = op.text) : encodeRow row = (encodeRRX op.opCode row.operands).map some := by
  unfold encodeRow
  rw [ht]
  simp only [hv]
  cases op <;> rfl

/-- **The row of an instruction emits its word.** -/
theorem encodeRow_instr {i : Instr} {ts : List Token} (h : Spells i ts) :
    encodeRow (plainRow ts) = .ok (some i.word) := by
  unfold Spells at h
  cases i with
  | alu op dr sr1 x =>
    simp only [Instr.tokens, List.map_eq_cons_iff, List.map_eq_nil_iff] at h
    obtain ⟨t0, _, rfl, h0, t1, _, rfl, h1, t2, _, rfl, h2, t3, _, rfl, h3, rfl⟩ := h
    have hx := x.bits_lt
    have hbits := alu_bits (op == .add) dr sr1 ⟨x.bits, hx⟩
    have hrrx : encodeRRX op.opCode (plainRow [t0, t1, t2, t3]).operands = (do
        let dr ← stringToRegister t1.value
        let sr1 ← stringToRegister t2.value
        let last ← encodeLast t3
        return op.opCode.bits ||| asDR dr ||| asSR1 sr1 ||| last) := rfl
    rw [encodeRow_alu rfl h0, hrrx, h1, h2, stringToRegister_regText, stringToRegister_regText,
      encodeLast_operand x h3]
    cases op <;> exact congrArg (fun w => Except.ok (some w)) hbits
  | not dr sr =>
    simp only [Instr.tokens, List.map_eq_cons_iff, List.map_eq_nil_iff] at h
    obtain ⟨t0, _, rfl, h0, t1, _, rfl, h1, t2, _, rfl, h2, rfl⟩ := h
    have henc : encodeRow (plainRow [t0, t1, t2]) =
        (encodeNot (plainRow [t0, t1, t2]).operands).map some := by
      simp only [encodeRow, plainRow, List.getElem?_cons_zero, h0]
      rfl
    have hnot : encodeNot (plainRow [t0, t1, t2]).operands = (do
        let dr ← stringToRegister t1.value
        let sr ← stringToRegister t2.value
        return OpCode.kNot.bits ||| asDR dr ||| asSR1 sr ||| 0b111111) := rfl
    rw [henc, hnot, h1, h2, stringToRegister_regText, stringToRegister_regText]
    exact congrArg (fun w => Except.ok (some w)) (not_bits dr sr)
  | puts =>
    simp only [Instr.tokens, List.map_eq_cons_iff, List.map_eq_nil_iff] at h
    obtain ⟨t0, _, rfl, h0, rfl⟩ := h
    simp only [encodeRow, plainRow, List.getElem?_cons_zero, h0]
    rfl
  | halt =>
    simp only [Instr.tokens, List.map_eq_cons_iff, List.map_eq_nil_iff] at h
    obtain ⟨t0, _, rfl, h0, rfl⟩ := h
    simp only [encodeRow, plainRow, List.getElem?_cons_zero, h0]
    rfl

/-! ## The origin -/

theorem hexDigits_facts : ∀ c ∈ hexDigits,
    digitVal 16 c = some (hexDigit c) ∧ hexDigit c < 16 := by
  decide

theorem map_digitVal_hex {s : List Char} (hs : ∀ c ∈ s, c ∈ hexDigits) :
    s.map (digitVal 16) = (s.map hexDigit).map some := by
  rw [List.map_map]
  exact List.map_congr_left fun c hc => (hexDigits_facts c (hs c hc)).1

theorem ofDigits_hex (s : List Char) : ofDigits 16 (s.map hexDigit) = hexValue s := by
  unfold ofDigits hexValue
  rw [List.foldl_map]
  congr 1
  funext n c
  rw [Nat.mul_comm]

theorem hexValue_lt {s : List Char} (hs : ∀ c ∈ s, c ∈ hexDigits) :
    hexValue s < 16 ^ s.length := by
  have hdigits : ∀ d ∈ s.map hexDigit, d < 16 := by
    intro d hd
    obtain ⟨c, hc, rfl⟩ := List.mem_map.1 hd
    exact (hexDigits_facts c (hs c hc)).2
  have h := ofDigits_lt (by decide) hdigits
  rwa [ofDigits_hex, List.length_map] at h

/-- Up to four digits are read as the number they write. -/
theorem extractU16_hex {s : List Char} (hs : ∀ c ∈ s, c ∈ hexDigits)
    (hlen : 1 ≤ s.length ∧ s.length ≤ 4) : extractU16 16 s = UInt16.ofNat (hexValue s) := by
  have hlt : hexValue s < 16 ^ 4 :=
    Nat.lt_of_lt_of_le (hexValue_lt hs) (Nat.pow_le_pow_right (by decide) hlen.2)
  have hne : s ≠ [] := List.ne_nil_of_length_pos hlen.1
  rw [extractU16_eq hne (map_digitVal_hex hs), ofDigits_hex, Nat.min_eq_left (by omega)]

theorem encodeRow_origin (p : Program) {t0 t1 : Token} (h0 : t0.value = ".ORIG".toList)
    (h1 : t1.value = 'x' :: p.origin) :
    encodeRow (plainRow [t0, t1]) = .ok (some (UInt16.ofNat (hexValue p.origin))) := by
  have hv : t1.hexToU16 = UInt16.ofNat (hexValue p.origin) := by
    rw [Token.hexToU16, h1]
    exact extractU16_hex p.origin_digits p.origin_length
  rw [← hv]
  simp only [encodeRow, plainRow, List.getElem?_cons_zero, h0]
  rfl

theorem encodeRow_end {u : List Token} (h : u.map Token.value = [".END".toList]) :
    encodeRow (plainRow u) = .ok none := by
  obtain ⟨t, _, rfl, h0, -⟩ := List.map_eq_cons_iff.1 h
  simp only [encodeRow, plainRow, List.getElem?_cons_zero, h0]
  rfl

/-! ## The words of a program -/

theorem emitRows_append {rows rows' : List InstructionRow} {ws ws' : List UInt16}
    (h : emitRows rows = .ok ws) (h' : emitRows rows' = .ok ws') :
    emitRows (rows ++ rows') = .ok (ws ++ ws') := by
  induction rows generalizing ws with
  | nil => cases h; exact h'
  | cons row rows ih =>
    rw [emitRows, bind_eq_ok] at h
    obtain ⟨w, hw, h⟩ := h
    rw [bind_eq_ok] at h
    obtain ⟨ws1, h1, h⟩ := h
    cases h
    rw [List.cons_append, emitRows, hw, ok_bind, ih h1, List.append_assoc]
    rfl

theorem emitRows_instrs {is : List Instr} {tss : List (List Token)}
    (h : List.Forall₂ Spells is tss) :
    emitRows (tss.map plainRow) = .ok (is.map Instr.word) := by
  induction h with
  | nil => rfl
  | cons hu _ ih =>
    rw [List.map_cons, emitRows, encodeRow_instr hu, ok_bind, ih]
    rfl

theorem emitRows_ends {us : List (List Token)}
    (h : ∀ u ∈ us, u.map Token.value = [".END".toList]) :
    emitRows (us.map plainRow) = .ok [] := by
  induction us with
  | nil => rfl
  | cons u us ih =>
    rw [List.map_cons, emitRows, encodeRow_end (h u List.mem_cons_self), ok_bind,
      ih fun v hv => h v (List.mem_cons_of_mem _ hv)]
    rfl

theorem Program.length_image (p : Program) : p.image.length = p.instrs.length + 1 := by
  simp [Program.image]

/-- **The three passes compose.**  Every layout of a program is assembled into the
image of the program, and decoding the words gives the instructions back. -/
theorem assemble_layout (p : Program) (text : List Char) (h : Layout p.tokens text) :
    ∃ toks inset img, tokenize text = .ok toks ∧ Parse toks (.ok inset) ∧
      encode inset = .ok img ∧ img.words = p.image ∧ img.len = p.image.length ∧
      img.words.tail.map decode = p.instrs.map some := by
  obtain ⟨toks, htoks, hvals⟩ := tokenize_layout h p.tokens_isTokenText
  obtain ⟨t0, t1, tss, ends, h0, h1, htss, hends, hrows⟩ := parseRows_program p hvals
  have hunl : ∀ row ∈ plainRow [t0, t1] :: tss.map plainRow ++ ends.map plainRow,
      Unlabelled row := by
    intro row hrow
    simp only [List.cons_append, List.mem_cons, List.mem_append, List.mem_map] at hrow
    rcases hrow with rfl | ⟨u, hu, rfl⟩ | ⟨u, hu, rfl⟩
    · exact ⟨rfl, t0, rfl, fun _ => ⟨t1, rfl⟩⟩
    · exact unlabelled_instrs htss u hu
    · obtain ⟨t, _, rfl, ht, -⟩ := List.map_eq_cons_iff.1 (hends u hu)
      exact plainRow_unlabelled _ (by rw [ht]; decide)
  have hsym := buildSymtabFrom_unlabelled hunl 0 []
  have hemit : emitRows (plainRow [t0, t1] :: tss.map plainRow ++ ends.map plainRow) =
      .ok p.image := by
    have horig : emitRows [plainRow [t0, t1]] = .ok [UInt16.ofNat (hexValue p.origin)] := by
      rw [emitRows, encodeRow_origin p h0 h1]
      rfl
    have := emitRows_append horig (emitRows_append (emitRows_instrs htss) (emitRows_ends hends))
    simpa [Program.image] using this
  obtain ⟨img, himg⟩ := @encodeRows_of_emit _ .empty _ hemit (by
    have := p.fits
    rw [p.length_image]
    simp only [Image.empty]
    omega)
  obtain ⟨ws, hws, hwords, hlen⟩ := encodeRows_words himg
  rw [hemit] at hws
  cases hws
  rw [Image.words_empty, List.nil_append] at hwords
  refine ⟨toks, _, img, htoks, ⟨_, hrows, hsym.symm⟩, himg, hwords, ?_, ?_⟩
  · rw [hlen]; simp [Image.empty]
  · rw [hwords, Program.image, List.tail_cons, List.map_map]
    exact List.map_congr_left fun i _ => decode_word i

/-- `.ORIG x3000`, `ADD R0, R1, #-1`, `HALT`, `.END`. -/
def arithmetic : Program where
  origin := "3000".toList
  origin_digits := by decide
  origin_length := by decide
  instrs := [.alu .add 0 1 (.imm (-1) (by decide)), .halt]
  closed := true
  fits := by decide

def arithmeticText : List Char :=
  "; a comment\n\t.ORIG x3000 ;; another\nADD R0, R1, #-1\nHALT\n.END".toList

theorem arithmetic_layout : Layout arithmetic.tokens arithmeticText := by
  have hgap : Gap ";; another\n".toList :=
    @Gap.comment "; another".toList [] (by decide) .nil
  have hlead : Gap "; a comment\n\t".toList :=
    @Gap.comment " a comment".toList ['\t'] (by decide) (.blank (by decide) .nil)
  have hsp : Gap [' '] := .blank (by decide) .nil
  have h := @Layout.cons _ ".ORIG".toList ' ' _ _ hlead (by decide) <|
    @Layout.cons _ "x3000".toList ' ' _ _ .nil (by decide) <|
    @Layout.cons _ "ADD".toList ' ' _ _ hgap (by decide) <|
    @Layout.cons _ "R0".toList ',' _ _ .nil (by decide) <|
    @Layout.cons _ "R1".toList ',' _ _ hsp (by decide) <|
    @Layout.cons _ "#-1".toList '\n' _ _ hsp (by decide) <|
    @Layout.cons _ "HALT".toList '\n' _ _ .nil (by decide) <|
    @Layout.last _ ".END".toList .nil
  convert h using 1
  · decide
  · decide

theorem assemble_layout_arithmetic :
    ∃ toks inset img, tokenize arithmeticText = .ok toks ∧ Parse toks (.ok inset) ∧
      encode inset = .ok img ∧ img.words = arithmetic.image ∧ img.len = arithmetic.image.length ∧
      img.words.tail.map decode = arithmetic.instrs.map some :=
  assemble_layout arithmetic arithmeticText arithmetic_layout

end Tvm
