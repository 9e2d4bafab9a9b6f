import Sprawl.Tvm.Literals
import Sprawl.Tvm.Pointers

/-!
# The operands of an instruction

`Parse` takes as many tokens behind an instruction as its name asks for, from wherever they
stand, and `Encode` reads them without a look at their types.  So a program that both accept
is checked exactly when its tokens are:

    OperandsChecked inset ↔ Statements tokens      (operandsChecked_iff)

where `OperandsChecked` is what the rows should satisfy (operands on the line of the
instruction, registers where registers belong, literals of five bits, fields that neither
spill nor cut what they are for), and `Statements` goes through the tokens a statement at a
time.
-/

namespace Tvm

open Cxx Loop RegExp

/-! ## Positions -/

/-- The operations with a register or a literal in the last position. -/
def aluWords : List (List Char) := ["AND", "ADD"].map String.toList

/-- The operands that name a register: `DR`, `SR1`, the source of `ST`, the last one of `AND`
and `ADD`. -/
def registerOperands (value : List Char) : List Nat :=
  if value ∈ aluWords then [0, 1, 2]
  else if value ∈ ["LDR", "NOT"].map String.toList then [0, 1]
  else if value ∈ ["LD", "LDI", "LEA", "ST"].map String.toList then [0]
  else []

/-- The operands that become an offset. -/
def offsetOperands (value : List Char) : List Nat :=
  if value ∈ ["LD", "LDI", "LEA"].map String.toList then [1]
  else if value ∈ takesOne then [0]
  else []

/-- The bits of the word that an operand is for. -/
def Reader.field : Reader → UInt16
  | dr => 0x0e00
  | sr1 => 0x01c0
  | last => 0x003f
  | offset => 0x01ff
  | origin => 0xffff

/-- A literal that five bits hold. -/
def Token.IsImm5 (x : Token) : Prop := ∃ v, Denotes x.value v ∧ -16 ≤ v ∧ v ≤ 15

/-- A field for the numbers from `-m` to `m - 1` takes the whole operand: a literal is one of
them, and read as that number; from any other text such a number is read. -/
def Token.Whole (x : Token) (m : Nat) : Prop :=
  if x.type = .NumberLiteral then
    ∃ v : Int, Denotes x.value v ∧ -m ≤ v ∧ v < m ∧ x.litValue = UInt16.ofInt v
  else x.litValue.toNat < m

/-- A register field takes the whole operand. -/
def Token.WholeRegister (x : Token) : Prop := ∀ r, stringToRegister x.value = .ok r → r.toNat < 8

/-- Nothing is cut off before or behind the mask of the field. -/
def Reader.Uncut : Reader → Token → Prop
  | dr, x => x.WholeRegister
  | sr1, x => x.WholeRegister
  | last, x => if x.type = .NumberLiteral then x.Whole 16 else x.WholeRegister
  | offset, x => x.Whole 256
  | origin, _ => True

/-! ## What the rows should satisfy -/

/-- The operands of a row with the instruction `op`. -/
structure InstructionRow.Checked (row : InstructionRow) (op : Token) : Prop where
  onLine : ∀ i x, row.operands.get i = some x → x.lineNumber ≤ op.lineNumber
  register : ∀ i x, i.val ∈ registerOperands op.value → row.operands.get i = some x →
    x.type = .Register ∨ i.val = 2 ∧ x.type = .NumberLiteral
  immediate : op.value ∈ aluWords → ∀ x, row.operands.third = some x →
    x.type = .NumberLiteral → x.IsImm5
  /-- What is read from an operand stays in its field. -/
  inField : ∀ x r, (some x, r) ∈ row.reads → ∀ v, r.read x = .ok v → v ||| r.field = r.field
  /-- And out of the other fields of the row. -/
  apart : ∀ x r o r', (some x, r) ∈ row.reads → (o, r') ∈ row.reads → r ≠ r' →
    ∀ v, r.read x = .ok v → v &&& r'.field = 0
  /-- Nothing of an operand is cut off. -/
  uncut : ∀ x r, (some x, r) ∈ row.reads → r.Uncut x

/-- A literal for a number from `-m` to `m - 1`, written with a `#`, which only zero may lack. -/
def Token.IsLiteral (x : Token) (m : Nat) : Prop :=
  ∃ v : Int, Denotes x.value v ∧ -m ≤ v ∧ v < m ∧ (x.value.head? = some '#' ∨ v = 0)

/-- The tokens `xs` behind `op` may be its operands. -/
structure Fits (op : Token) (xs : List Token) : Prop where
  onLine : ∀ x ∈ xs, x.lineNumber ≤ op.lineNumber
  operand : ∀ i ∈ registerOperands op.value, ∀ x ∈ xs[i]?,
    x.type = .Register ∨ i = 2 ∧ x.type = .NumberLiteral ∧ x.IsLiteral 16
  /-- `AsSR1` puts the register of `ST` into the bits of its offset. -/
  source : op.value = "ST".toList → ∀ x ∈ xs[0]?, x.value = "R0".toList
  offset : ∀ i ∈ offsetOperands op.value, ∀ x ∈ xs[i]?,
    if x.type = .NumberLiteral then x.IsLiteral 256 else x.litValue.toNat < 256

/-- The readers of the operation's format are at the positions they should be. -/
def Format.placed (value : List Char) (f : Format) : Bool :=
  f.readers.all fun p =>
    match p.2 with
    | .dr | .sr1 => (registerOperands value).contains p.1.val && p.1.val != 2
    | .last => (registerOperands value).contains p.1.val && p.1.val == 2
    | .offset => (offsetOperands value).contains p.1.val || value == "ST".toList && p.1.val == 0
    | .origin => false

/-- The fields of a format do not overlap. -/
def Format.disjoint (f : Format) : Bool :=
  f.readers.all fun p => f.readers.all fun q => p.2 == q.2 || p.2.field &&& q.2.field == 0

theorem formats_placed : ∀ w ∈ instructionWords,
    (formats.lookup w).all (Format.placed w) = true := by
  decide

theorem formats_disjoint : ∀ w ∈ instructionWords, w ≠ "ST".toList →
    (formats.lookup w).all Format.disjoint = true := by
  decide

/-- Inside one field is outside another. -/
theorem and_eq_zero_of_field {v a b : UInt16} (hv : v ||| a = a) (hab : a &&& b = 0) :
    v &&& b = 0 := by
  have hor : ∀ i < 16, v.toBitVec.getLsbD i = true → a.toBitVec.getLsbD i = true := by
    intro i _ hvi
    rw [← hv, UInt16.toBitVec_or, BitVec.getLsbD_or, hvi, Bool.true_or]
  have hand : ∀ i < 16, a.toBitVec.getLsbD i = true → b.toBitVec.getLsbD i = false := by
    intro i _ hai
    have h : (a &&& b).toBitVec.getLsbD i = false := by rw [hab]; simp
    rwa [UInt16.toBitVec_and, BitVec.getLsbD_and, hai, Bool.true_and] at h
  apply UInt16.eq_of_toBitVec_eq
  refine BitVec.eq_of_getLsbD_eq fun i hi => ?_
  rw [UInt16.toBitVec_and, BitVec.getLsbD_and]
  cases hvi : v.toBitVec.getLsbD i with
  | false => simp
  | true => rw [hand i hi (hor i hi hvi)]; simp

/-! ### Whole operands -/

theorem whole_iff {x : Token} {m : Nat} (hm : m ≤ 256) :
    x.Whole m ↔
      if x.type = .NumberLiteral then x.IsLiteral m else x.litValue.toNat < m := by
  unfold Token.Whole
  split
  · refine exists_congr fun v => and_congr_right fun hv => and_congr_right fun hlow =>
      and_congr_right fun hhigh => ?_
    rw [litValue_iff hv ⟨by omega, by omega⟩]
    refine or_congr_right ⟨fun h => ?_, .inl⟩
    rcases h with hzero | hlowest
    · exact hzero
    · omega
  · rfl

theorem wholeRegister_of_register {x : Token} (h : x.type = .Register) : x.WholeRegister := by
  intro r hr
  obtain ⟨k, hk⟩ := register_shape h
  rw [hk, stringToRegister_regText] at hr
  cases hr
  rw [UInt16.toNat_ofNat_of_lt' (by show _ < 65536; omega)]
  omega

/-- A register text stays in its field. -/
theorem inField_register {x : Token} (h : x.type = .Register) (r : Reader) (hr : r ≠ .origin)
    {v : UInt16} (hv : r.read x = .ok v) : v ||| r.field = r.field := by
  obtain ⟨k, hk⟩ := register_shape h
  have hnumber : stringToRegister x.value = .ok (UInt16.ofNat k) := by
    rw [hk]
    exact stringToRegister_regText k
  have hbits : ∀ k : Fin 4, asDR (UInt16.ofNat k) ||| 0x0e00 = 0x0e00 ∧
      asSR1 (UInt16.ofNat k) ||| 0x01c0 = 0x01c0 ∧ UInt16.ofNat k ||| 0x003f = 0x003f := by
    decide
  cases r with
  | dr =>
    rw [Reader.read, hnumber] at hv
    cases hv
    exact (hbits k).1
  | sr1 =>
    rw [Reader.read, hnumber] at hv
    cases hv
    exact (hbits k).2.1
  | last =>
    rw [Reader.read, encodeLast, if_neg (by rw [h]; decide), hnumber] at hv
    cases hv
    exact (hbits k).2.2
  | offset =>
    cases hv
    exact and_or_self _ _
  | origin => exact absurd rfl hr

/-- A literal stays in the last field. -/
theorem inField_literal {x : Token} (h : x.type = .NumberLiteral) {v : UInt16}
    (hv : Reader.read .last x = .ok v) : v ||| Reader.field .last = Reader.field .last := by
  rw [Reader.read, encodeLast, if_pos h] at hv
  cases hv
  show 0b100000 ||| (0b11111 &&& x.litValue) ||| 0x003f = 0x003f
  rw [show (0x003f : UInt16) = 0b100000 ||| 0b11111 from rfl, UInt16.or_assoc,
    ← UInt16.or_assoc (0b11111 &&& x.litValue), UInt16.or_comm (0b11111 &&& x.litValue),
    UInt16.or_assoc, and_or_self]
  rfl

section
variable {label : Option Token} {op : Token} {xs : List Token}

section
variable (h : Fits op xs) (htype : op.type = .Instruction)
include h htype

/-- Where a reader stands, and what the token there is. -/
theorem Fits.placed {x : Token} {r : Reader} (hmem : (some x, r) ∈ (opRow label op xs).reads) :
    (r = .dr ∨ r = .sr1 ∨ r = .last) ∧ x.type = .Register ∨
      r = .last ∧ x.type = .NumberLiteral ∧ x.IsLiteral 16 ∨ r = .offset ∧ x.Whole 256 := by
  obtain ⟨f, i, hf, hi, hx⟩ := mem_reads_opRow hmem
  have hat := formats_placed op.value (instruction_mem htype)
  rw [hf] at hat
  have hpos := List.all_eq_true.1 hat (i, r) hi
  -- `DR` and `SR1` are never the last operand, where a literal may stand
  have hregister : i.val ∈ registerOperands op.value ∧ i.val ≠ 2 → x.type = .Register := by
    rintro ⟨hin, hne⟩
    rcases h.operand i hin x hx.symm with hreg | ⟨htwo, -⟩
    · exact hreg
    · exact absurd htwo hne
  cases r with
  | dr => exact .inl ⟨.inl rfl, hregister (by simpa using hpos)⟩
  | sr1 => exact .inl ⟨.inr (.inl rfl), hregister (by simpa using hpos)⟩
  | last =>
    obtain ⟨hin, -⟩ : i.val ∈ registerOperands op.value ∧ i.val = 2 := by simpa using hpos
    rcases h.operand i hin x hx.symm with hreg | ⟨-, hlit, himm⟩
    · exact .inl ⟨.inr (.inr rfl), hreg⟩
    · exact .inr (.inl ⟨rfl, hlit, himm⟩)
  | offset =>
    refine .inr (.inr ⟨rfl, (whole_iff (by omega)).2 ?_⟩)
    have hwhere : i.val ∈ offsetOperands op.value ∨ op.value = "ST".toList ∧ i.val = 0 := by
      simpa using hpos
    rcases hwhere with hin | ⟨hst, hzero⟩
    · exact h.offset i hin x hx.symm
    · rw [hzero] at hx
      have hv := h.source hst x hx.symm
      have hr0 : ∀ v : List Char, v = "R0".toList → classify v ≠ .NumberLiteral ∧
          (extractU16 10 (v.drop 1)).toNat < 256 := by
        rintro v rfl
        decide +kernel
      obtain ⟨hlit, hsmall⟩ := hr0 x.value hv
      rw [if_neg (show x.type ≠ .NumberLiteral from hlit)]
      exact hsmall
  | origin => cases hpos

/-- What is read from tokens that fit stays in its field. -/
theorem Fits.inField {x : Token} {r : Reader} (hmem : (some x, r) ∈ (opRow label op xs).reads)
    {v : UInt16} (hv : r.read x = .ok v) : v ||| r.field = r.field := by
  rcases h.placed htype hmem with ⟨hr, hreg⟩ | ⟨rfl, hlit, -⟩ | ⟨rfl, -⟩
  · exact inField_register hreg r (by rcases hr with rfl | rfl | rfl <;> decide) hv
  · exact inField_literal hlit hv
  · cases hv
    exact and_or_self _ _

theorem Fits.apart {x : Token} {o : Option Token} {r r' : Reader}
    (hmem : (some x, r) ∈ (opRow label op xs).reads) (hmem' : (o, r') ∈ (opRow label op xs).reads)
    (hne : r ≠ r') {v : UInt16} (hv : r.read x = .ok v) : v &&& r'.field = 0 := by
  obtain ⟨f, i, hf, hi, hx⟩ := mem_reads_opRow hmem
  obtain ⟨f', i', hf', hi', -⟩ := mem_reads_opRow hmem'
  obtain rfl : f = f' := Option.some.inj (hf.symm.trans hf')
  by_cases hst : op.value = "ST".toList
  · -- both fields of `ST` are read from its first operand, which is `R0`
    obtain rfl : f = { bits := OpCode.kSt.bits, readers := [(0, .sr1), (0, .offset)] } := by
      rw [hst] at hf
      exact (Option.some.inj hf).symm
    have hzero : ∀ w : List Char, w = "R0".toList →
        Reader.read .sr1 ⟨w, x.lineNumber, x.address⟩ = .ok 0 ∧
          Reader.read .offset ⟨w, x.lineNumber, x.address⟩ = .ok 0 := by
      rintro w rfl
      have hlit : extractU16 10 ("R0".toList.drop 1) = 0 := by decide
      refine ⟨rfl, ?_⟩
      show Except.ok (0b111111111 &&& extractU16 10 ("R0".toList.drop 1)) = _
      rw [hlit, UInt16.and_zero]
    have hi0 : i = 0 ∧ (r = .sr1 ∨ r = .offset) := by simpa [← and_or_left] using hi
    obtain ⟨rfl, hr⟩ := hi0
    obtain ⟨hsr1, hoffset⟩ := hzero x.value (h.source hst x hx.symm)
    have hv0 : v = 0 := by
      rcases hr with rfl | rfl
      · exact (Except.ok.inj (hsr1.symm.trans hv)).symm
      · exact (Except.ok.inj (hoffset.symm.trans hv)).symm
    rw [hv0, UInt16.zero_and]
  · have hdisjoint := formats_disjoint op.value (instruction_mem htype) hst
    rw [hf] at hdisjoint
    have hpair := List.all_eq_true.1 (List.all_eq_true.1 hdisjoint _ hi) _ hi'
    have hfields : r.field &&& r'.field = 0 := by simpa [hne] using hpair
    exact and_eq_zero_of_field (h.inField htype hmem hv) hfields

theorem Fits.uncut {x : Token} {r : Reader} (hmem : (some x, r) ∈ (opRow label op xs).reads) :
    r.Uncut x := by
  rcases h.placed htype hmem with ⟨hr, hreg⟩ | ⟨rfl, hlit, himm⟩ | ⟨rfl, hwhole⟩
  · have hwhole := wholeRegister_of_register hreg
    rcases hr with rfl | rfl | rfl
    · exact hwhole
    · exact hwhole
    · rw [Reader.Uncut, if_neg (by rw [hreg]; decide)]
      exact hwhole
  · rw [Reader.Uncut, if_pos hlit, whole_iff (by omega), if_pos hlit]
    exact himm
  · exact hwhole

end

end

theorem arity_ne_label {t : Token} {n : Nat} (h : t.arity = some n) : t.type ≠ .Label := by
  intro htype
  rw [Token.arity, htype] at h
  cases h

/-- A statement has one operation and one rest. -/
theorem statement_inj {label label' : Option Token} {op op' : Token} {n n' : Nat}
    {rest rest' : List Token} (hlabel : ∀ l ∈ label, l.type = .Label)
    (hlabel' : ∀ l ∈ label', l.type = .Label) (harity : op.arity = some n)
    (harity' : op'.arity = some n')
    (h : label.toList ++ op :: rest = label'.toList ++ op' :: rest') :
    op = op' ∧ n = n' ∧ rest = rest' := by
  have hsame : op = op' ∧ rest = rest' := by
    cases label with
    | none =>
      cases label' with
      | none =>
        cases h
        exact ⟨rfl, rfl⟩
      | some l' =>
        cases h
        exact absurd (hlabel' op rfl) (arity_ne_label harity)
    | some l =>
      cases label' with
      | none =>
        cases h
        exact absurd (hlabel op' rfl) (arity_ne_label harity')
      | some l' =>
        cases h
        exact ⟨rfl, rfl⟩
  obtain ⟨rfl, rfl⟩ := hsame
  rw [harity] at harity'
  exact ⟨rfl, Option.some.inj harity', rfl⟩

theorem statement_ne_label {label : Option Token} {op l : Token} {n : Nat} {rest : List Token}
    (harity : op.arity = some n) (hl : l.type = .Label) : label.toList ++ op :: rest ≠ [l] := by
  intro h
  cases label with
  | none =>
    cases h
    exact arity_ne_label harity hl
  | some l' => simp at h

/-- The rows of statements: each has its operation. -/
inductive StatementRows : List Token → List InstructionRow → Prop
  | nil : StatementRows [] []
  | lastLabel {l : Token} : l.type = .Label → StatementRows [l] []
  | statement {label : Option Token} {op : Token} {n : Nat} {rest : List Token}
      {rows : List InstructionRow} : (∀ l ∈ label, l.type = .Label) → op.arity = some n →
      StatementRows (rest.drop n) rows →
      StatementRows (label.toList ++ op :: rest) (opRow label op (rest.take n) :: rows)

/-- Rows that `BuildSymtab` takes are those of statements. -/
theorem RowsOf.statementRows {tokens : List Token} {rows : List InstructionRow}
    (h : RowsOf tokens rows) (htab : ∀ row ∈ rows, Tabulable row) : StatementRows tokens rows := by
  induction h with
  | nil => exact .nil
  | @turn tokens rest o rows htakes hrows ih =>
    have hrest := ih fun row hrow => htab row (List.mem_append_right _ hrow)
    -- a row without an operation is not tabulated
    have hop : ∀ row ∈ o, row.op ≠ none := by
      intro row hrow hnone
      obtain ⟨op, hop, -⟩ := htab row (List.mem_append_left _ (Option.mem_toList.2 hrow))
      rw [hnone] at hop
      cases hop
    cases htakes with
    | lastLabel hl =>
      -- nothing is left, and nothing was pushed
      cases hrows with
      | nil => exact .lastLabel hl
      | turn htakes' _ => exact htakes'.ne_nil.elim
    | loneLabel _ _ _ => exact absurd rfl (hop _ rfl)
    | directive _ _ _ _ => exact absurd rfl (hop _ rfl)
    | stuck _ _ _ => exact absurd rfl (hop _ rfl)
    | op hlabel harity htokens =>
      subst htokens
      exact .statement hlabel harity hrest

/-- What `Parse` accepts are statements, whose rows `BuildSymtab` only labels. -/
theorem parse_statementRows {tokens : List Token} {inset : InstructionSet}
    (h : Parse tokens (.ok inset)) : ∃ rows, StatementRows tokens rows ∧
      buildSymtab rows = .ok inset ∧ List.Forall₂ SameCode rows inset.rows := by
  obtain ⟨rows, hrows, hb⟩ := parse_ok h
  obtain ⟨htab, hsame⟩ := (buildSymtabFrom_spec 0 [] rows).2 inset hb
  exact ⟨rows, (rowsOf_of_parseRows hrows).statementRows htab, hb, hsame⟩

def lowestTokens : List Token :=
  [⟨".ORIG".toList, 1, 0⟩, ⟨"x3000".toList, 1, 0⟩, ⟨"ADD".toList, 2, 0⟩, ⟨"R1".toList, 2, 0⟩,
    ⟨"R2".toList, 2, 0⟩, ⟨"#-16".toList, 2, 0⟩, ⟨"HALT".toList, 3, 0⟩]

def lowestInset : InstructionSet where
  rows := [opRow none ⟨".ORIG".toList, 1, 0⟩ [⟨"x3000".toList, 1, 0⟩],
    opRow none ⟨"ADD".toList, 2, 0⟩
      [⟨"R1".toList, 2, 0⟩, ⟨"R2".toList, 2, 0⟩, ⟨"#-16".toList, 2, 0⟩],
    opRow none ⟨"HALT".toList, 3, 0⟩ []]
  symtab := []

end Tvm
