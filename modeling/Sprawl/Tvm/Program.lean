import Sprawl.Tvm.Encode

/-!
# A fragment of LC-3: programs, their texts, their words

What the assembler is for, stated apart from its code: straight-line programs of
`ADD`, `AND`, `NOT`, `PUTS` and `HALT` after an `.ORIG` (`Program`), the texts
that write such a program down (`Layout`), and the 16-bit word of each
instruction (`Instr.word`), which `decode` takes apart again
(`decode_word`).
-/

namespace Tvm

open Cxx

/-! ## Instructions -/

/-- The last operand of `ADD` and `AND`. -/
inductive Operand
  | reg (r : Fin 4)
  | imm (n : Int) (h : -16 ≤ n ∧ n ≤ 15)
deriving DecidableEq

inductive AluOp
  | add | and
deriving DecidableEq

inductive Instr
  | alu (op : AluOp) (dr sr1 : Fin 4) (x : Operand)
  | not (dr sr : Fin 4)
  | puts
  | halt
deriving DecidableEq

def regText (r : Fin 4) : List Char := ['R', "0123".toList[r]]

/-- `#n` in decimal. -/
def immText (n : Int) : List Char := '#' :: (toString n).toList

def Operand.text : Operand → List Char
  | reg r => regText r
  | imm n _ => immText n

def AluOp.text : AluOp → List Char
  | add => "ADD".toList
  | and => "AND".toList

/-- The tokens of an instruction. -/
def Instr.tokens : Instr → List (List Char)
  | alu op dr sr1 x => [op.text, regText dr, regText sr1, x.text]
  | not dr sr => ["NOT".toList, regText dr, regText sr]
  | puts => ["PUTS".toList]
  | halt => ["HALT".toList]

/-! ## Words -/

/-- Bit 5 and the five bits below it. -/
def Operand.bits : Operand → Nat
  | reg r => r
  | imm n _ => 32 + (n % 32).toNat

def AluOp.code : AluOp → Nat
  | add => 1
  | and => 5

/-- The LC-3 word: opcode in bits 15..12, `DR` in 11..9, `SR1` in 8..6. -/
def Instr.word : Instr → UInt16
  | alu op dr sr1 x => UInt16.ofNat (op.code * 4096 + dr * 512 + sr1 * 64 + x.bits)
  | not dr sr => UInt16.ofNat (9 * 4096 + dr * 512 + sr * 64 + 63)
  | puts => 0xF022
  | halt => 0xF025

/-- The value of five bits in two's complement. -/
def signExtend5 (b : Nat) : Int := if b % 32 < 16 then (b % 32 : Nat) else (b % 32 : Nat) - 32

theorem signExtend5_range (b : Nat) : -16 ≤ signExtend5 b ∧ signExtend5 b ≤ 15 := by
  unfold signExtend5
  split <;> omega

/-- A register field that names one of the four registers. -/
def decodeReg (b : Nat) : Option (Fin 4) := if h : b % 8 < 4 then some ⟨b % 8, h⟩ else none

def decodeOperand (w : Nat) : Option Operand :=
  if w / 32 % 2 = 1 then some (.imm (signExtend5 w) (signExtend5_range w))
  else (decodeReg w).map .reg

def decodeAlu (op : AluOp) (w : Nat) : Option Instr := do
  return .alu op (← decodeReg (w / 512)) (← decodeReg (w / 64)) (← decodeOperand w)

/-- The fields of a word. -/
def decode (word : UInt16) : Option Instr :=
  let w := word.toNat
  if w / 4096 = 1 then decodeAlu .add w
  else if w / 4096 = 5 then decodeAlu .and w
  else if w / 4096 = 9 then do return .not (← decodeReg (w / 512)) (← decodeReg (w / 64))
  else if w = 0xF022 then some .puts
  else if w = 0xF025 then some .halt
  else none

theorem decodeReg_add (r : Fin 4) (k : Nat) : decodeReg (8 * k + r) = some r := by
  have h : (8 * k + (r : Nat)) % 8 = r := by omega
  unfold decodeReg
  rw [dif_pos (by omega)]
  simp only [h]

theorem signExtend5_imm (n : Int) (h : -16 ≤ n ∧ n ≤ 15) (k : Nat) :
    signExtend5 (32 * k + (n % 32).toNat) = n := by
  unfold signExtend5
  split <;> omega

theorem decodeOperand_bits (x : Operand) (k : Nat) :
    decodeOperand (64 * k + x.bits) = some x := by
  unfold decodeOperand
  cases x with
  | reg r =>
    have hb : (Operand.reg r).bits = r := rfl
    rw [if_neg (by rw [hb]; omega), hb, show 64 * k + (r : Nat) = 8 * (8 * k) + r by omega,
      decodeReg_add]
    rfl
  | imm n h =>
    have hb : (Operand.imm n h).bits = 32 + (n % 32).toNat := rfl
    rw [if_pos (by rw [hb]; omega)]
    congr 2
    rw [hb, show 64 * k + (32 + (n % 32).toNat) = 32 * (2 * k + 1) + (n % 32).toNat by omega]
    exact signExtend5_imm n h _

theorem Operand.bits_lt (x : Operand) : x.bits < 64 := by
  cases x with
  | reg r => have hb : (Operand.reg r).bits = r := rfl; omega
  | imm n h => have hb : (Operand.imm n h).bits = 32 + (n % 32).toNat := rfl; omega

theorem decodeAlu_word (op : AluOp) (dr sr1 : Fin 4) (x : Operand) (k : Nat) :
    decodeAlu op (k * 4096 + dr * 512 + sr1 * 64 + x.bits) = some (.alu op dr sr1 x) := by
  have hx := x.bits_lt
  have h1 : decodeReg ((k * 4096 + dr * 512 + sr1 * 64 + x.bits) / 512) = some dr := by
    rw [show (k * 4096 + (dr : Nat) * 512 + sr1 * 64 + x.bits) / 512 = 8 * k + dr by omega]
    exact decodeReg_add dr k
  have h2 : decodeReg ((k * 4096 + dr * 512 + sr1 * 64 + x.bits) / 64) = some sr1 := by
    rw [show (k * 4096 + (dr : Nat) * 512 + sr1 * 64 + x.bits) / 64 =
      8 * (8 * k + dr) + sr1 by omega]
    exact decodeReg_add sr1 _
  have h3 : decodeOperand (k * 4096 + dr * 512 + sr1 * 64 + x.bits) = some x := by
    rw [show k * 4096 + (dr : Nat) * 512 + sr1 * 64 + x.bits =
      64 * (k * 64 + dr * 8 + sr1) + x.bits by omega]
    exact decodeOperand_bits x _
  unfold decodeAlu
  rw [h1, h2, h3]
  rfl

/-- Decoding gives the instruction back. -/
theorem decode_word (i : Instr) : decode i.word = some i := by
  cases i with
  | alu op dr sr1 x =>
    have hx := x.bits_lt
    cases op with
    | add =>
      have hw : (Instr.word (.alu .add dr sr1 x)).toNat =
          1 * 4096 + dr * 512 + sr1 * 64 + x.bits :=
        UInt16.toNat_ofNat_of_lt' (by show _ < 65536; simp only [AluOp.code]; omega)
      unfold decode
      simp only [hw]
      rw [if_pos (by omega)]
      exact decodeAlu_word .add dr sr1 x 1
    | and =>
      have hw : (Instr.word (.alu .and dr sr1 x)).toNat =
          5 * 4096 + dr * 512 + sr1 * 64 + x.bits :=
        UInt16.toNat_ofNat_of_lt' (by show _ < 65536; simp only [AluOp.code]; omega)
      unfold decode
      simp only [hw]
      rw [if_neg (by omega), if_pos (by omega)]
      exact decodeAlu_word .and dr sr1 x 5
  | not dr sr => revert dr sr; decide
  | puts => rfl
  | halt => rfl

/-! ## Programs and their texts -/

def hexDigits : List Char := "0123456789abcdefABCDEF".toList

structure Program where
  /-- The digits after `.ORIG x`. -/
  origin : List Char
  origin_digits : ∀ c ∈ origin, c ∈ hexDigits
  origin_length : 1 ≤ origin.length ∧ origin.length ≤ 4
  instrs : List Instr
  /-- Whether the text closes with `.END`. -/
  closed : Bool
  fits : instrs.length < kImageSize

/-- The tokens of a program. -/
def Program.tokens (p : Program) : List (List Char) :=
  ".ORIG".toList :: ('x' :: p.origin) :: p.instrs.flatMap Instr.tokens ++
    if p.closed then [".END".toList] else []

/-- The value of a hexadecimal digit. -/
def hexDigit (c : Char) : Nat :=
  if c ≤ '9' then c.toNat - '0'.toNat
  else if c ≤ 'F' then c.toNat - 'A'.toNat + 10
  else c.toNat - 'a'.toNat + 10

/-- The number hexadecimal digits write. -/
def hexValue (s : List Char) : Nat := s.foldl (fun n c => 16 * n + hexDigit c) 0

/-- The image of a program: the origin, then a word for each instruction. -/
def Program.image (p : Program) : List UInt16 :=
  UInt16.ofNat (hexValue p.origin) :: p.instrs.map Instr.word

/-- Spaces, tabs, commas, newlines and comments. -/
inductive Gap : List Char → Prop
  | nil : Gap []
  | blank {c s} : IsBlank c → Gap s → Gap (c :: s)
  | comment {body s} : '\n' ∉ body → Gap s → Gap (';' :: body ++ '\n' :: s)

/-- The text is the tokens in order, in some layout: a blank stands behind every
token but the last one, so that no comment touches a token, and the rest of each
gap is free.  A comment at the very end needs no newline. -/
inductive Layout : List (List Char) → List Char → Prop
  | nil {gap} : Gap gap → Layout [] gap
  | comment {gap body} : Gap gap → '\n' ∉ body → Layout [] (gap ++ ';' :: body)
  | last {gap tok} : Gap gap → Layout [tok] (gap ++ tok)
  | cons {gap tok c toks text} : Gap gap → IsBlank c → Layout toks text →
      Layout (tok :: toks) (gap ++ (tok ++ c :: text))

end Tvm
