import Sprawl.Lib.Cxx
import Sprawl.Lib.RegExp

/-!
# Tokens of the assembler (`tvm/tvm.h`, `tvm/tvm.cc`)

`Token::Classify` tries eight whole-text regular expressions in a fixed order;
the type it finds never changes afterwards, so here it is a function of the
text (`Token.type`).  `opcode_` is set beside it and read by nobody but the
tests.
-/

namespace Tvm

open Cxx RegExp

/-! ## Operation codes -/

inductive OpCode
  | kAdd | kAnd
  | kBr | kBrn | kBrz | kBrp | kBrnp | kBrnz | kBrzp | kBrnzp
  | kJmp | kLd | kLdi | kLdr | kLea | kSt | kNot
  | kTrapGetc | kTrapOut | kTrapPuts | kTrapIn | kTrapPutsp | kTrapHalt
  | kRet | kIllegal
deriving DecidableEq, Repr

/-- `static_cast<u16>(op)`. -/
def OpCode.bits : OpCode → UInt16
  | kAdd => 0x1000
  | kAnd => 0x5000
  | kBr => 0
  | kBrn => 0b0000100000000000
  | kBrz => 0b0000010000000000
  | kBrp => 0b0000001000000000
  | kBrnp => 0b0000101000000000
  | kBrnz => 0b0000110000000000
  | kBrzp => 0b0000011000000000
  | kBrnzp => 0b0000111000000000
  | kJmp => 0x4000
  | kLd => 0x2000
  | kLdi => 0xA000
  | kLdr => 0x6000
  | kLea => 0xE000
  | kSt => 0x3000
  | kNot => 0x9000
  | kTrapGetc => 0xF020
  | kTrapOut => 0xF021
  | kTrapPuts => 0xF022
  | kTrapIn => 0xF023
  | kTrapPutsp => 0xF024
  | kTrapHalt => 0xF025
  | kRet => 0b1100000111000000
  | kIllegal => 0xD000

def asSR1 (sr1 : UInt16) : UInt16 := sr1 <<< 6

def asDR (dr : UInt16) : UInt16 := dr <<< 9

/-! ## The regular expressions -/

def upper : List Char := "ABCDEFGHIJKLMNOPQRSTUVWXYZ".toList
def lower : List Char := "abcdefghijklmnopqrstuvwxyz".toList
def digits : List Char := "0123456789".toList
/-- `[:punct:]` in the C locale. -/
def punct : List Char := "!\"#$%&'()*+,-./:;<=>?@[\\]^_`\x7b|\x7d~".toList

/-- `^\.[A-Z][A-Z0-9]+$` -/
def kSegment : RegularExpression Char :=
  .char '.' * (oneOf upper * some1 (oneOf (upper ++ digits)))

def instructionWords : List (List Char) :=
  ["AND", "ADD", "BR", "BRn", "BRzp", "BRnz", "BRp", "BRz", "BRnp", "HALT", "JMP",
    "LD", "LDI", "LEA", "LDR", "PUTS", "ST", "NOT"].map String.toList

def kInstruction : RegularExpression Char := anyWord instructionWords

/-- `^R[0-3]$` -/
def kRegister : RegularExpression Char := .char 'R' * oneOf "0123".toList

/-- `^[A-QS-Z_][A-Z0-9_]+$` -/
def kLabel : RegularExpression Char :=
  oneOf "ABCDEFGHIJKLMNOPQSTUVWXYZ_".toList * some1 (oneOf (upper ++ digits ++ ['_']))

/-- `^#?[-]?(0|[1-9][0-9]*)$` -/
def kNumberLiteral : RegularExpression Char :=
  opt (.char '#') * (opt (.char '-') *
    (.char '0' + oneOf "123456789".toList * .star (oneOf digits)))

/-- `^x[A-Fa-f0-9]+$` -/
def kHexNumber : RegularExpression Char :=
  .char 'x' * some1 (oneOf ("ABCDEFabcdef".toList ++ digits))

/-- `^[,.:;]$` -/
def kPunct : RegularExpression Char := oneOf ",.:;".toList

/-- `^"[A-Za-z0-9[:punct:][:blank:]]*"$` -/
def kString : RegularExpression Char :=
  .char '"' * (.star (oneOf (upper ++ lower ++ digits ++ punct ++ [' ', '\t'])) * .char '"')

/-! ## Tokens -/

inductive Token.Type
  | Segment | Instruction | Register
  | Label | NumberLiteral | HexNumber
  | Punct | String | Unknown
deriving DecidableEq, Repr

/-- The tests of `Token::Classify`, in its order. -/
def classify (value : List Char) : Token.Type :=
  if fullMatch kSegment value then .Segment
  else if fullMatch kInstruction value then .Instruction
  else if fullMatch kRegister value then .Register
  else if fullMatch kHexNumber value then .HexNumber
  else if fullMatch kLabel value then .Label
  else if fullMatch kNumberLiteral value then .NumberLiteral
  else if fullMatch kPunct value then .Punct
  else if fullMatch kString value then .String
  else .Unknown

/-- The expression a type stands for. -/
def Token.Type.pattern : Token.Type → Option (RegularExpression Char)
  | Segment => some kSegment
  | Instruction => some kInstruction
  | Register => some kRegister
  | Label => some kLabel
  | NumberLiteral => some kNumberLiteral
  | HexNumber => some kHexNumber
  | Punct => some kPunct
  | String => some kString
  | Unknown => none

/-- A text matches the expression of its type. -/
theorem classify_pattern {v : List Char} {r : RegularExpression Char}
    (h : (classify v).pattern = some r) : v ∈ r.matches' := by
  rw [← fullMatch_iff]
  unfold classify at h
  split_ifs at h <;> first
    | (cases h; assumption)
    | cases h

structure Token where
  value : List Char
  lineNumber : Nat
  /-- Set by `BuildSymtab` for the labels it records. -/
  address : UInt16 := 0
deriving DecidableEq, Repr

def Token.type (t : Token) : Token.Type := classify t.value

/-- `value_.substr(1)` as a number in base 16. -/
def Token.hexToU16 (t : Token) : UInt16 := extractU16 16 (t.value.drop 1)

def Token.litValue (t : Token) : UInt16 := extractU16 10 (t.value.drop 1)

def Token.u16Value (t : Token) : UInt16 := extractU16 10 t.value

/-- The second character as a digit: `regstr[1] - 0x30`, cut to 16 bits. -/
def stringToRegister (regstr : List Char) : Except Stop UInt16 :=
  match regstr with
  | _ :: c :: _ => .ok (UInt16.ofInt (signedChar c - 0x30))
  | _ => .error .abort

end Tvm
