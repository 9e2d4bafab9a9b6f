import Sprawl.Lib.Cxx
import Sprawl.Lib.Loop

/-!
# The Markdown-- lexer (`mdm/lexer.cc`, `mdm/token.h`)

`Lexer::Process` as a `Loop` over an input stream that can be read and repositioned.
`get` at the end of the text sets `failbit` and leaves its argument as it is, and
from then on neither `get` nor `seekg` does anything; a position goes through
`int` on its way back into `seekg`.
-/

namespace Mdm

open Cxx Loop

/-! ## Tokens -/

inductive Token.Type
  | kUnknown | kID | kWord | kPunct | kSymbol
  | kNewline | kWhitespace | kCodeDelimiter
  | kHeader1 | kHeader2 | kHeader3
deriving DecidableEq, Repr

structure Token where
  type : Token.Type := .kUnknown
  token : List Char
  lineNumber : Nat
  column : Nat
  isFirstOnNewline : Bool := false
deriving DecidableEq, Repr

/-! ## Characters -/

def kPunct : List Char := "\x7b\x7d.,;:\\\"!?-()[]<>\x60".toList
def kSymbol : List Char := "@#$^&*|\\/".toList
def kWhitespace : List Char := " \t\r".toList

/-- The backtick. -/
abbrev tick : Char := '\x60'

def isPunct (c : Char) : Bool := kPunct.contains c
def isSymbol (c : Char) : Bool := kSymbol.contains c
def isNewline (c : Char) : Bool := c = '\n'
def isWhitespace (c : Char) : Bool := kWhitespace.contains c

/-! ## The input stream -/

/-- A position in the text, and whether the stream is still good. -/
structure Input where
  pos : Nat := 0
  good : Bool := true
deriving DecidableEq, Repr

section
variable (text : List Char)

/-- `input_.get(c)`: the stream and `c` afterwards. -/
def Input.get (input : Input) (c : Char) : Input × Char :=
  if input.good then
    match text[input.pos]? with
    | some d => ({ input with pos := input.pos + 1 }, d)
    | none => ({ input with good := false }, c)
  else (input, c)

/-- `input_.seekg(p)`. -/
def Input.seekg (input : Input) (p : Int) : Input :=
  if input.good then
    if 0 ≤ p ∧ p ≤ text.length then { input with pos := p.toNat }
    else { input with good := false }
  else input

/-- `int(original) + 1`. -/
def nextPos (original : Nat) : Except Stop Int :=
  let i := Int.bmod original (2 ^ 32)
  if i = 2 ^ 31 - 1 then .error (.undefined .signedOverflow) else .ok (i + 1)

/-! ## One turn -/

/-- The variables of `Process`. -/
structure State where
  input : Input := {}
  c : Char := '\x00'
  ss : List Char := []
  linecount : Nat := 0
  colcount : Nat := 0
  tokens : List Token := []
deriving DecidableEq, Repr

def State.push (s : State) (type : Token.Type) (token : List Char) : State :=
  { s with tokens := s.tokens ++
      [{ type, token, lineNumber := s.linecount, column := s.colcount }] }

/-- The word in front of a character that ends words. -/
def State.flushWord (s : State) : State :=
  if s.ss ≠ [] ∧ (isSymbol s.c ∨ isPunct s.c ∨ isWhitespace s.c ∨ isNewline s.c) then
    { s.push .kWord s.ss with ss := [] }
  else s

/-- `generic_punct:` -/
def State.genericPunct (s : State) : State :=
  { s.push .kPunct (s.ss ++ [s.c]) with ss := [] }

/-- The branch of a backtick.  (`c == EOF` is never true: at the end `get` leaves `c`
alone.) -/
def State.backtick (s : State) : Except Stop State := do
  let original := s.input.pos
  let prev := s.c
  let (input, c) := s.input.get text s.c
  if c ≠ tick then
    return { s with input := input.seekg text original, c := prev }.genericPunct
  let (input, c) := input.get text c
  if c ≠ tick then
    return { s with input := input.seekg text (← nextPos original), c := prev }.genericPunct
  return { s with input, c }.push .kCodeDelimiter [tick, tick, tick]

/-- The branch of a `#`. -/
def State.header (s : State) : Except Stop State := do
  let original := s.input.pos
  let prev := s.c
  let (input, c) := s.input.get text s.c
  if c ≠ '#' then
    return { s with input := input.seekg text original, c := prev }.push .kHeader1 "#".toList
  let (input, c) := input.get text c
  if c ≠ '#' then
    return { s with input := input.seekg text (← nextPos original), c := prev }.push
      .kHeader2 "##".toList
  return { s with input, c }.push .kHeader3 "###".toList

/-- The body of the loop, behind `input_.get(c)`. -/
def State.turn (s : State) : Except Stop State :=
  let s := { s with colcount := s.colcount + 1 }.flushWord
  if isWhitespace s.c then .ok s
  else if isNewline s.c then
    let s := { s with linecount := s.linecount + 1 }
    .ok { s.push .kNewline "\n".toList with ss := [] }
  else if isPunct s.c then
    if s.c = tick then s.backtick text else .ok s.genericPunct
  else if isSymbol s.c then
    if s.c = '#' then s.header text
    else .ok { s.push .kSymbol (s.ss ++ [s.c]) with ss := [] }
  else .ok { s with ss := s.ss ++ [s.c] }

/-- The token behind the loop. -/
def State.last (s : State) : List Token :=
  match s.ss with
  | [] => s.tokens
  | c :: _ =>
    let type :=
      if isPunct c then .kPunct
      else if isSymbol c then .kSymbol
      else if isNewline c then .kNewline
      else .kWord
    (s.push type s.ss).tokens

/-- One turn of `while (input_.get(c))`. -/
def processBody (s : State) : Turn State (Except Stop (List Token)) :=
  let (input, c) := s.input.get text s.c
  let s := { s with input, c }
  if s.input.good then
    match s.turn text with
    | .error e => .done (.error e)
    | .ok s => .again s
  else .done (.ok s.last)

/-- `Process()` on the text ends with `r`. -/
def Process (r : Except Stop (List Token)) : Prop := Returns (processBody text) {} r

end

/-! ## The writer (`mdm/parser.cc`) -/

/-- `Parser::Write`. -/
def write (tokens : List Token) : List Char :=
  tokens.flatMap fun e => e.token ++ if e.type = .kNewline then [] else [' ']

end Mdm
