import Sprawl.Lib.Cxx
import Sprawl.Lib.Loop

/-!
# `psy::ds::MD5` (`ds/md5.h`, `ds/md5.cc`)

`Digest` as it is written: a `u32` counter over the padded message, sixteen words
per block, and 64 lines `FF(a, b, c, d, x[0], kS11, 0xd76aa478)`.  Such a line
changes the register it names first, so here it takes the names of the registers
and is a function on all four of them (`rounds` lists the lines in order).
-/

namespace Md5

open Cxx Loop

/-- `T[N]`; `Digest` has the constants inline and does not read it. -/
def kSine : List UInt32 :=
  [0xd76aa478, 0xe8c7b756, 0x242070db, 0xc1bdceee,
    0xf57c0faf, 0x4787c62a, 0xa8304613, 0xfd469501,
    0x698098d8, 0x8b44f7af, 0xffff5bb1, 0x895cd7be,
    0x6b901122, 0xfd987193, 0xa679438e, 0x49b40821,
    0xf61e2562, 0xc040b340, 0x265e5a51, 0xe9b6c7aa,
    0xd62f105d, 0x02441453, 0xd8a1e681, 0xe7d3fbc8,
    0x21e1cde6, 0xc33707d6, 0xf4d50d87, 0x455a14ed,
    0xa9e3e905, 0xfcefa3f8, 0x676f02d9, 0x8d2a4c8a,
    0xfffa3942, 0x8771f681, 0x6d9d6122, 0xfde5380c,
    0xa4beea44, 0x4bdecfa9, 0xf6bb4b60, 0xbebfbc70,
    0x289b7ec6, 0xeaa127fa, 0xd4ef3085, 0x04881d05,
    0xd9d4d039, 0xe6db99e5, 0x1fa27cf8, 0xc4ac5665,
    0xf4292244, 0x432aff97, 0xab9423a7, 0xfc93a039,
    0x655b59c3, 0x8f0ccc92, 0xffeff47d, 0x85845dd1,
    0x6fa87e4f, 0xfe2ce6e0, 0xa3014314, 0x4e0811a1,
    0xf7537e82, 0xbd3af235, 0x2ad7d2bb, 0xeb86d391]

def kA0 : UInt32 := 0x67452301
def kB0 : UInt32 := 0xefcdab89
def kC0 : UInt32 := 0x98badcfe
def kD0 : UInt32 := 0x10325476

def leftRotate (value shiftSize : UInt32) : UInt32 :=
  (value <<< shiftSize) ||| (value >>> (32 - shiftSize))

def kS11 : UInt32 := 7
def kS12 : UInt32 := 12
def kS13 : UInt32 := 17
def kS14 : UInt32 := 22
def kS21 : UInt32 := 5
def kS22 : UInt32 := 9
def kS23 : UInt32 := 14
def kS24 : UInt32 := 20
def kS31 : UInt32 := 4
def kS32 : UInt32 := 11
def kS33 : UInt32 := 16
def kS34 : UInt32 := 23
def kS41 : UInt32 := 6
def kS42 : UInt32 := 10
def kS43 : UInt32 := 15
def kS44 : UInt32 := 21

def F (x y z : UInt32) : UInt32 := (x &&& y) ||| ((~~~x) &&& z)
def G (x y z : UInt32) : UInt32 := (x &&& z) ||| (y &&& (~~~z))
def H (x y z : UInt32) : UInt32 := x ^^^ y ^^^ z
def I (x y z : UInt32) : UInt32 := y ^^^ (x ||| (~~~z))

/-! ## The rounds -/

/-- The names of the variables `a`, `b`, `c`, `d`. -/
inductive Reg
  | a | b | c | d
deriving DecidableEq, Repr

structure Regs where
  a : UInt32
  b : UInt32
  c : UInt32
  d : UInt32
deriving DecidableEq

def Regs.get (regs : Regs) : Reg → UInt32
  | .a => regs.a
  | .b => regs.b
  | .c => regs.c
  | .d => regs.d

def Regs.set (regs : Regs) (r : Reg) (v : UInt32) : Regs :=
  match r with
  | .a => { regs with a := v }
  | .b => { regs with b := v }
  | .c => { regs with c := v }
  | .d => { regs with d := v }

theorem Regs.get_set (regs : Regs) (r r' : Reg) (v : UInt32) :
    (regs.set r v).get r' = if r' = r then v else regs.get r' := by
  cases r <;> cases r' <;> rfl

/-- The body that `FF`, `GG`, `HH` and `II` share. -/
def apply (f : UInt32 → UInt32 → UInt32 → UInt32) (ra rb rc rd : Reg) (x s ac : UInt32)
    (regs : Regs) : Regs :=
  let v := regs.get ra + (f (regs.get rb) (regs.get rc) (regs.get rd) + x + ac)
  regs.set ra (leftRotate v s + regs.get rb)

def ff := apply F
def gg := apply G
def hh := apply H
def ii := apply I

/-- The 64 lines of a block. -/
def rounds (x : Vector UInt32 16) : List (Regs → Regs) :=
  [
    ff .a .b .c .d x[0] kS11 0xd76aa478,
    ff .d .a .b .c x[1] kS12 0xe8c7b756,
    ff .c .d .a .b x[2] kS13 0x242070db,
    ff .b .c .d .a x[3] kS14 0xc1bdceee,
    ff .a .b .c .d x[4] kS11 0xf57c0faf,
    ff .d .a .b .c x[5] kS12 0x4787c62a,
    ff .c .d .a .b x[6] kS13 0xa8304613,
    ff .b .c .d .a x[7] kS14 0xfd469501,
    ff .a .b .c .d x[8] kS11 0x698098d8,
    ff .d .a .b .c x[9] kS12 0x8b44f7af,
    ff .c .d .a .b x[10] kS13 0xffff5bb1,
    ff .b .c .d .a x[11] kS14 0x895cd7be,
    ff .a .b .c .d x[12] kS11 0x6b901122,
    ff .d .a .b .c x[13] kS12 0xfd987193,
    ff .c .d .a .b x[14] kS13 0xa679438e,
    ff .b .c .d .a x[15] kS14 0x49b40821,
    gg .a .b .c .d x[1] kS21 0xf61e2562,
    gg .d .a .b .c x[6] kS22 0xc040b340,
    gg .c .d .a .b x[11] kS23 0x265e5a51,
    gg .b .c .d .a x[0] kS24 0xe9b6c7aa,
    gg .a .b .c .d x[5] kS21 0xd62f105d,
    gg .d .a .b .c x[10] kS22 0x2441453,
    gg .c .d .a .b x[15] kS23 0xd8a1e681,
    gg .b .c .d .a x[4] kS24 0xe7d3fbc8,
    gg .a .b .c .d x[9] kS21 0x21e1cde6,
    gg .d .a .b .c x[14] kS22 0xc33707d6,
    gg .c .d .a .b x[3] kS23 0xf4d50d87,
    gg .b .c .d .a x[8] kS24 0x455a14ed,
    gg .a .b .c .d x[13] kS21 0xa9e3e905,
    gg .d .a .b .c x[2] kS22 0xfcefa3f8,
    gg .c .d .a .b x[7] kS23 0x676f02d9,
    gg .b .c .d .a x[12] kS24 0x8d2a4c8a,
    hh .a .b .c .d x[5] kS31 0xfffa3942,
    hh .d .a .b .c x[8] kS32 0x8771f681,
    hh .c .d .a .b x[11] kS33 0x6d9d6122,
    hh .b .c .d .a x[14] kS34 0xfde5380c,
    hh .a .b .c .d x[1] kS31 0xa4beea44,
    hh .d .a .b .c x[4] kS32 0x4bdecfa9,
    hh .c .d .a .b x[7] kS33 0xf6bb4b60,
    hh .b .c .d .a x[10] kS34 0xbebfbc70,
    hh .a .b .c .d x[13] kS31 0x289b7ec6,
    hh .d .a .b .c x[0] kS32 0xeaa127fa,
    hh .c .d .a .b x[3] kS33 0xd4ef3085,
    hh .b .c .d .a x[6] kS34 0x4881d05,
    hh .a .b .c .d x[9] kS31 0xd9d4d039,
    hh .d .a .b .c x[12] kS32 0xe6db99e5,
    hh .c .d .a .b x[15] kS33 0x1fa27cf8,
    hh .b .c .d .a x[2] kS34 0xc4ac5665,
    ii .a .b .c .d x[0] kS41 0xf4292244,
    ii .d .a .b .c x[7] kS42 0x432aff97,
    ii .c .d .a .b x[14] kS43 0xab9423a7,
    ii .b .c .d .a x[5] kS44 0xfc93a039,
    ii .a .b .c .d x[12] kS41 0x655b59c3,
    ii .d .a .b .c x[3] kS42 0x8f0ccc92,
    ii .c .d .a .b x[10] kS43 0xffeff47d,
    ii .b .c .d .a x[1] kS44 0x85845dd1,
    ii .a .b .c .d x[8] kS41 0x6fa87e4f,
    ii .d .a .b .c x[15] kS42 0xfe2ce6e0,
    ii .c .d .a .b x[6] kS43 0xa3014314,
    ii .b .c .d .a x[13] kS44 0x4e0811a1,
    ii .a .b .c .d x[4] kS41 0xf7537e82,
    ii .d .a .b .c x[11] kS42 0xbd3af235,
    ii .c .d .a .b x[2] kS43 0x2ad7d2bb,
    ii .b .c .d .a x[9] kS44 0xeb86d391]

/-! ## Words -/

/-- The loop of `ExtractChunk`, from one turn on, up to the end `stop`. -/
def extractChunk (message : List UInt8) (i stop count : Nat) (chunk : Vector UInt32 16) :
    Except Stop (Vector UInt32 16) :=
  if i < stop then do
    let m0 ← readAt message (i + 0)
    let m1 ← readAt message (i + 1)
    let m2 ← readAt message (i + 2)
    let m3 ← readAt message (i + 3)
    let word := m0.toUInt32 ||| m1.toUInt32 <<< 8 ||| m2.toUInt32 <<< 16 ||| m3.toUInt32 <<< 24
    if h : count < 16 then extractChunk message (i + 4) stop (count + 1) (chunk.set count word)
    else .error (.undefined .outOfBounds)
  else .ok chunk
termination_by stop - i

/-! ## Padding -/

def padMessage (message : List UInt8) : List UInt8 :=
  let msgSize : UInt64 := UInt64.ofNat message.length
  let numBlocks := ((msgSize + 8) >>> 6) + 1
  let totalLen := (numBlocks <<< 6) - msgSize
  let surplusBytes := totalLen - 8 - 1
  let msgSize64 := msgSize * 8
  let hi := (((0xffffffff00000000 : UInt64) &&& msgSize64) >>> 32).toUInt32
  let lo := ((0x00000000ffffffff : UInt64) &&& msgSize64).toUInt32
  message ++ [(0x80 : UInt8)] ++ List.replicate surplusBytes.toNat (0 : UInt8) ++
    [((0xff : UInt32) &&& lo).toUInt8,
      (((0xff00 : UInt32) &&& lo) >>> 8).toUInt8,
      (((0xff0000 : UInt32) &&& lo) >>> 16).toUInt8,
      (((0xff000000 : UInt32) &&& lo) >>> 24).toUInt8,
      ((0xff : UInt32) &&& hi).toUInt8,
      ((0xff : UInt32) &&& (hi >>> 8)).toUInt8,
      ((0xff : UInt32) &&& (hi >>> 16)).toUInt8,
      ((0xff : UInt32) &&& (hi >>> 24)).toUInt8]

/-! ## `Digest` -/

/-- The variables of the block loop. -/
structure DigestState where
  i : UInt32 := 0
  A0 : UInt32 := kA0
  B0 : UInt32 := kB0
  C0 : UInt32 := kC0
  D0 : UInt32 := kD0
  x : Vector UInt32 16 := Vector.replicate 16 0
deriving DecidableEq

/-- `a = A0` to `d = D0`. -/
def DigestState.regs (s : DigestState) : Regs := ⟨s.A0, s.B0, s.C0, s.D0⟩

/-- One turn of the block loop. -/
def digestBody (padded : List UInt8) (s : DigestState) :
    Turn DigestState (Except Stop (Vector UInt32 4)) :=
  if s.i.toNat < padded.length then
    match extractChunk padded s.i.toNat (s.i + 64).toNat 0 s.x with
    | .error e => .done (.error e)
    | .ok x =>
      let regs := (rounds x).foldl (fun regs line => line regs) s.regs
      .again
        { i := s.i + 64
          A0 := s.A0 + regs.a
          B0 := s.B0 + regs.b
          C0 := s.C0 + regs.c
          D0 := s.D0 + regs.d
          x }
  else .done (.ok #v[s.A0, s.B0, s.C0, s.D0])

/-- `Digest(message)` ends with `r`. -/
def Digest (message : List UInt8) (r : Except Stop (Vector UInt32 4)) : Prop :=
  Returns (digestBody (padMessage message)) {} r

/-! ## The digest as text -/

/-- `%02x`. -/
def hex02 (v : UInt32) : List Char :=
  let ds := Nat.toDigits 16 v.toNat
  List.replicate (2 - ds.length) '0' ++ ds

/-- The four bytes of one word, lowest first. -/
def wordToString (w : UInt32) : List Char :=
  hex02 (w &&& 0x000000ff) ++
    hex02 ((w &&& 0x0000ff00) >>> 8) ++
    hex02 ((w &&& 0x00ff0000) >>> 16) ++
    hex02 ((w &&& 0xff000000) >>> 24)

def digestToString (digest : Vector UInt32 4) : List Char :=
  wordToString digest[0] ++ wordToString digest[1] ++ wordToString digest[2] ++
    wordToString digest[3]

end Md5
