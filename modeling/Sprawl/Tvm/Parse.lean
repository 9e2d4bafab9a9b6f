import Sprawl.Lib.Loop
import Sprawl.Tvm.Tokenize

/-!
# `Parse` and `BuildSymtab`

`Parse` walks over the tokens with one iterator; each turn of its loop builds one
row from the tokens it takes and pushes it.  A row holds pointers to tokens; no
two rows point to one token, so here a row holds the tokens themselves, and
`BuildSymtab`, which writes the address into the label it records, returns the
rows it has changed.

An instruction that no branch of the loop names (`JMP`, `LDI`) takes no token:
`Parse` is given by `Loop.Returns`, and then it returns nothing.

The loop runs in step on tokens that keep their types, and their texts apart from the labels
(`parseRows_map_iff`).
-/

namespace Tvm

open Cxx Loop

/-- `Token* operands_[3]`. -/
abbrev Operands := Vector (Option Token) 3

def Operands.first (operands : Operands) : Option Token := operands[0]
def Operands.second (operands : Operands) : Option Token := operands[1]
def Operands.third (operands : Operands) : Option Token := operands[2]

structure InstructionRow where
  label : Option Token := none
  op : Option Token := none
  operands : Operands := Vector.replicate 3 none
deriving DecidableEq, Repr

structure InstructionSet where
  rows : List InstructionRow
  /-- `symtab_`, newest entry of a label first. -/
  symtab : List (List Char × Token)
deriving DecidableEq, Repr

/-- `inset.symtab_[label]`, when it is there. -/
def InstructionSet.lookup (inset : InstructionSet) (label : List Char) : Option Token :=
  inset.symtab.lookup label

/-! ## Taking tokens into a row -/

/-- The row under construction and the tokens the iterator has not passed. -/
structure Cursor where
  row : InstructionRow := {}
  it : List Token
deriving DecidableEq, Repr

def Cursor.assignLabel (k : Cursor) : Int × Cursor :=
  match k.it with
  | [] => (-1, k)
  | t :: it => (0, { row := { k.row with label := some t }, it })

def Cursor.assignOp (k : Cursor) : Int × Cursor :=
  match k.it with
  | [] => (-1, k)
  | t :: it => (0, { row := { k.row with op := some t }, it })

def Cursor.assignOperand (k : Cursor) (pos : Nat) : Int × Cursor :=
  match k.it with
  | [] => (-1, k)
  | t :: it =>
    if h : pos ≤ 2 then
      (0, { row := { k.row with operands := k.row.operands.set pos (some t) }, it })
    else (-2, k)

/-! ## One turn of the loop -/

def takesThree : List (List Char) := ["AND", "ADD", "LDR"].map String.toList
def takesNone : List (List Char) := ["HALT", "PUTS"].map String.toList
def takesOne : List (List Char) :=
  ["BR", "BRn", "BRzp", "BRnz", "BRp", "BRz", "BRnp"].map String.toList
def takesTwo : List (List Char) := ["LD", "LEA", "NOT", "ST"].map String.toList

/-- `parse_segment:` -/
def parseSegment (k : Cursor) (t : Token) : Cursor :=
  if t.value = ".END".toList then k.assignOp.2
  else if t.value ∈ [".ORIG", ".STRINGZ", ".BLKW"].map String.toList then
    (k.assignOp.2.assignOperand 0).2
  else
    -- LABEL OP
    (k.assignLabel.2.assignOperand 0).2

/-- `parse_instruction:`; the operands of `|` are evaluated from the left, and
their value is not looked at. -/
def parseInstruction (k : Cursor) (t : Token) : Cursor :=
  if t.value ∈ takesThree then
    (((k.assignOp.2.assignOperand 0).2.assignOperand 1).2.assignOperand 2).2
  else if t.value ∈ takesNone then k.assignOp.2
  else if t.value ∈ takesOne then (k.assignOp.2.assignOperand 0).2
  else if t.value ∈ takesTwo then ((k.assignOp.2.assignOperand 0).2.assignOperand 1).2
  else k

/-- The two `goto`s behind a label, on the next token `u`. -/
def parseLabelled (k : Cursor) (u : Token) : Cursor :=
  match u.type with
  | .Instruction => parseInstruction k u
  | .Segment => parseSegment k u
  | _ => k

/-- The `switch` on the first token `t`: the row to push, if one is pushed, and
the tokens left. -/
def parseRow (t : Token) (it : List Token) : Except Stop (Option InstructionRow × List Token) :=
  let k : Cursor := { it := t :: it }
  match t.type with
  | .Segment => let k := parseSegment k t; .ok (some k.row, k.it)
  | .Label =>
    let k := k.assignLabel.2
    match k.it with
    | [] => .ok (none, [])
    | u :: _ => let k := parseLabelled k u; .ok (some k.row, k.it)
  | .Instruction => let k := parseInstruction k t; .ok (some k.row, k.it)
  | _ => .error .abort

/-- One turn of `while (it != tokens.end())`. -/
def parseBody (s : List InstructionRow × List Token) :
    Turn (List InstructionRow × List Token) (Except Stop (List InstructionRow)) :=
  match s.2 with
  | [] => .done (.ok s.1)
  | t :: it =>
    match parseRow t it with
    | .error e => .done (.error e)
    | .ok (none, rest) => .again (s.1, rest)
    | .ok (some row, rest) => .again (s.1 ++ [row], rest)

/-! ## The symbol table -/

/-- The `.ORIG` at the head of a turn: the offset it sets, or the one before. -/
def originOffset (row : InstructionRow) (offset : Nat) : Except Stop Nat := do
  let op ← deref row.op
  if op.value = ".ORIG".toList then
    let x ← deref row.operands.first
    return x.hexToU16.toNat
  else return offset

theorem originOffset_eq_ok {row : InstructionRow} {offset base : Nat} :
    originOffset row offset = .ok base ↔ ∃ op, row.op = some op ∧
      (op.value = ".ORIG".toList ∧
          (∃ x, row.operands.first = some x ∧ x.hexToU16.toNat = base) ∨
        op.value ≠ ".ORIG".toList ∧ offset = base) := by
  unfold originOffset
  rw [bind_eq_ok]
  refine exists_congr fun op => ?_
  rw [deref_eq_ok]
  refine and_congr_right fun _ => ?_
  by_cases ho : op.value = ".ORIG".toList
  · rw [if_pos ho, bind_eq_ok]
    constructor
    · rintro ⟨x, hx, hbase⟩
      cases hbase
      exact .inl ⟨ho, x, deref_eq_ok.1 hx, rfl⟩
    · rintro (⟨-, x, hx, rfl⟩ | ⟨hne, -⟩)
      · exact ⟨x, deref_eq_ok.2 hx, rfl⟩
      · exact absurd ho hne
  · rw [if_neg ho]
    constructor
    · intro hbase
      cases hbase
      exact .inr ⟨ho, rfl⟩
    · rintro (⟨ho', -⟩ | ⟨-, rfl⟩)
      · exact absurd ho' ho
      · rfl

/-- How far a recorded row moves the offset. -/
def labelledSize (op operand : Token) : Nat :=
  if op.value = ".STRINGZ".toList then operand.value.length
  else if op.value = ".BLKW".toList then operand.u16Value.toNat
  else 0

/-- One turn of `BuildSymtab`: the row (with its label's address set when it is
recorded), the entry for the table, and the next offset. -/
def symtabRow (offset : Nat) (row : InstructionRow) :
    Except Stop (InstructionRow × Option (List Char × Token) × Nat) := do
  let offset ← originOffset row offset
  match row.label, row.op, row.operands.first with
  | some label, some op, some operand =>
    let label := { label with address := offset.toUInt16 }
    return ({ row with label := some label }, some (label.value, label),
      offset + labelledSize op operand)
  | _, _, _ => return (row, none, offset + 2)

/-- `BuildSymtab` from one row on. -/
def buildSymtabFrom (offset : Nat) (symtab : List (List Char × Token)) :
    List InstructionRow → Except Stop InstructionSet
  | [] => .ok { rows := [], symtab }
  | row :: rows => do
    let (row, entry, offset) ← symtabRow offset row
    let inset ← buildSymtabFrom offset (entry.toList ++ symtab) rows
    return { inset with rows := row :: inset.rows }

/-- What a turn of `BuildSymtab` on the first row leaves to the rest. -/
theorem buildSymtabFrom_cons {row : InstructionRow} {rows : List InstructionRow} {offset : Nat}
    {symtab : List (List Char × Token)} {inset : InstructionSet}
    (h : buildSymtabFrom offset symtab (row :: rows) = .ok inset) :
    ∃ row' entry o inset', symtabRow offset row = .ok (row', entry, o) ∧
      buildSymtabFrom o (entry.toList ++ symtab) rows = .ok inset' ∧
      inset = { inset' with rows := row' :: inset'.rows } := by
  rw [buildSymtabFrom, bind_eq_ok] at h
  obtain ⟨⟨row', entry, o⟩, hrow, h⟩ := h
  rw [bind_eq_ok] at h
  obtain ⟨inset', hrest, h⟩ := h
  exact ⟨row', entry, o, inset', hrow, hrest, (Except.ok.inj h).symm⟩

/-- `BuildSymtab` on the rows of the loop, with `symtab_` still empty. -/
def buildSymtab (rows : List InstructionRow) : Except Stop InstructionSet :=
  buildSymtabFrom 0 [] rows

/-- The row loop of `Parse` on `tokens` ends with `r`. -/
def ParseRows (tokens : List Token) (r : Except Stop (List InstructionRow)) : Prop :=
  Returns parseBody ([], tokens) r

/-- `Parse(tokens)` ends with `r`. -/
def Parse (tokens : List Token) (r : Except Stop InstructionSet) : Prop :=
  ∃ rows, ParseRows tokens rows ∧ r = rows.bind buildSymtab

theorem Parse.unique {tokens : List Token} {r r' : Except Stop InstructionSet}
    (h : Parse tokens r) (h' : Parse tokens r') : r = r' := by
  obtain ⟨rows, hr, rfl⟩ := h
  obtain ⟨rows', hr', rfl⟩ := h'
  rw [hr.unique hr']

/-- A set that is returned is what `BuildSymtab` makes of the rows. -/
theorem parse_ok {tokens : List Token} {inset : InstructionSet} (h : Parse tokens (.ok inset)) :
    ∃ rows, ParseRows tokens (.ok rows) ∧ buildSymtab rows = .ok inset := by
  obtain ⟨r, hr, hb⟩ := h
  cases r with
  | error e => cases hb
  | ok rows => exact ⟨rows, hr, hb.symm⟩

/-! ## The tokens under a map -/

/-- A map under which the tokens keep their types and, apart from the labels, their texts. -/
structure KeepsKinds (f : Token → Token) : Prop where
  type : ∀ t, (f t).type = t.type
  value : ∀ t, t.type ≠ .Label → (f t).value = t.value

def InstructionRow.map (f : Token → Token) (row : InstructionRow) : InstructionRow where
  label := row.label.map f
  op := row.op.map f
  operands := row.operands.map (Option.map f)

def Cursor.map (f : Token → Token) (k : Cursor) : Cursor where
  row := k.row.map f
  it := k.it.map f

/-- A turn's row and the tokens left. -/
def mapTurn (f : Token → Token) (r : Option InstructionRow × List Token) :
    Option InstructionRow × List Token :=
  (r.1.map (InstructionRow.map f), r.2.map f)

section
variable {f : Token → Token}

theorem Cursor.assignLabel_map (k : Cursor) : (k.map f).assignLabel.2 = k.assignLabel.2.map f := by
  obtain ⟨row, it⟩ := k
  cases it <;> rfl

theorem Cursor.assignOp_map (k : Cursor) : (k.map f).assignOp.2 = k.assignOp.2.map f := by
  obtain ⟨row, it⟩ := k
  cases it <;> rfl

theorem Cursor.assignOperand_map (k : Cursor) (pos : Nat) :
    ((k.map f).assignOperand pos).2 = (k.assignOperand pos).2.map f := by
  obtain ⟨row, it⟩ := k
  cases it with
  | nil => rfl
  | cons t it =>
    unfold Cursor.assignOperand Cursor.map InstructionRow.map
    by_cases h : pos ≤ 2
    · simp [h, Vector.map_set]
    · simp [h]

theorem parseSegment_map (k : Cursor) {t t' : Token} (h : t'.value = t.value) :
    parseSegment (k.map f) t' = (parseSegment k t).map f := by
  unfold parseSegment
  rw [h]
  split_ifs
  · exact k.assignOp_map
  · rw [k.assignOp_map, Cursor.assignOperand_map]
  · rw [k.assignLabel_map, Cursor.assignOperand_map]

theorem parseInstruction_map (k : Cursor) {t t' : Token} (h : t'.value = t.value) :
    parseInstruction (k.map f) t' = (parseInstruction k t).map f := by
  unfold parseInstruction
  rw [h]
  split_ifs
  · rw [k.assignOp_map, Cursor.assignOperand_map, Cursor.assignOperand_map,
      Cursor.assignOperand_map]
  · exact k.assignOp_map
  · rw [k.assignOp_map, Cursor.assignOperand_map]
  · rw [k.assignOp_map, Cursor.assignOperand_map, Cursor.assignOperand_map]
  · rfl

theorem parseLabelled_map (hf : KeepsKinds f) (k : Cursor) (u : Token) :
    parseLabelled (k.map f) (f u) = (parseLabelled k u).map f := by
  unfold parseLabelled
  rw [hf.type u]
  cases hu : u.type with
  | Instruction => exact parseInstruction_map k (hf.value u (by rw [hu]; decide))
  | Segment => exact parseSegment_map k (hf.value u (by rw [hu]; decide))
  | _ => rfl

theorem cursor_map (it : List Token) : Cursor.map f { it } = { it := it.map f } := by
  simp [Cursor.map, InstructionRow.map]

theorem parseRow_map (hf : KeepsKinds f) (t : Token) (it : List Token) :
    parseRow (f t) (it.map f) = (parseRow t it).map (mapTurn f) := by
  have hk : ({ it := f t :: it.map f } : Cursor) = Cursor.map f { it := t :: it } := by
    rw [cursor_map, List.map_cons]
  unfold parseRow
  rw [hk, hf.type t]
  cases ht : t.type with
  | Segment =>
    simp only [parseSegment_map _ (hf.value t (by rw [ht]; decide))]
    rfl
  | Instruction =>
    simp only [parseInstruction_map _ (hf.value t (by rw [ht]; decide))]
    rfl
  | Label =>
    simp only [Cursor.assignLabel_map]
    cases it with
    | nil => rfl
    | cons u it =>
      have h := parseLabelled_map hf (Cursor.assignLabel { it := t :: u :: it }).2 u
      simp only [Cursor.assignLabel, Cursor.map, List.map_cons] at h ⊢
      rw [h]
      rfl
  | _ => rfl

/-- The row loop on the tokens under the map builds the rows under the map, and stops when it
does on the tokens. -/
theorem parseRows_map_iff (hf : KeepsKinds f) {tokens : List Token}
    {r' : Except Stop (List InstructionRow)} :
    ParseRows (tokens.map f) r' ↔
      ∃ r, ParseRows tokens r ∧ r.map (List.map (InstructionRow.map f)) = r' := by
  have hbody : ∀ s : List InstructionRow × List Token,
      parseBody (s.1.map (InstructionRow.map f), s.2.map f) =
        (parseBody s).map (fun s => (s.1.map (InstructionRow.map f), s.2.map f))
          (Except.map (List.map (InstructionRow.map f))) := by
    rintro ⟨rows, it⟩
    cases it with
    | nil => rfl
    | cons t it =>
      unfold parseBody
      simp only [List.map_cons, parseRow_map hf]
      cases parseRow t it with
      | error e => rfl
      | ok p =>
        obtain ⟨o, rest⟩ := p
        cases o with
        | none => rfl
        | some row => simp [Except.map, mapTurn, Turn.map]
  exact returns_map_iff (s := ([], tokens)) _ _ hbody

end

/-- `Parse` on at most `fuel` turns, to run it. -/
def parseFuel (fuel : Nat) (tokens : List Token) : Option (Except Stop InstructionSet) :=
  (iterate parseBody fuel ([], tokens)).map fun rows => rows.bind buildSymtab

theorem parse_of_fuel {fuel : Nat} {tokens : List Token} {r : Except Stop InstructionSet}
    (h : parseFuel fuel tokens = some r) : Parse tokens r := by
  unfold parseFuel at h
  obtain ⟨rows, hrows, rfl⟩ := Option.map_eq_some_iff.1 h
  exact ⟨rows, ⟨fuel, hrows⟩, rfl⟩

end Tvm
