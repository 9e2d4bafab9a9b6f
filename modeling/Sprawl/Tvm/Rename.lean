import Sprawl.Tvm.Reads

/-!
# Renaming labels

A renaming replaces the text of every label token and keeps labels labels.
`Parse` runs in step on the renamed tokens (`parseRows_rename`), and the rows it
builds are the renamed rows, so what a renaming does to the image is what it
does to the word of each row.

A word is the bitwise or of what its `Reader`s read from the operands
(`encodeRow_reads`).  What a reader gets from a label stays inside its `mask`, and
four renamings (`probes`) together reach every bit of the mask; so no renaming
changes the word exactly when the row sets those bits anyway (`LabelsAbsorbed`;
with no label among the operands that are read, there are none).
-/

namespace Tvm

open Cxx Loop RegExp

/-! ## Renamings -/

/-- A consistent renaming: different labels stay different, a label stays a label. -/
structure Renaming (ρ : List Char → List Char) : Prop where
  injective : Function.Injective ρ
  label : ∀ v, classify v = .Label → classify (ρ v) = .Label

def Token.rename (ρ : List Char → List Char) (t : Token) : Token :=
  if t.type = .Label then { t with value := ρ t.value } else t

def InstructionRow.rename (ρ : List Char → List Char) : InstructionRow → InstructionRow :=
  InstructionRow.map (Token.rename ρ)

variable {ρ : List Char → List Char}

theorem Token.rename_of_ne {t : Token} (h : t.type ≠ .Label) : t.rename ρ = t := if_neg h

theorem Token.type_rename (hρ : Renaming ρ) (t : Token) : (t.rename ρ).type = t.type := by
  unfold Token.rename
  split
  · next h => rw [h]; exact hρ.label t.value h
  · rfl

theorem Token.value_rename_of_label {t : Token} (h : t.type = .Label) :
    (t.rename ρ).value = ρ t.value := by
  rw [Token.rename, if_pos h]

theorem Renaming.keepsKinds (hρ : Renaming ρ) : KeepsKinds (Token.rename ρ) where
  type := Token.type_rename hρ
  value _ h := by rw [Token.rename_of_ne h]

/-- The row loop on renamed tokens builds the renamed rows. -/
theorem parseRows_rename (hρ : Renaming ρ) {tokens : List Token}
    {r : Except Stop (List InstructionRow)} (h : ParseRows tokens r) :
    ParseRows (tokens.map (Token.rename ρ)) (r.map (List.map (InstructionRow.rename ρ))) :=
  (parseRows_map_iff hρ.keepsKinds).2 ⟨r, h, rfl⟩

/-! ## The symbol table does not reach the image -/

/-- A row on which `BuildSymtab` does not use a null pointer. -/
def Tabulable (row : InstructionRow) : Prop :=
  ∃ op, row.op = some op ∧ (op.value = ".ORIG".toList → ∃ x, row.operands.first = some x)

/-- The rows differ in the labels only. -/
def SameCode (row row' : InstructionRow) : Prop :=
  row.op = row'.op ∧ row.operands = row'.operands

theorem symtabRow_spec (offset : Nat) (row : InstructionRow) :
    (Tabulable row → ∃ row' entry o, symtabRow offset row = .ok (row', entry, o)) ∧
      ∀ row' entry o, symtabRow offset row = .ok (row', entry, o) →
        Tabulable row ∧ SameCode row row' := by
  have horig : (Tabulable row → ∃ o, originOffset row offset = .ok o) ∧
      ∀ o, originOffset row offset = .ok o → Tabulable row := by
    constructor
    · rintro ⟨op, hop, horigin⟩
      by_cases ho : op.value = ".ORIG".toList
      · obtain ⟨x, hx⟩ := horigin ho
        exact ⟨_, originOffset_eq_ok.2 ⟨op, hop, .inl ⟨ho, x, hx, rfl⟩⟩⟩
      · exact ⟨offset, originOffset_eq_ok.2 ⟨op, hop, .inr ⟨ho, rfl⟩⟩⟩
    · intro o h
      obtain ⟨op, hop, ⟨-, x, hx, -⟩ | ⟨ho, -⟩⟩ := originOffset_eq_ok.1 h
      · exact ⟨op, hop, fun _ => ⟨x, hx⟩⟩
      · exact ⟨op, hop, fun h => absurd h ho⟩
  unfold symtabRow
  constructor
  · intro ht
    obtain ⟨o, ho⟩ := horig.1 ht
    rw [ho, ok_bind]
    split <;> exact ⟨_, _, _, rfl⟩
  · intro row' entry o h
    rw [bind_eq_ok] at h
    obtain ⟨o1, ho1, h⟩ := h
    refine ⟨horig.2 o1 ho1, ?_⟩
    split at h <;> cases h <;> exact ⟨rfl, rfl⟩

/-- `BuildSymtab` returns exactly when it can, and then it has changed labels only. -/
theorem buildSymtabFrom_spec (offset : Nat) (symtab : List (List Char × Token))
    (rows : List InstructionRow) :
    ((∀ row ∈ rows, Tabulable row) → ∃ inset, buildSymtabFrom offset symtab rows = .ok inset) ∧
      ∀ inset, buildSymtabFrom offset symtab rows = .ok inset →
        (∀ row ∈ rows, Tabulable row) ∧ List.Forall₂ SameCode rows inset.rows := by
  induction rows generalizing offset symtab with
  | nil =>
    refine ⟨fun _ => ⟨_, rfl⟩, ?_⟩
    rintro inset h
    cases h
    exact ⟨by simp, .nil⟩
  | cons row rows ih =>
    constructor
    · intro h
      obtain ⟨row', entry, o, hrow⟩ := (symtabRow_spec offset row).1 (h row List.mem_cons_self)
      obtain ⟨inset, hin⟩ := (ih o (entry.toList ++ symtab)).1
        fun r hr => h r (List.mem_cons_of_mem _ hr)
      exact ⟨_, by simp only [buildSymtabFrom, hrow, ok_bind, hin]; rfl⟩
    · intro inset h
      obtain ⟨row', entry, o, inset', hrow, hin, rfl⟩ := buildSymtabFrom_cons h
      obtain ⟨ht, hsame⟩ := (symtabRow_spec offset row).2 row' entry o hrow
      obtain ⟨hts, hsames⟩ := (ih o (entry.toList ++ symtab)).2 inset' hin
      exact ⟨List.forall_mem_cons.2 ⟨ht, hts⟩, .cons hsame hsames⟩

theorem encodeRow_sameCode {row row' : InstructionRow} (h : SameCode row row') :
    encodeRow row = encodeRow row' := by
  unfold encodeRow
  rw [h.1, h.2]

theorem emitRows_sameCode {rows rows' : List InstructionRow}
    (h : List.Forall₂ SameCode rows rows') : emitRows rows = emitRows rows' := by
  induction h with
  | nil => rfl
  | cons hr _ ih => rw [emitRows, emitRows, encodeRow_sameCode hr, ih]

/-! ## The word of a renamed row -/

/-- The operation of a row is not a label. -/
def OpNotLabel (row : InstructionRow) : Prop := ∀ op ∈ row.op, op.type ≠ .Label

theorem op_value_rename {row : InstructionRow} (h : OpNotLabel row) :
    ∀ op ∈ row.op, (op.rename ρ).value = op.value :=
  fun op hop => by rw [Token.rename_of_ne (h op hop)]

/-- The bits the reads set whatever the labels are called. -/
def fixedBits : List Read → UInt16
  | [] => 0
  | (o, r) :: reads =>
    match o with
    | none => fixedBits reads
    | some t =>
      if t.type = .Label then fixedBits reads
      else match r.read t with
        | .ok v => v ||| fixedBits reads
        | .error _ => fixedBits reads

/-- The or of `f` over the labels that are read. -/
def overLabels (f : Reader → List Char → UInt16) : List Read → UInt16
  | [] => 0
  | (o, r) :: reads =>
    match o with
    | none => overLabels f reads
    | some t => if t.type = .Label then f r t.value ||| overLabels f reads else overLabels f reads

/-- The bits the labels can set. -/
def labelMask : List Read → UInt16 := overLabels fun r _ => r.mask

/-- What the labels set under the names of `ρ`. -/
def labelBits (ρ : List Char → List Char) : List Read → UInt16 :=
  overLabels fun r v => r.labelValue (ρ v)

theorem encodeReads_rename (hρ : Renaming ρ) {reads : List Read} {w : UInt16}
    (h : encodeReads reads = .ok w) :
    encodeReads (reads.map (mapRead (Token.rename ρ))) =
      .ok (fixedBits reads ||| labelBits ρ reads) := by
  induction reads generalizing w with
  | nil =>
    show Except.ok 0 = Except.ok (0 ||| 0)
    rw [UInt16.or_self]
  | cons p reads ih =>
    obtain ⟨o, r⟩ := p
    simp only [encodeReads, bind_eq_ok] at h
    obtain ⟨t, ht, v, hv, w', hw', -⟩ := h
    cases o with
    | none => cases ht
    | some u =>
      cases ht
      have hrest := ih hw'
      by_cases hl : t.type = .Label
      · have hl' : (t.rename ρ).type = .Label := by rw [t.type_rename hρ, hl]
        have hread := read_label r hl'
        rw [Token.value_rename_of_label hl] at hread
        simp only [List.map_cons, mapRead, Option.map_some, encodeReads, deref_some, ok_bind,
          hread, hrest, fixedBits, labelBits, overLabels, if_pos hl]
        refine congrArg Except.ok ?_
        ac_rfl
      · simp only [List.map_cons, mapRead, Option.map_some, Token.rename_of_ne hl, encodeReads,
          deref_some, ok_bind, hv, hrest, fixedBits, labelBits, overLabels, if_neg hl]
        refine congrArg Except.ok ?_
        ac_rfl

theorem labelBits_mask (hρ : Renaming ρ) (reads : List Read) :
    labelBits ρ reads ||| labelMask reads = labelMask reads := by
  unfold labelBits labelMask
  induction reads with
  | nil => exact UInt16.or_self
  | cons p reads ih =>
    obtain ⟨o, r⟩ := p
    cases o with
    | none => exact ih
    | some t =>
      by_cases hl : t.type = .Label
      · simp only [overLabels, if_pos hl]
        have hmask := labelValue_mask r (hρ.label _ hl)
        calc _ = (r.labelValue (ρ t.value) ||| r.mask) |||
              (overLabels (fun r v => r.labelValue (ρ v)) reads |||
                overLabels (fun r _ => r.mask) reads) := by ac_rfl
          _ = _ := by rw [hmask, ih]
      · simp only [overLabels, if_neg hl]
        exact ih

/-! ## Probing a row -/

theorem overLabels_zero (reads : List Read) : overLabels (fun _ _ => 0) reads = 0 := by
  induction reads with
  | nil => rfl
  | cons p reads ih =>
    obtain ⟨o, r⟩ := p
    cases o with
    | none => exact ih
    | some t => simp only [overLabels, ih]; split <;> rfl

theorem overLabels_or (f g : Reader → List Char → UInt16) (reads : List Read) :
    overLabels (fun r v => f r v ||| g r v) reads = overLabels f reads ||| overLabels g reads := by
  induction reads with
  | nil => exact UInt16.or_self.symm
  | cons p reads ih =>
    obtain ⟨o, r⟩ := p
    cases o with
    | none => exact ih
    | some t =>
      simp only [overLabels, ih]
      split
      · ac_rfl
      · rfl

/-- The probes together set the mask. -/
theorem labelMask_eq (reads : List Read) :
    labelMask reads = (probes.map fun s => labelBits (probe s) reads).foldr (· ||| ·) 0 := by
  have hfold : ∀ l : List (List Char), (∀ s ∈ l, s ∈ probes) →
      (l.map fun s => labelBits (probe s) reads).foldr (· ||| ·) 0 =
        overLabels (fun r _ => (l.map fun s => r.labelValue (probe s [])).foldr (· ||| ·) 0)
          reads := by
    intro l hl
    induction l with
    | nil => exact (overLabels_zero reads).symm
    | cons s l ih =>
      have hs : labelBits (probe s) reads =
          overLabels (fun r _ => r.labelValue (probe s [])) reads := by
        unfold labelBits
        congr 1
        funext r v
        exact (labelValue_probe r v).2 s (hl s List.mem_cons_self)
      simp only [List.map_cons, List.foldr_cons, overLabels_or, hs,
        ih fun s hs => hl s (List.mem_cons_of_mem _ hs)]
  rw [hfold probes fun s hs => hs]
  unfold labelMask
  congr 1
  funext r _
  exact (labelValue_probes r).symm

theorem label_head {c : Char} {u : List Char} (h : classify (c :: u) = .Label) :
    c ∈ labelChars := by
  have hm : c :: u ∈ kLabel.matches' := classify_pattern (by rw [h]; rfl)
  obtain ⟨d, v, hd, hmem, -⟩ := (mem_oneOf_mul _ _ _).1 hm
  cases hd
  have hall : ∀ d ∈ "ABCDEFGHIJKLMNOPQSTUVWXYZ_".toList, d ∈ labelChars := by decide
  exact hall c hmem

theorem instructionWords_chars : ∀ w ∈ instructionWords, '_' ∉ w := by decide

/-- A probe is a renaming. -/
theorem renaming_probe {s : List Char} (hs : ∀ c ∈ s, c ∈ labelChars) : Renaming (probe s) where
  injective v v' h := by
    unfold probe at h
    simpa using h
  label v hv := by
    obtain ⟨c, u, rfl, -, hu⟩ := label_shape hv
    have hc : c ∈ labelChars := label_head hv
    have htail : ∀ d ∈ s ++ '_' :: c :: u, d ∈ labelChars := by
      intro d hd
      simp only [List.mem_append, List.mem_cons] at hd
      rcases hd with hd | rfl | rfl | hd
      · exact hs d hd
      · decide
      · exact hc
      · exact hu d hd
    have hmatch : fullMatch kLabel (probe s (c :: u)) = true := by
      rw [fullMatch_iff]
      refine (mem_oneOf_mul _ _ _).2 ⟨'A', _, rfl, by decide, ?_⟩
      exact (mem_some1_oneOf _ _).2 ⟨by simp, htail⟩
    have hseg : fullMatch kSegment (probe s (c :: u)) = false := by
      rw [← Bool.not_eq_true, fullMatch_iff]
      intro h
      obtain ⟨b, hb, -⟩ := (mem_char_mul _ _ _).1 h
      cases hb
    have hins : fullMatch kInstruction (probe s (c :: u)) = false := by
      rw [← Bool.not_eq_true, fullMatch_iff]
      intro h
      exact instructionWords_chars _ ((mem_anyWord _ _).1 h) (by simp [probe])
    have hreg : fullMatch kRegister (probe s (c :: u)) = false := by
      rw [← Bool.not_eq_true, fullMatch_iff]
      intro h
      obtain ⟨b, hb, -⟩ := (mem_char_mul _ _ _).1 h
      cases hb
    have hhex : fullMatch kHexNumber (probe s (c :: u)) = false := by
      rw [← Bool.not_eq_true, fullMatch_iff]
      intro h
      obtain ⟨b, hb, -⟩ := (mem_char_mul _ _ _).1 h
      cases hb
    unfold classify
    simp [hmatch, hseg, hins, hreg, hhex]

/-! ## When a renaming keeps the word -/

/-- The bits that do not come from labels. -/
def InstructionRow.fixed (row : InstructionRow) : UInt16 :=
  match row.format with
  | none => 0
  | some f => f.bits ||| fixedBits (f.reads row.operands)

/-- The bits the labels of the row can set. -/
def InstructionRow.mask (row : InstructionRow) : UInt16 :=
  match row.format with
  | none => 0
  | some f => labelMask (f.reads row.operands)

/-- Every bit a label of the row can set is set anyway. -/
def InstructionRow.LabelsAbsorbed (row : InstructionRow) : Prop :=
  row.fixed ||| row.mask = row.fixed

/-- What the labels of the row set under the names of `ρ`. -/
def InstructionRow.labelled (ρ : List Char → List Char) (row : InstructionRow) : UInt16 :=
  match row.format with
  | none => 0
  | some f => labelBits ρ (f.reads row.operands)

/-- The word of the renamed row. -/
theorem encodeRow_rename (hρ : Renaming ρ) {row : InstructionRow} (hop : OpNotLabel row)
    {o : Option UInt16} (h : encodeRow row = .ok o) :
    encodeRow (row.rename ρ) = .ok (o.map fun _ => row.fixed ||| row.labelled ρ) := by
  rw [encodeRow_reads] at h ⊢
  rw [InstructionRow.rename, format_map (op_value_rename hop)]
  unfold InstructionRow.fixed InstructionRow.labelled
  cases hf : row.format with
  | none =>
    rw [hf] at h
    cases h
    rfl
  | some f =>
    rw [hf] at h
    simp only [Format.encode] at h ⊢
    cases hw : encodeReads (f.reads row.operands) with
    | error e => rw [hw] at h; cases h
    | ok w =>
      rw [hw] at h
      cases h
      rw [reads_map, encodeReads_rename hρ hw, ok_bind, UInt16.or_assoc]
      rfl

theorem renaming_id : Renaming id where
  injective := Function.injective_id
  label _ h := h

theorem Token.rename_id (t : Token) : t.rename id = t := by
  unfold Token.rename
  split <;> rfl

theorem InstructionRow.rename_id (row : InstructionRow) : row.rename id = row := by
  have h : (Token.rename id) = id := funext Token.rename_id
  rw [InstructionRow.rename, h]
  simp [InstructionRow.map]

theorem probes_renaming : ∀ s ∈ "0".toList :: probes, Renaming (probe s) := by
  have h : ∀ s ∈ "0".toList :: probes, ∀ c ∈ s, c ∈ labelChars := by decide
  exact fun s hs => renaming_probe (h s hs)

theorem or_foldr_absorb (a : UInt16) (l : List UInt16) (h : ∀ x ∈ l, a ||| x = a) :
    a ||| l.foldr (· ||| ·) 0 = a := by
  induction l with
  | nil => exact UInt16.or_zero
  | cons x l ih =>
    rw [List.foldr_cons, ← UInt16.or_assoc, h x List.mem_cons_self,
      ih fun y hy => h y (List.mem_cons_of_mem _ hy)]

theorem labelled_mask (hρ : Renaming ρ) (row : InstructionRow) :
    row.labelled ρ ||| row.mask = row.mask := by
  unfold InstructionRow.labelled InstructionRow.mask
  cases row.format with
  | none => exact UInt16.or_self
  | some f => exact labelBits_mask hρ _

theorem labelled_zero (row : InstructionRow) : row.labelled (probe "0".toList) = 0 := by
  unfold InstructionRow.labelled
  cases row.format with
  | none => rfl
  | some f =>
    have h : (fun (r : Reader) v => r.labelValue (probe "0".toList v)) = fun _ _ => 0 := by
      funext r v
      exact (labelValue_probe r v).1
    show overLabels _ _ = 0
    rw [h, overLabels_zero]

theorem mask_eq (row : InstructionRow) :
    row.mask = (probes.map fun s => row.labelled (probe s)).foldr (· ||| ·) 0 := by
  unfold InstructionRow.labelled InstructionRow.mask
  cases row.format with
  | none => simp [probes]
  | some f => exact labelMask_eq _

/-- No renaming changes the word of a row exactly when its labels are absorbed. -/
theorem labelsAbsorbed_iff {row : InstructionRow} :
    (∀ ρ, Renaming ρ → row.fixed ||| row.labelled ρ = row.fixed ||| row.labelled id) ↔
      row.LabelsAbsorbed := by
  unfold InstructionRow.LabelsAbsorbed
  constructor
  · intro h
    -- under the first probe the labels set nothing, so no probe sets anything new
    have h0 := h _ (probes_renaming _ List.mem_cons_self)
    rw [labelled_zero, UInt16.or_zero] at h0
    rw [mask_eq]
    apply or_foldr_absorb
    intro x hx
    obtain ⟨s, hs, rfl⟩ := List.mem_map.1 hx
    rw [h _ (probes_renaming s (List.mem_cons_of_mem _ hs)), ← h0]
  · intro h
    have hfix : ∀ ρ, Renaming ρ → row.fixed ||| row.labelled ρ = row.fixed := by
      intro ρ hρ
      rw [← h, UInt16.or_assoc, UInt16.or_comm row.mask, labelled_mask hρ]
    intro ρ hρ
    rw [hfix ρ hρ, hfix id renaming_id]

/-! ## The image -/

theorem encodeRow_old {row : InstructionRow} (hop : OpNotLabel row) {o : Option UInt16}
    (h : encodeRow row = .ok o) : o = o.map fun _ => row.fixed ||| row.labelled id := by
  have hid := encodeRow_rename renaming_id hop h
  rw [row.rename_id, h] at hid
  exact Except.ok.inj hid

theorem format_none {row : InstructionRow} (h : encodeRow row = .ok none) : row.format = none := by
  rw [encodeRow_reads] at h
  cases hf : row.format with
  | none => rfl
  | some f =>
    rw [hf] at h
    simp only at h
    cases hw : f.encode row.operands <;> rw [hw] at h <;> cases h

/-- The words of the renamed rows. -/
theorem emitRows_rename (hρ : Renaming ρ) {rows : List InstructionRow} {ws : List UInt16}
    (hop : ∀ row ∈ rows, OpNotLabel row) (h : emitRows rows = .ok ws) :
    ∃ ws', emitRows (rows.map (InstructionRow.rename ρ)) = .ok ws' ∧ ws'.length = ws.length ∧
      (ws' = ws ↔ ∀ row ∈ rows,
        row.fixed ||| row.labelled ρ = row.fixed ||| row.labelled id) := by
  induction rows generalizing ws with
  | nil =>
    cases h
    exact ⟨[], rfl, rfl, by simp⟩
  | cons row rows ih =>
    rw [emitRows, bind_eq_ok] at h
    obtain ⟨o, ho, h⟩ := h
    rw [bind_eq_ok] at h
    obtain ⟨ws1, h1, h⟩ := h
    cases h
    rw [List.forall_mem_cons] at hop
    obtain ⟨ws1', hws, hlen, hiff⟩ := ih hop.2 h1
    have hrow := encodeRow_rename hρ hop.1 ho
    have hold := encodeRow_old hop.1 ho
    refine ⟨_, by rw [List.map_cons, emitRows, hrow, ok_bind, hws]; rfl, ?_, ?_⟩
    · cases o <;> simp [hlen]
    · rw [List.forall_mem_cons, ← hiff]
      cases o with
      | none => simp [InstructionRow.fixed, InstructionRow.labelled, format_none ho]
      | some w =>
        simp only [Option.map_some, Option.some.injEq] at hold
        simp [← hold]

/-! ## The rows of `Parse` -/

theorem opNotLabel_default (it : List Token) : OpNotLabel ({ it } : Cursor).row := by
  intro op h
  cases h

theorem opNotLabel_assignOp {k : Cursor} {t : Token} {it : List Token} (hk : k.it = t :: it)
    (ht : t.type ≠ .Label) : OpNotLabel k.assignOp.2.row := by
  unfold Cursor.assignOp
  rw [hk]
  intro op h
  cases h
  exact ht

theorem opNotLabel_assignOperand {k : Cursor} (pos : Nat) (h : OpNotLabel k.row) :
    OpNotLabel (k.assignOperand pos).2.row := by
  unfold Cursor.assignOperand
  split
  · exact h
  · split <;> exact h

theorem opNotLabel_assignLabel {k : Cursor} (h : OpNotLabel k.row) :
    OpNotLabel k.assignLabel.2.row := by
  unfold Cursor.assignLabel
  split <;> exact h

theorem opNotLabel_parseSegment {k : Cursor} {t : Token} {it : List Token} (hk : k.it = t :: it)
    (ht : t.type ≠ .Label) (h : OpNotLabel k.row) : OpNotLabel (parseSegment k t).row := by
  have hop := opNotLabel_assignOp hk ht
  unfold parseSegment
  split_ifs
  · exact hop
  · exact opNotLabel_assignOperand 0 hop
  · exact opNotLabel_assignOperand 0 (opNotLabel_assignLabel h)

theorem opNotLabel_parseInstruction {k : Cursor} {t : Token} {it : List Token}
    (hk : k.it = t :: it) (ht : t.type ≠ .Label) (h : OpNotLabel k.row) :
    OpNotLabel (parseInstruction k t).row := by
  have hop := opNotLabel_assignOp hk ht
  unfold parseInstruction
  split_ifs
  · exact opNotLabel_assignOperand 2 (opNotLabel_assignOperand 1 (opNotLabel_assignOperand 0 hop))
  · exact hop
  · exact opNotLabel_assignOperand 0 hop
  · exact opNotLabel_assignOperand 1 (opNotLabel_assignOperand 0 hop)
  · exact h

theorem opNotLabel_parseRow {t : Token} {it rest : List Token} {row : InstructionRow}
    (h : parseRow t it = .ok (some row, rest)) : OpNotLabel row := by
  have hdef := opNotLabel_default (t :: it)
  unfold parseRow at h
  cases ht : t.type with
  | Segment =>
    rw [ht] at h
    cases h
    exact opNotLabel_parseSegment rfl (by rw [ht]; decide) hdef
  | Instruction =>
    rw [ht] at h
    cases h
    exact opNotLabel_parseInstruction rfl (by rw [ht]; decide) hdef
  | Label =>
    rw [ht] at h
    cases it with
    | nil => cases h
    | cons u it =>
      cases h
      have hlab := opNotLabel_assignLabel hdef
      unfold parseLabelled
      split
      · next hu => exact opNotLabel_parseInstruction rfl (by rw [hu]; decide) hlab
      · next hu => exact opNotLabel_parseSegment rfl (by rw [hu]; decide) hlab
      · exact hlab
  | _ => rw [ht] at h; cases h

/-- No row of `Parse` has a label for its operation. -/
theorem opNotLabel_parseRows {tokens : List Token} {rows : List InstructionRow}
    (h : ParseRows tokens (.ok rows)) : ∀ row ∈ rows, OpNotLabel row := by
  have hstep : ∀ s s' : List InstructionRow × List Token, (∀ row ∈ s.1, OpNotLabel row) →
      parseBody s = .again s' → ∀ row ∈ s'.1, OpNotLabel row := by
    rintro ⟨rs, it⟩ s' hrs hagain
    unfold parseBody at hagain
    cases it with
    | nil => cases hagain
    | cons t it =>
      simp only at hagain
      split at hagain
      · cases hagain
      · cases hagain
        exact hrs
      · next hrow =>
        cases hagain
        rw [List.forall_mem_append]
        exact ⟨hrs, by simpa using opNotLabel_parseRow hrow⟩
  obtain ⟨⟨rs, it⟩, hinv, hdone⟩ := Returns.invariant _ hstep (by simp) h
  unfold parseBody at hdone
  cases it with
  | nil =>
    cases hdone
    exact hinv
  | cons t it =>
    simp only at hdone
    split at hdone <;> cases hdone

theorem first_map (f : Option Token → Option Token) (operands : Operands) :
    Operands.first (operands.map f) = f operands.first := Vector.getElem_map f (by omega)

/-- `BuildSymtab` looks at the text of the operation and at whether there is an operand. -/
theorem tabulable_map {f : Token → Token} {row : InstructionRow}
    (h : ∀ op ∈ row.op, (f op).value = op.value) : Tabulable (row.map f) ↔ Tabulable row := by
  have hfirst : (row.map f).operands.first = row.operands.first.map f :=
    first_map (Option.map f) row.operands
  unfold Tabulable
  rw [hfirst]
  show (∃ op, row.op.map f = some op ∧ _) ↔ _
  cases hop : row.op with
  | none => simp
  | some op => cases row.operands.first <;> simp [h op hop]

theorem labelsAbsorbed_sameCode {row row' : InstructionRow} (h : SameCode row row') :
    row.LabelsAbsorbed ↔ row'.LabelsAbsorbed := by
  unfold InstructionRow.LabelsAbsorbed InstructionRow.fixed InstructionRow.mask
    InstructionRow.format
  rw [h.1, h.2]

theorem tabulable_sameCode {row row' : InstructionRow} (h : SameCode row row') :
    Tabulable row ↔ Tabulable row' := by
  unfold Tabulable
  rw [h.1, h.2]

/-- What depends on the code of a row only. -/
theorem forall_sameCode {P : InstructionRow → Prop}
    (hP : ∀ {row row'}, SameCode row row' → (P row ↔ P row')) {rows rows' : List InstructionRow}
    (h : List.Forall₂ SameCode rows rows') : (∀ row ∈ rows, P row) ↔ ∀ row ∈ rows', P row := by
  induction h with
  | nil => simp
  | cons hr _ ih => rw [List.forall_mem_cons, List.forall_mem_cons, hP hr, ih]

/-! ## Labels and the image -/

/-- The assembler makes an image with these words of the tokens. -/
def Assembles (tokens : List Token) (ws : List UInt16) : Prop :=
  ∃ inset img, Parse tokens (.ok inset) ∧ encode inset = .ok img ∧ img.words = ws

/-- No renaming of the labels changes the image. -/
def RenamingKeepsImage (tokens : List Token) (img : Image) : Prop :=
  ∀ ρ, Renaming ρ → Assembles (tokens.map (Token.rename ρ)) img.words

/-- The image of the renamed program. -/
theorem assembles_rename {tokens : List Token} {rows : List InstructionRow} {inset : InstructionSet}
    {img : Image} (hrows : ParseRows tokens (.ok rows)) (hin : buildSymtab rows = .ok inset)
    (henc : encode inset = .ok img) (hρ : Renaming ρ) :
    Assembles (tokens.map (Token.rename ρ)) img.words ↔
      ∀ row ∈ rows, row.fixed ||| row.labelled ρ = row.fixed ||| row.labelled id := by
  have hop := opNotLabel_parseRows hrows
  obtain ⟨htab, hsame⟩ := (buildSymtabFrom_spec 0 [] rows).2 inset hin
  obtain ⟨ws, hws, hwords, hlen⟩ := encodeRows_words henc
  rw [← emitRows_sameCode hsame] at hws
  rw [Image.words_empty, List.nil_append] at hwords
  obtain ⟨ws', hws', hlen', hiff⟩ := emitRows_rename hρ hop hws
  have hparse := parseRows_rename hρ hrows
  obtain ⟨inset', hin'⟩ := (buildSymtabFrom_spec 0 [] (rows.map (InstructionRow.rename ρ))).1
    (List.forall_mem_map.2 fun row hr =>
      (tabulable_map (op_value_rename (hop row hr))).2 (htab row hr))
  obtain ⟨-, hsame'⟩ := (buildSymtabFrom_spec 0 [] _).2 inset' hin'
  have hparse' : Parse (tokens.map (Token.rename ρ)) (.ok inset') := ⟨_, hparse, hin'.symm⟩
  have hfit : ws.length ≤ kImageSize := by
    rw [← hwords, Image.words, List.length_take, Vector.length_toList]
    exact Nat.min_le_right _ _
  rw [emitRows_sameCode hsame'] at hws'
  obtain ⟨img', henc'⟩ := @encodeRows_of_emit inset'.rows Image.empty ws' hws'
    (by rw [hlen']; exact (Nat.zero_add _).trans_le hfit)
  obtain ⟨ws'', hws'', hwords', -⟩ := encodeRows_words henc'
  rw [hws'] at hws''
  cases hws''
  rw [Image.words_empty, List.nil_append] at hwords'
  rw [← hiff, hwords]
  constructor
  · rintro ⟨inset2, img2, hp2, he2, hw2⟩
    cases hp2.unique hparse'
    cases he2.symm.trans henc'
    rw [← hw2, hwords']
  · rintro rfl
    exact ⟨inset', img', hparse', henc', hwords'⟩

theorem renamingKeepsImage_iff {tokens : List Token} {inset : InstructionSet} {img : Image}
    (hparse : Parse tokens (.ok inset)) (henc : encode inset = .ok img) :
    RenamingKeepsImage tokens img ↔ ∀ row ∈ inset.rows, row.LabelsAbsorbed := by
  obtain ⟨rows, hrows, hbuild⟩ := parse_ok hparse
  obtain ⟨-, hsame⟩ := (buildSymtabFrom_spec 0 [] rows).2 inset hbuild
  rw [← forall_sameCode labelsAbsorbed_sameCode hsame]
  calc RenamingKeepsImage tokens img
      ↔ ∀ ρ, Renaming ρ → ∀ row ∈ rows,
          row.fixed ||| row.labelled ρ = row.fixed ||| row.labelled id :=
        forall₂_congr fun ρ hρ => assembles_rename hrows hbuild henc hρ
    _ ↔ ∀ row ∈ rows, ∀ ρ, Renaming ρ →
          row.fixed ||| row.labelled ρ = row.fixed ||| row.labelled id :=
        ⟨fun h row hr ρ hρ => h ρ hρ row hr, fun h ρ hρ row hr => h row hr ρ hρ⟩
    _ ↔ ∀ row ∈ rows, row.LabelsAbsorbed := forall₂_congr fun row _ => labelsAbsorbed_iff

/-- **What the labels do to the image.**  The fields hold what the symbol table says
exactly when the names spell the distances, and the names do not matter exactly when
no label reaches a bit of its own. -/
theorem labels_iff {tokens : List Token} {inset : InstructionSet} {img : Image}
    (hparse : Parse tokens (.ok inset)) (henc : encode inset = .ok img) :
    (FieldsHold inset img ↔ NamesSpellDistances inset) ∧
      (RenamingKeepsImage tokens img ↔ ∀ row ∈ inset.rows, row.LabelsAbsorbed) :=
  ⟨fieldsHold_iff henc, renamingKeepsImage_iff hparse henc⟩

/-! ## `test/data/hello-world.asm` -/

/-- The program with its label `HW` called `label`. -/
def helloText (label : String) : List Char :=
  ".ORIG x3000\nLEA R0, ".toList ++ label.toList ++ "\nPUTS\nHALT\n".toList ++ label.toList ++
    " .STRINGZ \"hello world!\"\n.END".toList

def helloTokens (label : String) : List Token :=
  [⟨".ORIG".toList, 1, 0⟩, ⟨"x3000".toList, 1, 0⟩, ⟨"LEA".toList, 2, 0⟩, ⟨"R0".toList, 2, 0⟩,
    ⟨label.toList, 2, 0⟩, ⟨"PUTS".toList, 3, 0⟩, ⟨"HALT".toList, 4, 0⟩, ⟨label.toList, 5, 0⟩,
    ⟨".STRINGZ".toList, 5, 0⟩, ⟨"\"hello world!\"".toList, 5, 0⟩, ⟨".END".toList, 6, 0⟩]

def helloInset (label : String) : InstructionSet where
  rows :=
    [{ op := some ⟨".ORIG".toList, 1, 0⟩, operands := #v[some ⟨"x3000".toList, 1, 0⟩, none, none] },
      { op := some ⟨"LEA".toList, 2, 0⟩,
        operands := #v[some ⟨"R0".toList, 2, 0⟩, some ⟨label.toList, 2, 0⟩, none] },
      { op := some ⟨"PUTS".toList, 3, 0⟩ },
      { op := some ⟨"HALT".toList, 4, 0⟩ },
      { label := some ⟨label.toList, 5, 0x3008⟩, op := some ⟨".STRINGZ".toList, 5, 0⟩,
        operands := #v[some ⟨"\"hello world!\"".toList, 5, 0⟩, none, none] },
      { op := some ⟨".END".toList, 6, 0⟩ }]
  symtab := [(label.toList, ⟨label.toList, 5, 0x3008⟩)]

theorem hello_encode : ∀ label ∈ ["HW", "L4"],
    tokenize (helloText label) = .ok (helloTokens label) ∧
    Parse (helloTokens label) (.ok (helloInset label)) ∧
      ∃ img, encode (helloInset label) = .ok img := by
  intro label hl
  have hrun : ∀ label ∈ ["HW", "L4"], tokenize (helloText label) = .ok (helloTokens label) ∧
      parseFuel 20 (helloTokens label) = some (.ok (helloInset label)) ∧
      ∃ ws ∈ [[0x3000, 0xE000, 0xF022, 0xF025], [0x3000, 0xE004, 0xF022, 0xF025]],
        emitRows (helloInset label).rows = .ok ws := by
    decide +kernel
  obtain ⟨htoks, hparse, ws, hmem, hws⟩ := hrun label hl
  have hlen : ∀ ws ∈ [[(0x3000 : UInt16), 0xE000, 0xF022, 0xF025],
      [0x3000, 0xE004, 0xF022, 0xF025]], ws.length = 4 := by decide
  refine ⟨htoks, parse_of_fuel hparse, encodeRows_of_emit hws ?_⟩
  rw [hlen ws hmem]
  decide

/-- With `L4` for a label the field is right, and another name would change it. -/
theorem labels_iff_hello : ∃ inset img, Parse (helloTokens "L4") (.ok inset) ∧
    encode inset = .ok img ∧ FieldsHold inset img ∧
    ¬ RenamingKeepsImage (helloTokens "L4") img := by
  obtain ⟨-, hparse, img, henc⟩ := hello_encode "L4" (by decide)
  obtain ⟨hfields, hnames⟩ := labels_iff hparse henc
  refine ⟨_, img, hparse, henc, hfields.2 ?_, fun h => ?_⟩
  · intro i row hi
    have hlt : i < 6 := by
      obtain ⟨hlt, -⟩ := List.getElem?_eq_some_iff.1 hi
      exact hlt
    have hrow : ∀ i < 6, ∀ row ∈ (helloInset "L4").rows[i]?, ¬ row.isSt ∧
        ∀ label ∈ row.usedLabel, (helloInset "L4").distance i label = some 4 ∧
          row.spelled label = 4 := by
      decide +kernel
    obtain ⟨hst, hlabel⟩ := hrow i hlt row hi
    refine ⟨fun reg _ h => absurd h hst, fun label hused => ?_⟩
    obtain ⟨hdist, hspelled⟩ := hlabel label hused
    exact ⟨4, hdist, by rw [hspelled]; rfl⟩
  · have hall := hnames.1 h
    have hnot : ¬ ∀ row ∈ (helloInset "L4").rows, row.fixed ||| row.mask = row.fixed := by
      decide +kernel
    exact hnot hall

/-- The label of `hello-world.asm` is there once, four behind the next instruction;
the word of `LEA` does not say so, and the names of the labels matter. -/
theorem hello_world_label : ∃ toks inset img, tokenize (helloText "HW") = .ok toks ∧
    Parse toks (.ok inset) ∧ encode inset = .ok img ∧ DefinedOnce inset ∧ DistancesFit inset ∧
    ¬ FieldsHold inset img ∧ ¬ RenamingKeepsImage toks img := by
  obtain ⟨htoks, hparse, img, henc⟩ := hello_encode "HW" (by decide)
  refine ⟨_, _, img, htoks, hparse, henc, ?_, ?_, ?_, ?_⟩
  · unfold DefinedOnce
    decide +kernel
  · unfold DistancesFit
    decide +kernel
  · rw [fieldsHold_iff henc]
    intro h
    obtain ⟨d, hd, hn⟩ := (h 1 _ rfl).2 ⟨"HW".toList, 2, 0⟩ (by decide +kernel)
    have hdist : (helloInset "HW").distance 1 ⟨"HW".toList, 2, 0⟩ = some 4 := by decide +kernel
    rw [hdist] at hd
    cases hd
    revert hn
    decide +kernel
  · rw [renamingKeepsImage_iff hparse henc]
    unfold InstructionRow.LabelsAbsorbed
    decide +kernel

end Tvm
