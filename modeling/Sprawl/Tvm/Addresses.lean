import Sprawl.Tvm.Literals
import Sprawl.Tvm.Pointers

/-!
# The addresses of the labels

The offset of `BuildSymtab` moves by 2 at a row without a label or without an operand, by
the size of its data at a labelled one, and not at all at a labelled instruction; a row
without an operand is not recorded whatever its label says.

    Increasing inset ↔ Spaced inset.rows      (increasing_iff)

where `Increasing` is what addresses are for (labels of different code or data are in the
table, in row order), and `Spaced` says what it takes: an operand on each labelled row,
and between two of them a row that moves the offset.
-/

namespace Tvm

open Cxx Loop

/-! ## Sizes -/

/-- What `BuildSymtab` puts in the table for a row. -/
def InstructionRow.entry (row : InstructionRow) : Option (List Char × Token) :=
  match row.label, row.op, row.operands.first with
  | some label, some _, some _ => some (label.value, label)
  | _, _, _ => none

/-- How far a row moves the offset. -/
def InstructionRow.advance (row : InstructionRow) : Nat :=
  match row.label, row.op, row.operands.first with
  | some _, some op, some operand => labelledSize op operand
  | _, _, _ => 2

def InstructionRow.isOrigin (row : InstructionRow) : Prop :=
  ∃ op, row.op = some op ∧ op.value = ".ORIG".toList

/-- The offset in front of the first row. -/
def startOf : List InstructionRow → Nat
  | [] => 0
  | row :: _ =>
    match row.op, row.operands.first with
    | some op, some x => if op.value = ".ORIG".toList then x.hexToU16.toNat else 0
    | _, _ => 0

/-- The offset behind some rows of a program that starts at `start`. -/
def offsetBehind (start : Nat) (rows : List InstructionRow) : Nat :=
  start + (rows.map InstructionRow.advance).sum

/-- The program has its origin, if it has one, at its head, and the size from there on fits
in 16 bits. -/
structure FromOrigin (rows : List InstructionRow) : Prop where
  origin : ∀ row ∈ rows.tail, ¬ row.isOrigin
  fits : offsetBehind (startOf rows) rows < 2 ^ 16

/-- No label stands on two rows. -/
def DistinctLabels (rows : List InstructionRow) : Prop :=
  (rows.filterMap fun row => row.label.map Token.value).Nodup

/-! ## What the table should say -/

/-- The size of a block: a decimal or hexadecimal number above zero. -/
def Token.PositiveSize (t : Token) : Prop :=
  (∃ v, 0 < v ∧ Denotes t.value v) ∨ t.type = .HexNumber ∧ ∃ c ∈ t.value.drop 1, c ≠ '0'

/-- An instruction, a `.BLKW` or a `.STRINGZ` that is not empty. -/
def InstructionRow.HoldsSpace (row : InstructionRow) : Prop :=
  ∃ op, row.op = some op ∧
    (op.type = .Instruction ∨ ∃ x, row.operands.first = some x ∧
      (op.value = ".BLKW".toList ∧ x.PositiveSize ∨
        op.value = ".STRINGZ".toList ∧ x.value ≠ "\"\"".toList))

/-- Two rows of the program that hold something, each with a label, and the rows between. -/
structure Between (rows : List InstructionRow) (row row' : InstructionRow) (label label' : Token)
    (pre mid suf : List InstructionRow) : Prop where
  rows_eq : rows = pre ++ row :: (mid ++ row' :: suf)
  label_eq : row.label = some label
  label_eq' : row'.label = some label'
  holds : row.HoldsSpace
  holds' : row'.HoldsSpace

/-- The labels of the rows that hold something are in the table, and their addresses strictly
increase. -/
structure Increasing (inset : InstructionSet) : Prop where
  inTable : ∀ row ∈ inset.rows, row.HoldsSpace → ∀ label ∈ row.label,
    ∃ t, inset.lookup label.value = some t
  increasing : ∀ {row row' label label' pre mid suf},
    Between inset.rows row row' label label' pre mid suf →
    ∀ t t', inset.lookup label.value = some t → inset.lookup label'.value = some t' →
      t.address < t'.address

/-- The row moves the offset: it has no label or no operand, or it is a `.STRINGZ`, or a
`.BLKW` whose operand `U16Value` does not read as zero. -/
def InstructionRow.Moves (row : InstructionRow) : Prop :=
  row.label = none ∨ row.operands.first = none ∨
    ∃ op x, row.op = some op ∧ row.operands.first = some x ∧
      (op.value = ".STRINGZ".toList ∧ x.value ≠ [] ∨ op.value = ".BLKW".toList ∧ x.u16Value ≠ 0)

/-- Every labelled row that holds something has an operand, and from one such row to another
the offset moves. -/
structure Spaced (rows : List InstructionRow) : Prop where
  operand : ∀ row ∈ rows, row.HoldsSpace → row.label ≠ none → row.operands.first ≠ none
  moves : ∀ {row row' label label' pre mid suf},
    Between rows row row' label label' pre mid suf → ∃ m ∈ row :: mid, m.Moves

/-! ## What `BuildSymtab` does -/

/-- One row. -/
theorem symtabRow_ok {offset o' : Nat} {row row' : InstructionRow}
    {entry : Option (List Char × Token)} (h : symtabRow offset row = .ok (row', entry, o')) :
    ∃ base, originOffset row offset = .ok base ∧ o' = base + row'.advance ∧ entry = row'.entry ∧
      row.op = row'.op ∧ row.operands = row'.operands ∧
      ∀ k v, row'.entry = some (k, v) → v.address = base.toUInt16 := by
  unfold symtabRow at h
  rw [bind_eq_ok] at h
  obtain ⟨base, hbase, h⟩ := h
  refine ⟨base, hbase, ?_⟩
  unfold InstructionRow.advance InstructionRow.entry
  split at h
  · next label op operand hlabel hop hoperand =>
    cases h
    simp only [hop, hoperand, true_and]
    rintro k v ⟨⟩
    rfl
  · next hnone =>
    cases h
    split
    · next label op operand hlabel hop hoperand =>
      exact absurd hoperand (hnone label op operand hlabel hop)
    · exact ⟨rfl, rfl, rfl, rfl, by rintro k v ⟨⟩⟩

/-- The table and the addresses, for rows from some offset on. -/
structure Tabulated (offset : Nat) (symtab : List (List Char × Token)) (inset : InstructionSet) :
    Prop where
  symtab_eq : inset.symtab = (inset.rows.filterMap InstructionRow.entry).reverse ++ symtab
  address : ∀ pre row suf, inset.rows = pre ++ row :: suf → ∀ k v, row.entry = some (k, v) →
    v.address = (offsetBehind offset pre).toUInt16

/-- One more row in front. -/
theorem Tabulated.cons {offset : Nat} {symtab : List (List Char × Token)} {row : InstructionRow}
    {inset : InstructionSet}
    (h : Tabulated (offset + row.advance) (row.entry.toList ++ symtab) inset)
    (haddress : ∀ k v, row.entry = some (k, v) → v.address = offset.toUInt16) :
    Tabulated offset symtab { inset with rows := row :: inset.rows } := by
  constructor
  · show inset.symtab = _
    rw [h.symtab_eq]
    cases hentry : row.entry with
    | none => simp [hentry]
    | some e => simp [hentry]
  · intro pre row' suf heq k v hentry
    rcases List.cons_eq_append_iff.1 heq with ⟨rfl, hcons⟩ | ⟨pre', rfl, hrest⟩
    · cases hcons
      exact haddress k v hentry
    · have hrow := h.address pre' row' suf hrest k v hentry
      rw [hrow]
      unfold offsetBehind
      rw [List.map_cons, List.sum_cons, Nat.add_assoc]

theorem originOffset_of_not {row : InstructionRow} {offset base : Nat} (hrow : ¬ row.isOrigin)
    (h : originOffset row offset = .ok base) : base = offset := by
  obtain ⟨op, hop, ⟨ho, -⟩ | ⟨-, rfl⟩⟩ := originOffset_eq_ok.1 h
  · exact absurd ⟨op, hop, ho⟩ hrow
  · rfl

/-- The offset in front of a program is the one its first row sets. -/
theorem startOf_cons {row row' : InstructionRow} (rows : List InstructionRow) {base : Nat}
    (hop : row.op = row'.op) (hoperands : row.operands = row'.operands)
    (h : originOffset row 0 = .ok base) : startOf (row' :: rows) = base := by
  obtain ⟨op, hrow, h⟩ := originOffset_eq_ok.1 h
  rw [hop] at hrow
  rw [hoperands] at h
  unfold startOf
  rcases h with ⟨ho, x, hx, rfl⟩ | ⟨ho, rfl⟩
  · simp only [hrow, hx, if_pos ho]
  · cases hx : row'.operands.first with
    | none => simp only [hrow, hx]
    | some x => simp only [hrow, hx, if_neg ho]

/-- Rows without an origin. -/
theorem buildSymtabFrom_tabulated {rows : List InstructionRow} {offset : Nat}
    {symtab : List (List Char × Token)} {inset : InstructionSet}
    (h : buildSymtabFrom offset symtab rows = .ok inset)
    (horigin : ∀ row ∈ inset.rows, ¬ row.isOrigin) : Tabulated offset symtab inset := by
  induction rows generalizing offset symtab inset with
  | nil =>
    cases h
    exact ⟨rfl, by simp⟩
  | cons row rows ih =>
    obtain ⟨row', entry, o, inset', hrow, hinset', rfl⟩ := buildSymtabFrom_cons h
    obtain ⟨hhead, htail⟩ := List.forall_mem_cons.1 horigin
    obtain ⟨base, hbase, rfl, rfl, hop, -, haddress⟩ := symtabRow_ok hrow
    have hnot : ¬ row.isOrigin := by
      unfold InstructionRow.isOrigin at hhead ⊢
      rwa [hop]
    obtain rfl := originOffset_of_not hnot hbase
    exact (ih hinset' htail).cons haddress

/-- A program: its first row may be an origin. -/
theorem buildSymtab_tabulated {rows : List InstructionRow} {inset : InstructionSet}
    (h : buildSymtab rows = .ok inset) (horigin : ∀ row ∈ inset.rows.tail, ¬ row.isOrigin) :
    Tabulated (startOf inset.rows) [] inset := by
  cases rows with
  | nil =>
    cases h
    exact ⟨rfl, by simp⟩
  | cons row rows =>
    obtain ⟨row', entry, o, inset', hrow, hinset', rfl⟩ := buildSymtabFrom_cons h
    obtain ⟨base, hbase, rfl, rfl, hop, hoperands, haddress⟩ := symtabRow_ok hrow
    have hstart := startOf_cons inset'.rows hop hoperands hbase
    rw [← hstart] at hinset' haddress
    exact (buildSymtabFrom_tabulated hinset' horigin).cons haddress

/-! ## The table -/

theorem lookup_mem {κ α : Type} [BEq κ] [LawfulBEq κ] {l : List (κ × α)} {k : κ}
    {v : α} (h : l.lookup k = some v) : (k, v) ∈ l := by
  obtain ⟨l₁, l₂, rfl, -⟩ := List.lookup_eq_some_iff.1 h
  simp

/-- A key that occurs once belongs to one element. -/
theorem eq_of_filterMap_nodup {α κ : Type} {f : α → Option κ} {l : List α} {k : κ}
    (hnodup : (l.filterMap f).Nodup) {x y : α} (hx : x ∈ l) (hy : y ∈ l) (hfx : f x = some k)
    (hfy : f y = some k) : x = y := by
  induction l with
  | nil => cases hx
  | cons a l ih =>
    have hrest : (l.filterMap f).Nodup := by
      cases ha : f a with
      | none => rwa [List.filterMap_cons_none ha] at hnodup
      | some b =>
        rw [List.filterMap_cons_some ha, List.nodup_cons] at hnodup
        exact hnodup.2
    have hhead : ∀ z ∈ l, f a = some k → f z = some k → False := by
      intro z hz hfa hfz
      rw [List.filterMap_cons_some hfa, List.nodup_cons] at hnodup
      exact hnodup.1 (List.mem_filterMap.2 ⟨z, hz, hfz⟩)
    rcases List.mem_cons.1 hx with rfl | hxl
    · rcases List.mem_cons.1 hy with rfl | hyl
      · rfl
      · exact (hhead y hyl hfx hfy).elim
    · rcases List.mem_cons.1 hy with rfl | hyl
      · exact (hhead x hxl hfy hfx).elim
      · exact ih hrest hxl hyl

/-- What is recorded under a name comes from a row with that label. -/
theorem entry_eq_some {row : InstructionRow} {k : List Char} {v : Token} :
    row.entry = some (k, v) ↔
      ∃ op x, row.label = some v ∧ v.value = k ∧ row.op = some op ∧
        row.operands.first = some x := by
  unfold InstructionRow.entry
  constructor
  · intro h
    split at h
    · next label op x hlabel hop hx =>
      cases h
      exact ⟨op, x, hlabel, rfl, hop, hx⟩
    · cases h
  · rintro ⟨op, x, hlabel, rfl, hop, hx⟩
    simp only [hlabel, hop, hx]

/-- **A label is in the table exactly when its row was recorded.** -/
theorem Tabulated.lookup_iff {start : Nat} {inset : InstructionSet} (h : Tabulated start [] inset)
    (hd : DistinctLabels inset.rows) {row : InstructionRow} (hmem : row ∈ inset.rows)
    {label : Token} (hlabel : row.label = some label) (t : Token) :
    inset.lookup label.value = some t ↔ row.entry = some (label.value, t) := by
  have hsymtab : ∀ e, e ∈ inset.symtab ↔ ∃ r ∈ inset.rows, r.entry = some e := by
    intro e
    rw [h.symtab_eq, List.append_nil, List.mem_reverse, List.mem_filterMap]
  have hname : row.label.map Token.value = some label.value := by rw [hlabel]; rfl
  have hfound : ∀ v, inset.lookup label.value = some v → row.entry = some (label.value, v) := by
    intro v hv
    obtain ⟨r, hr, hentry⟩ := (hsymtab _).1 (lookup_mem hv)
    obtain ⟨op, x, hl, hvalue, -, -⟩ := entry_eq_some.1 hentry
    have hname' : r.label.map Token.value = some label.value := by rw [hl, ← hvalue]; rfl
    rw [eq_of_filterMap_nodup hd hmem hr hname hname']
    exact hentry
  refine ⟨hfound t, fun hentry => ?_⟩
  have hin := (hsymtab _).2 ⟨row, hmem, hentry⟩
  cases hlookup : inset.lookup label.value with
  | none => simpa using List.lookup_eq_none_iff.1 hlookup _ hin
  | some v =>
    have hv := hfound v hlookup
    rw [hentry] at hv
    cases hv
    rfl

/-! ## When the offset moves -/

theorem labelledSize_pos_iff (op x : Token) : 0 < labelledSize op x ↔
    op.value = ".STRINGZ".toList ∧ x.value ≠ [] ∨ op.value = ".BLKW".toList ∧ x.u16Value ≠ 0 := by
  have hne : ".BLKW".toList ≠ ".STRINGZ".toList := by decide
  have hzero : 0 < x.u16Value.toNat ↔ x.u16Value ≠ 0 := by
    rw [Nat.pos_iff_ne_zero, Ne, Ne, ← UInt16.toNat_inj]
    rfl
  unfold labelledSize
  split_ifs with hs hb
  · rw [List.length_pos_iff]
    constructor
    · intro hx
      exact .inl ⟨hs, hx⟩
    · rintro (⟨-, hx⟩ | ⟨hb, -⟩)
      · exact hx
      · exact absurd (hb.symm.trans hs) hne
  · rw [hzero]
    constructor
    · intro hx
      exact .inr ⟨hb, hx⟩
    · rintro (⟨hs', -⟩ | ⟨-, hx⟩)
      · exact absurd hs' hs
      · exact hx
  · refine iff_of_false (Nat.lt_irrefl 0) ?_
    rintro (⟨hs', -⟩ | ⟨hb', -⟩)
    · exact hs hs'
    · exact hb hb'

theorem moves_iff {row : InstructionRow} (h : Tabulable row) : row.Moves ↔ 0 < row.advance := by
  obtain ⟨op, hop, -⟩ := h
  unfold InstructionRow.Moves InstructionRow.advance
  cases hlabel : row.label with
  | none => simp
  | some label =>
    cases hx : row.operands.first with
    | none => simp
    | some x => simp [hop, labelledSize_pos_iff]

theorem offsetBehind_append (start : Nat) (rows rows' : List InstructionRow) :
    offsetBehind start (rows ++ rows') =
      offsetBehind start rows + (rows'.map InstructionRow.advance).sum := by
  unfold offsetBehind
  rw [List.map_append, List.sum_append, Nat.add_assoc]

theorem sum_pos_iff (rows : List InstructionRow) (h : ∀ row ∈ rows, Tabulable row) :
    0 < (rows.map InstructionRow.advance).sum ↔ ∃ m ∈ rows, m.Moves := by
  rw [Nat.pos_iff_ne_zero, Ne, List.sum_eq_zero_iff]
  constructor
  · intro hne
    simp only [not_forall] at hne
    obtain ⟨n, hn, hpos⟩ := hne
    obtain ⟨m, hm, rfl⟩ := List.mem_map.1 hn
    exact ⟨m, hm, (moves_iff (h m hm)).2 (Nat.pos_of_ne_zero hpos)⟩
  · rintro ⟨m, hm, hmoves⟩ hzero
    have hpos := (moves_iff (h m hm)).1 hmoves
    have hm0 := hzero _ (List.mem_map_of_mem hm)
    omega

/-! ## The table as it should be -/

theorem tabulable_of_buildSymtab {rows : List InstructionRow} {inset : InstructionSet}
    (h : buildSymtab rows = .ok inset) : ∀ row ∈ inset.rows, Tabulable row := by
  obtain ⟨htab, hsame⟩ := (buildSymtabFrom_spec 0 [] rows).2 inset h
  exact (forall_sameCode tabulable_sameCode hsame).1 htab

/-- The address of a recorded row is the offset in front of it. -/
theorem Tabulated.toNat_address {start : Nat} {symtab : List (List Char × Token)}
    {inset : InstructionSet} (h : Tabulated start symtab inset)
    (hfits : offsetBehind start inset.rows < 2 ^ 16) {pre suf : List InstructionRow}
    {row : InstructionRow} (heq : inset.rows = pre ++ row :: suf) {k : List Char} {v : Token}
    (hentry : row.entry = some (k, v)) : v.address.toNat = offsetBehind start pre := by
  rw [heq, offsetBehind_append] at hfits
  rw [h.address pre row suf heq k v hentry]
  show offsetBehind start pre % 2 ^ 16 = offsetBehind start pre
  exact Nat.mod_eq_of_lt (by omega)

theorem entry_ne_none_iff {row : InstructionRow} (h : Tabulable row) {label : Token}
    (hlabel : row.label = some label) :
    (∃ t, row.entry = some (label.value, t)) ↔ row.operands.first ≠ none := by
  obtain ⟨op, hop, -⟩ := h
  rw [Option.ne_none_iff_exists']
  constructor
  · rintro ⟨t, hentry⟩
    obtain ⟨-, x, -, -, -, hx⟩ := entry_eq_some.1 hentry
    exact ⟨x, hx⟩
  · rintro ⟨x, hx⟩
    exact ⟨label, entry_eq_some.2 ⟨op, x, hlabel, rfl, hop, hx⟩⟩

section
variable {inset : InstructionSet} {row row' : InstructionRow} {label label' : Token}
variable {pre mid suf : List InstructionRow}

theorem Between.mem (h : Between inset.rows row row' label label' pre mid suf) :
    row ∈ inset.rows := by
  rw [h.rows_eq]
  simp

theorem Between.mem' (h : Between inset.rows row row' label label' pre mid suf) :
    row' ∈ inset.rows := by
  rw [h.rows_eq]
  simp

/-- **From one recorded row to another the address grows exactly when some row moves the
offset.** -/
theorem Tabulated.address_lt_iff {start : Nat} (h : Tabulated start [] inset)
    (hrows : ∀ row ∈ inset.rows, Tabulable row) (hfits : offsetBehind start inset.rows < 2 ^ 16)
    (hbetween : Between inset.rows row row' label label' pre mid suf) {t t' : Token}
    (hentry : row.entry = some (label.value, t)) (hentry' : row'.entry = some (label'.value, t')) :
    t.address < t'.address ↔ ∃ m ∈ row :: mid, m.Moves := by
  have heq' : inset.rows = (pre ++ row :: mid) ++ row' :: suf := by
    rw [hbetween.rows_eq, List.append_assoc, List.cons_append]
  have haddress := h.toNat_address hfits hbetween.rows_eq hentry
  have haddress' := h.toNat_address hfits heq' hentry'
  have hmid : ∀ m ∈ row :: mid, Tabulable m := by
    intro m hm
    apply hrows
    rw [heq']
    exact List.mem_append_left _ (List.mem_append_right _ hm)
  rw [← sum_pos_iff _ hmid, UInt16.lt_iff_toNat_lt, haddress, haddress', offsetBehind_append]
  omega

end

/-- **The addresses are as they should be exactly when the labelled rows have operands and
stand apart.** -/
theorem increasing_iff {tokens : List Token} {inset : InstructionSet}
    (h : Parse tokens (.ok inset)) (hd : DistinctLabels inset.rows)
    (ho : FromOrigin inset.rows) : Increasing inset ↔ Spaced inset.rows := by
  obtain ⟨rows, -, hb⟩ := parse_ok h
  have htab := buildSymtab_tabulated hb ho.origin
  have hrows := tabulable_of_buildSymtab hb
  constructor
  · intro hinc
    have hin : ∀ row ∈ inset.rows, row.HoldsSpace → ∀ label, row.label = some label →
        ∃ t, row.entry = some (label.value, t) := by
      intro row hrow hholds label hlabel
      obtain ⟨t, ht⟩ := hinc.inTable row hrow hholds label hlabel
      exact ⟨t, (htab.lookup_iff hd hrow hlabel t).1 ht⟩
    refine ⟨?_, ?_⟩
    · intro row hrow hholds hne
      obtain ⟨label, hlabel⟩ := Option.ne_none_iff_exists'.1 hne
      exact (entry_ne_none_iff (hrows row hrow) hlabel).1 (hin row hrow hholds label hlabel)
    · intro row row' label label' pre mid suf hbetween
      obtain ⟨t, ht⟩ := hin row hbetween.mem hbetween.holds label hbetween.label_eq
      obtain ⟨t', ht'⟩ := hin row' hbetween.mem' hbetween.holds' label' hbetween.label_eq'
      apply (htab.address_lt_iff hrows ho.fits hbetween ht ht').1
      apply hinc.increasing hbetween
      · exact (htab.lookup_iff hd hbetween.mem hbetween.label_eq t).2 ht
      · exact (htab.lookup_iff hd hbetween.mem' hbetween.label_eq' t').2 ht'
  · intro hspaced
    refine ⟨?_, ?_⟩
    · intro row hrow hholds label hlabel
      have hx := hspaced.operand row hrow hholds (by rw [hlabel]; simp)
      obtain ⟨t, ht⟩ := (entry_ne_none_iff (hrows row hrow) hlabel).2 hx
      exact ⟨t, (htab.lookup_iff hd hrow hlabel t).2 ht⟩
    · intro row row' label label' pre mid suf hbetween t t' ht ht'
      apply (htab.address_lt_iff hrows ho.fits hbetween ?_ ?_).2 (hspaced.moves hbetween)
      · exact (htab.lookup_iff hd hbetween.mem hbetween.label_eq t).1 ht
      · exact (htab.lookup_iff hd hbetween.mem' hbetween.label_eq' t').1 ht'

/-- Lines of the fixtures, in the source's order: a string, a block and the block behind it. -/
def variableTokens : List Token :=
  [⟨".ORIG".toList, 1, 0⟩, ⟨"x3000".toList, 1, 0⟩,
    ⟨"VAR1".toList, 2, 0⟩, ⟨".STRINGZ".toList, 2, 0⟩, ⟨"\"hello\"".toList, 2, 0⟩,
    ⟨"VAR4".toList, 3, 0⟩, ⟨".BLKW".toList, 3, 0⟩, ⟨"1".toList, 3, 0⟩,
    ⟨"VAR5".toList, 4, 0⟩, ⟨".BLKW".toList, 4, 0⟩, ⟨"1000".toList, 4, 0⟩]

def variableInset : InstructionSet where
  rows :=
    [opRow none ⟨".ORIG".toList, 1, 0⟩ [⟨"x3000".toList, 1, 0⟩],
      opRow (some ⟨"VAR1".toList, 2, 0x3002⟩) ⟨".STRINGZ".toList, 2, 0⟩
        [⟨"\"hello\"".toList, 2, 0⟩],
      opRow (some ⟨"VAR4".toList, 3, 0x3009⟩) ⟨".BLKW".toList, 3, 0⟩ [⟨"1".toList, 3, 0⟩],
      opRow (some ⟨"VAR5".toList, 4, 0x300a⟩) ⟨".BLKW".toList, 4, 0⟩ [⟨"1000".toList, 4, 0⟩]]
  symtab := [("VAR5".toList, ⟨"VAR5".toList, 4, 0x300a⟩),
    ("VAR4".toList, ⟨"VAR4".toList, 3, 0x3009⟩), ("VAR1".toList, ⟨"VAR1".toList, 2, 0x3002⟩)]

theorem parse_variable : Parse variableTokens (.ok variableInset) :=
  @parse_of_fuel 5 _ _ (by decide +kernel)

theorem increasing_iff_variable : Increasing variableInset ↔ Spaced variableInset.rows := by
  refine increasing_iff parse_variable (by unfold DistinctLabels; decide +kernel) ⟨?_, ?_⟩
  · have hvalue : ∀ row ∈ variableInset.rows.tail,
        row.op.map Token.value ≠ some ".ORIG".toList := by
      decide +kernel
    rintro row hrow ⟨op, hop, horigin⟩
    apply hvalue row hrow
    rw [hop, ← horigin]
    rfl
  · decide +kernel

def labelledTokens : List Token :=
  [⟨".ORIG".toList, 1, 0⟩, ⟨"x3000".toList, 1, 0⟩, ⟨"DONE".toList, 2, 0⟩, ⟨"HALT".toList, 2, 0⟩]

def labelledInset : InstructionSet where
  rows := [opRow none ⟨".ORIG".toList, 1, 0⟩ [⟨"x3000".toList, 1, 0⟩],
    opRow (some ⟨"DONE".toList, 2, 0⟩) ⟨"HALT".toList, 2, 0⟩ []]
  symtab := []

/-- The label of a `HALT` is not in the table. -/
theorem not_increasing :
    ¬ ∀ text tokens inset, tokenize text = .ok tokens → Parse tokens (.ok inset) →
      DistinctLabels inset.rows → FromOrigin inset.rows → Increasing inset := by
  intro h
  have htokens : tokenize ".ORIG x3000\nDONE HALT\n".toList = .ok labelledTokens := by
    decide +kernel
  have hparse : Parse labelledTokens (.ok labelledInset) := @parse_of_fuel 3 _ _ (by decide +kernel)
  have horigin : FromOrigin labelledInset.rows := by
    refine ⟨?_, by decide +kernel⟩
    rintro row hrow ⟨op, hop, hvalue⟩
    rw [List.mem_singleton.1 hrow] at hop
    cases hop
    revert hvalue
    decide
  have hinc := h _ _ _ htokens hparse (by unfold DistinctLabels; decide +kernel) horigin
  obtain ⟨t, ht⟩ := hinc.inTable (opRow (some ⟨"DONE".toList, 2, 0⟩) ⟨"HALT".toList, 2, 0⟩ [])
    (by simp [labelledInset]) ⟨_, rfl, .inl (by decide +kernel)⟩ ⟨"DONE".toList, 2, 0⟩ rfl
  cases ht

end Tvm
