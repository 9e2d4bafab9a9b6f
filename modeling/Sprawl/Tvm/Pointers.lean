import Sprawl.Tvm.Rename
import Sprawl.Tvm.Rows

/-!
# Null pointers in the passes

`BuildSymtab` uses `op_` of every row and the operand of an `.ORIG`; `Encode` uses the
operands its format names.  `Parse` leaves `op_` null in a row with a label alone and in a
row with an unknown directive, and operands null where the tokens end.

    NoNull rows ↔ (∀ row ∈ rows, Tabulable row) ∧ LastRead rows      (noNull_iff)

where `LastRead` says that `Encode`, if it gets to the last row at all, finds there what it
reads: it may stop before at a register text that is too short, or at the end of the image.
-/

namespace Tvm

open Cxx Loop

/-- A null pointer was used. -/
def nullUsed : Stop := .undefined .nullPointer

/-- `BuildSymtab` and then `Encode` use no null pointer. -/
def NoNull (rows : List InstructionRow) : Prop :=
  buildSymtab rows ≠ .error nullUsed ∧
    ∀ inset, buildSymtab rows = .ok inset → encode inset ≠ .error nullUsed

/-! ## What reads stop at -/

/-- The text is too short for `StringToRegister`. -/
def Reader.Stops : Reader → Token → Prop
  | dr, t => t.value.length < 2
  | sr1, t => t.value.length < 2
  | last, t => t.type ≠ .NumberLiteral ∧ t.value.length < 2
  | offset, _ => False
  | origin, _ => False

/-- A register text that is too short comes before any null operand. -/
def StopsAtText : List Read → Prop
  | [] => False
  | (none, _) :: _ => False
  | (some t, r) :: reads => r.Stops t ∨ StopsAtText reads

/-- A null operand comes before any register text that is too short. -/
def StopsAtNull : List Read → Prop
  | [] => False
  | (none, _) :: _ => True
  | (some t, r) :: reads => ¬ r.Stops t ∧ StopsAtNull reads

/-- The reads of a row. -/
def InstructionRow.reads (row : InstructionRow) : List Read :=
  match row.format with
  | none => []
  | some f => f.reads row.operands

theorem stringToRegister_cases (s : List Char) :
    s.length < 2 ∧ stringToRegister s = .error .abort ∨
      ¬ s.length < 2 ∧ ∃ v, stringToRegister s = .ok v := by
  rcases s with _ | ⟨c, _ | ⟨d, s⟩⟩
  · exact .inl ⟨by simp, rfl⟩
  · exact .inl ⟨by simp, rfl⟩
  · exact .inr ⟨by simp, _, rfl⟩

theorem read_cases (r : Reader) (t : Token) :
    r.Stops t ∧ r.read t = .error .abort ∨ ¬ r.Stops t ∧ ∃ v, r.read t = .ok v := by
  cases r with
  | dr =>
    rcases stringToRegister_cases t.value with ⟨hlen, hs⟩ | ⟨hlen, v, hs⟩
    · exact .inl ⟨hlen, by rw [Reader.read, hs]; rfl⟩
    · exact .inr ⟨hlen, asDR v, by rw [Reader.read, hs]; rfl⟩
  | sr1 =>
    rcases stringToRegister_cases t.value with ⟨hlen, hs⟩ | ⟨hlen, v, hs⟩
    · exact .inl ⟨hlen, by rw [Reader.read, hs]; rfl⟩
    · exact .inr ⟨hlen, asSR1 v, by rw [Reader.read, hs]; rfl⟩
  | last =>
    rw [Reader.read, encodeLast]
    by_cases htype : t.type = .NumberLiteral
    · rw [if_pos htype]
      exact .inr ⟨fun h => h.1 htype, _, rfl⟩
    · rw [if_neg htype]
      rcases stringToRegister_cases t.value with ⟨hlen, hs⟩ | ⟨hlen, v, hs⟩
      · exact .inl ⟨⟨htype, hlen⟩, hs⟩
      · exact .inr ⟨fun h => hlen h.2, v, hs⟩
  | offset => exact .inr ⟨id, _, rfl⟩
  | origin => exact .inr ⟨id, _, rfl⟩

/-- The three ways the reads of a row can end. -/
theorem encodeReads_cases (reads : List Read) :
    StopsAtText reads ∧ ¬ StopsAtNull reads ∧ encodeReads reads = .error .abort ∨
      ¬ StopsAtText reads ∧ StopsAtNull reads ∧ encodeReads reads = .error nullUsed ∨
      ¬ StopsAtText reads ∧ ¬ StopsAtNull reads ∧ ∃ w, encodeReads reads = .ok w := by
  induction reads with
  | nil => exact .inr (.inr ⟨id, id, _, rfl⟩)
  | cons p reads ih =>
    obtain ⟨o, r⟩ := p
    cases o with
    | none => exact .inr (.inl ⟨id, trivial, rfl⟩)
    | some t =>
      unfold StopsAtText StopsAtNull
      rw [encodeReads, deref_some, ok_bind]
      rcases read_cases r t with ⟨hstop, hread⟩ | ⟨hgo, v, hread⟩
      · exact .inl ⟨.inl hstop, fun h => h.1 hstop, by rw [hread]; rfl⟩
      · rw [hread, ok_bind]
        rcases ih with ⟨htext, hnull, he⟩ | ⟨htext, hnull, he⟩ | ⟨htext, hnull, w, he⟩
        · exact .inl ⟨.inr htext, fun h => hnull h.2, by rw [he]; rfl⟩
        · exact .inr (.inl ⟨fun h => h.elim hgo htext, ⟨hgo, hnull⟩, by rw [he]; rfl⟩)
        · exact .inr (.inr ⟨fun h => h.elim hgo htext, fun h => hnull h.2, v ||| w, by
            rw [he]; rfl⟩)

theorem encodeRow_cases (row : InstructionRow) :
    StopsAtText row.reads ∧ ¬ StopsAtNull row.reads ∧ encodeRow row = .error .abort ∨
      ¬ StopsAtText row.reads ∧ StopsAtNull row.reads ∧ encodeRow row = .error nullUsed ∨
      ¬ StopsAtText row.reads ∧ ¬ StopsAtNull row.reads ∧ ∃ o, encodeRow row = .ok o := by
  rw [encodeRow_reads]
  unfold InstructionRow.reads
  cases row.format with
  | none => exact .inr (.inr ⟨id, id, none, rfl⟩)
  | some f =>
    simp only [Format.encode]
    rcases encodeReads_cases (f.reads row.operands) with
      ⟨h1, h2, he⟩ | ⟨h1, h2, he⟩ | ⟨h1, h2, w, he⟩
    · exact .inl ⟨h1, h2, by rw [he]; rfl⟩
    · exact .inr (.inl ⟨h1, h2, by rw [he]; rfl⟩)
    · exact .inr (.inr ⟨h1, h2, some (f.bits ||| w), by rw [he]; rfl⟩)

/-! ## The rows before the last one hold what is read -/

/-- The format reads the first `n` operands only. -/
def Format.within (n : Nat) (f : Format) : Bool := f.readers.all fun p => p.1.val < n

/-- No operation reads an operand that is not taken behind it. -/
theorem format_within {op : Token} {n : Nat} {f : Format} (harity : op.arity = some n)
    (hf : formats.lookup op.value = some f) : f.within n = true := by
  have hknown : ∀ v ∈ knownSegments, (formats.lookup v).all (Format.within 1) := by decide
  have hthree : ∀ v ∈ takesThree, (formats.lookup v).all (Format.within 3) := by decide
  have hnone : ∀ v ∈ takesNone, (formats.lookup v).all (Format.within 0) := by decide
  have hone : ∀ v ∈ takesOne, (formats.lookup v).all (Format.within 1) := by decide
  have htwo : ∀ v ∈ takesTwo, (formats.lookup v).all (Format.within 2) := by decide
  have hend : formats.lookup ".END".toList = none := by decide
  have hof : ∀ m, (formats.lookup op.value).all (Format.within m) = true → f.within m = true := by
    intro m h
    rw [hf] at h
    exact h
  unfold Token.arity at harity
  split at harity
  · unfold segmentArity at harity
    split_ifs at harity with h1 h2
    · rw [h1, hend] at hf
      cases hf
    · cases harity
      exact hof 1 (hknown _ h2)
  · unfold instructionArity at harity
    split_ifs at harity with h1 h2 h3 h4 <;> cases harity
    · exact hof 3 (hthree _ h1)
    · exact hof 0 (hnone _ h2)
    · exact hof 1 (hone _ h3)
    · exact hof 2 (htwo _ h4)
  · cases harity

theorem operandsOf_get (ts : List Token) (i : Fin 3) : (operandsOf ts).get i = ts[i.val]? := by
  fin_cases i <;> rfl

theorem not_stopsAtNull {reads : List Read} (h : ∀ p ∈ reads, p.1 ≠ none) :
    ¬ StopsAtNull reads := by
  induction reads with
  | nil => exact id
  | cons p reads ih =>
    obtain ⟨hp, hreads⟩ := List.forall_mem_cons.1 h
    obtain ⟨o, r⟩ := p
    cases o with
    | none => exact absurd rfl hp
    | some t => exact fun hnull => ih hreads hnull.2

/-- A row without an operation reads nothing. -/
theorem reads_of_op_none {row : InstructionRow} (h : row.op = none) : row.reads = [] := by
  unfold InstructionRow.reads InstructionRow.format
  rw [h]
  rfl

/-- What is read of a row is read from the tokens behind its operation. -/
theorem mem_reads_opRow {label : Option Token} {op : Token} {ts : List Token} {p : Read}
    (hp : p ∈ (opRow label op ts).reads) : ∃ f i, formats.lookup op.value = some f ∧
      (i, p.2) ∈ f.readers ∧ p.1 = ts[i.val]? := by
  unfold InstructionRow.reads InstructionRow.format at hp
  simp only [opRow, Option.bind_eq_bind, Option.bind_some] at hp
  cases hf : formats.lookup op.value with
  | none =>
    rw [hf] at hp
    cases hp
  | some f =>
    rw [hf] at hp
    obtain ⟨q, hq, rfl⟩ := List.mem_map.1 hp
    exact ⟨f, q.1, rfl, hq, operandsOf_get ts q.1⟩

/-- An operation that got all its operands finds what it reads. -/
theorem opRow_complete {label : Option Token} {op : Token} {n : Nat} {rest : List Token}
    (harity : op.arity = some n) (hn : n ≤ rest.length) :
    ¬ StopsAtNull (opRow label op (rest.take n)).reads := by
  refine not_stopsAtNull fun p hp => ?_
  obtain ⟨f, i, hf, hi, hpi⟩ := mem_reads_opRow hp
  have hlt : i.val < n := by
    have h := List.all_eq_true.1 (format_within harity hf) (i, p.2) hi
    simpa using h
  rw [hpi, List.getElem?_take_of_lt hlt]
  intro hnone
  rw [List.getElem?_eq_none_iff] at hnone
  omega

theorem Takes.ne_nil {rest : List Token} {o : Option InstructionRow} (h : Takes [] o rest) :
    False := by
  cases h with
  | op _ _ htokens => simp at htokens
  | directive _ _ _ htokens => simp at htokens
  | stuck _ _ htokens => simp at htokens

/-- A row behind which tokens are left finds what it reads. -/
theorem Takes.complete {tokens rest : List Token} {row : InstructionRow}
    (h : Takes tokens (some row) rest) (hne : rest ≠ []) : ¬ StopsAtNull row.reads := by
  cases h with
  | loneLabel _ _ _ => rw [reads_of_op_none rfl]; exact id
  | @op label op n _ rest _ harity _ =>
    refine opRow_complete harity ?_
    by_contra hlt
    exact hne (List.drop_eq_nil_of_le (by omega))
  | directive _ _ _ _ => rw [reads_of_op_none rfl]; exact id
  | stuck _ _ _ => rw [reads_of_op_none rfl]; exact id

/-- **Only the last row can lack an operand that is read.** -/
theorem RowsOf.complete {tokens : List Token} {rows : List InstructionRow}
    (h : RowsOf tokens rows) :
    ∀ pre row suf, rows = pre ++ row :: suf → suf ≠ [] → ¬ StopsAtNull row.reads := by
  induction h with
  | nil =>
    intro pre row suf heq
    simp at heq
  | @turn tokens rest o rows htakes hrows ih =>
    intro pre row suf heq hne
    cases o with
    | none => exact ih pre row suf heq hne
    | some r =>
      rcases List.cons_eq_append_iff.1 heq with ⟨rfl, hcons⟩ | ⟨pre', rfl, hrest⟩
      · cases hcons
        refine htakes.complete ?_
        rintro rfl
        cases hrows with
        | nil => exact hne rfl
        | turn htakes' _ => exact htakes'.ne_nil
      · exact ih pre' row suf hrest hne

/-! ## What `Encode` reaches -/

/-- What `Encode` does with a row while the image is not overfull. -/
inductive EncodeStep (img : Image) (row : InstructionRow) (rows : List InstructionRow) : Prop
  | text (htext : StopsAtText row.reads) (hnull : ¬ StopsAtNull row.reads)
      (hrun : encodeRows img (row :: rows) = .error .abort)
  | null (htext : ¬ StopsAtText row.reads) (hnull : StopsAtNull row.reads)
      (hrun : encodeRows img (row :: rows) = .error nullUsed)
  | full (htext : ¬ StopsAtText row.reads) (hnull : ¬ StopsAtNull row.reads)
      (hfull : kImageSize < img.len + if row.emits then 1 else 0)
      (hrun : encodeRows img (row :: rows) = .error (.undefined .outOfBounds))
  | next (htext : ¬ StopsAtText row.reads) (hnull : ¬ StopsAtNull row.reads) (img' : Image)
      (hlen : img'.len = img.len + if row.emits then 1 else 0) (hle : img'.len ≤ kImageSize)
      (hrun : encodeRows img (row :: rows) = encodeRows img' rows)

theorem encodeStep (row : InstructionRow) (rows : List InstructionRow) {img : Image}
    (himg : img.len ≤ kImageSize) : EncodeStep img row rows := by
  rcases encodeRow_cases row with ⟨htext, hnull, he⟩ | ⟨htext, hnull, he⟩ | ⟨htext, hnull, o, he⟩
  · exact .text htext hnull (by rw [encodeRows, he]; rfl)
  · exact .null htext hnull (by rw [encodeRows, he]; rfl)
  · have hemits := encodeRow_isSome he
    cases o with
    | none => exact .next htext hnull img (by rw [← hemits]; rfl) himg (by rw [encodeRows, he]; rfl)
    | some w =>
      have hrun : encodeRows img (row :: rows) = img.push w >>= fun img => encodeRows img rows := by
        rw [encodeRows, he]
        rfl
      by_cases hlt : img.len < kImageSize
      · obtain ⟨img', hpush⟩ := Image.push_of_lt w hlt
        obtain ⟨-, hlen, hle⟩ := Image.words_push hpush
        exact .next htext hnull img' (by rw [← hemits]; exact hlen) hle
          (by rw [hrun, hpush, ok_bind])
      · -- the array is full
        have hpush : img.push w = .error (.undefined .outOfBounds) := dif_neg hlt
        exact .full htext hnull (by rw [← hemits]; exact Nat.lt_succ_of_le (Nat.le_of_not_lt hlt))
          (by rw [hrun, hpush]; rfl)

theorem countP_emits_cons (len : Nat) (row : InstructionRow) (rows : List InstructionRow) :
    len + (row :: rows).countP InstructionRow.emits =
      (len + if row.emits then 1 else 0) + rows.countP InstructionRow.emits := by
  rw [List.countP_cons]
  omega

/-- Behind `len` words there is room up to a row that lacks an operand, and nothing stops
`Encode` before it. -/
def NullBehind (len : Nat) (rows : List InstructionRow) : Prop :=
  ∃ (pre : List InstructionRow) (row : InstructionRow) (suf : List InstructionRow),
    rows = pre ++ row :: suf ∧ StopsAtNull row.reads ∧
      (∀ r ∈ pre, ¬ StopsAtText r.reads ∧ ¬ StopsAtNull r.reads) ∧
      len + pre.countP InstructionRow.emits ≤ kImageSize

/-- A row that lacks nothing takes room for its word. -/
theorem nullBehind_cons_iff {len : Nat} {row : InstructionRow} (rows : List InstructionRow)
    (hnull : ¬ StopsAtNull row.reads) :
    NullBehind len (row :: rows) ↔
      ¬ StopsAtText row.reads ∧ NullBehind (len + if row.emits then 1 else 0) rows := by
  constructor
  · rintro ⟨pre, row', suf, heq, hrow', hpre, hlen⟩
    rcases List.cons_eq_append_iff.1 heq with ⟨rfl, hcons⟩ | ⟨pre', rfl, hrest⟩
    · cases hcons
      exact absurd hrow' hnull
    · obtain ⟨hhead, htail⟩ := List.forall_mem_cons.1 hpre
      rw [countP_emits_cons] at hlen
      exact ⟨hhead.1, pre', row', suf, hrest, hrow', htail, hlen⟩
  · rintro ⟨htext, pre, row', suf, rfl, hrow', hpre, hlen⟩
    refine ⟨row :: pre, row', suf, rfl, hrow', List.forall_mem_cons.2 ⟨⟨htext, hnull⟩, hpre⟩, ?_⟩
    rwa [countP_emits_cons]

/-- `Encode` uses a null operand exactly when it gets to a row that lacks one. -/
theorem encodeRows_null_iff (rows : List InstructionRow) {img : Image}
    (himg : img.len ≤ kImageSize) :
    encodeRows img rows = .error nullUsed ↔ NullBehind img.len rows := by
  induction rows generalizing img with
  | nil => simp [encodeRows, NullBehind]
  | cons row rows ih =>
    cases encodeStep row rows himg with
    | text htext hnull hrun =>
      rw [nullBehind_cons_iff rows hnull, hrun]
      exact iff_of_false (by intro h; cases h) fun h => h.1 htext
    | null _ hnull hrun =>
      exact iff_of_true hrun ⟨[], row, rows, rfl, hnull, by simp, himg⟩
    | full _ hnull hfull hrun =>
      rw [nullBehind_cons_iff rows hnull, hrun]
      refine iff_of_false (by intro h; cases h) ?_
      rintro ⟨-, pre, _, _, _, _, _, hlen⟩
      omega
    | next htext hnull img' hlen hle hrun =>
      rw [nullBehind_cons_iff rows hnull, hrun, and_iff_right htext, ih hle, hlen]

/-- `Encode`, if it gets to the last row, finds there what it reads. -/
def LastRead (rows : List InstructionRow) : Prop :=
  ∀ pre row, rows = pre ++ [row] → (∀ r ∈ pre, ¬ StopsAtText r.reads) →
    pre.countP InstructionRow.emits ≤ kImageSize → ¬ StopsAtNull row.reads

theorem originOffset_error {row : InstructionRow} {offset : Nat} {e : Stop}
    (h : originOffset row offset = .error e) : e = nullUsed := by
  unfold originOffset at h
  cases hop : row.op with
  | none =>
    rw [hop] at h
    cases h
    rfl
  | some op =>
    rw [hop, deref_some, ok_bind] at h
    split at h
    · cases hx : row.operands.first with
      | none =>
        rw [hx] at h
        cases h
        rfl
      | some x =>
        rw [hx] at h
        cases h
    · cases h

/-- `BuildSymtab` stops at nothing else. -/
theorem buildSymtabFrom_error {rows : List InstructionRow} {offset : Nat}
    {symtab : List (List Char × Token)} {e : Stop}
    (h : buildSymtabFrom offset symtab rows = .error e) : e = nullUsed := by
  induction rows generalizing offset symtab with
  | nil => cases h
  | cons row rows ih =>
    rw [buildSymtabFrom] at h
    cases hrow : symtabRow offset row with
    | error e' =>
      rw [hrow] at h
      cases h
      unfold symtabRow at hrow
      cases horigin : originOffset row offset with
      | error e' =>
        rw [horigin] at hrow
        cases hrow
        exact originOffset_error horigin
      | ok o =>
        rw [horigin, ok_bind] at hrow
        split at hrow <;> cases hrow
    | ok p =>
      obtain ⟨row', entry, o⟩ := p
      rw [hrow, ok_bind] at h
      cases hrest : buildSymtabFrom o (entry.toList ++ symtab) rows with
      | error e' =>
        simp only [hrest] at h
        cases h
        exact ih hrest
      | ok inset =>
        simp only [hrest] at h
        cases h

theorem buildSymtab_ne_null_iff (rows : List InstructionRow) :
    buildSymtab rows ≠ .error nullUsed ↔ ∀ row ∈ rows, Tabulable row := by
  obtain ⟨hok, hback⟩ := buildSymtabFrom_spec 0 [] rows
  constructor
  · intro hne
    cases hb : buildSymtab rows with
    | error e => exact absurd (hb.trans (congrArg Except.error (buildSymtabFrom_error hb))) hne
    | ok inset => exact (hback inset hb).1
  · intro h
    obtain ⟨inset, hinset⟩ := hok h
    unfold buildSymtab
    rw [hinset]
    intro herror
    cases herror

theorem encodeRows_sameCode {rows rows' : List InstructionRow}
    (h : List.Forall₂ SameCode rows rows') (img : Image) :
    encodeRows img rows = encodeRows img rows' := by
  induction h generalizing img with
  | nil => rfl
  | cons hr _ ih =>
    rw [encodeRows, encodeRows, encodeRow_sameCode hr]
    refine bind_congr fun o => ?_
    cases o with
    | none => exact ih img
    | some w => exact bind_congr fun img' => ih img'

/-- `BuildSymtab` changes nothing that `Encode` looks at. -/
theorem encode_buildSymtab {rows : List InstructionRow} {inset : InstructionSet}
    (h : buildSymtab rows = .ok inset) : encode inset = encodeRows .empty rows := by
  obtain ⟨-, hsame⟩ := (buildSymtabFrom_spec 0 [] rows).2 inset h
  exact (encodeRows_sameCode hsame .empty).symm

/-- **No null pointer is used exactly when every row has its operation, an origin its operand,
and the last row what `Encode` reads there.** -/
theorem noNull_iff {tokens : List Token} {rows : List InstructionRow}
    (h : ParseRows tokens (.ok rows)) :
    NoNull rows ↔ (∀ row ∈ rows, Tabulable row) ∧ LastRead rows := by
  have hcomplete := (rowsOf_of_parseRows h).complete
  have hempty : Image.empty.len ≤ kImageSize := Nat.zero_le _
  unfold NoNull
  rw [buildSymtab_ne_null_iff]
  refine and_congr_right fun htab => ?_
  obtain ⟨inset, hinset⟩ := (buildSymtabFrom_spec 0 [] rows).1 htab
  have hencode : (∀ inset, buildSymtab rows = .ok inset → encode inset ≠ .error nullUsed) ↔
      encodeRows .empty rows ≠ .error nullUsed := by
    constructor
    · intro hall
      rw [← encode_buildSymtab hinset]
      exact hall inset hinset
    · intro hne inset' hinset'
      rw [encode_buildSymtab hinset']
      exact hne
  rw [hencode, Ne, encodeRows_null_iff rows hempty]
  have hzero : ∀ n, Image.empty.len + n = n := Nat.zero_add
  unfold NullBehind
  simp only [hzero]
  constructor
  · rintro hnone pre row rfl htext hlen hnull
    refine hnone ⟨pre, row, [], rfl, hnull, fun r hr => ⟨htext r hr, ?_⟩, hlen⟩
    -- a row before the last one lacks nothing
    obtain ⟨pre₁, pre₂, rfl⟩ := List.append_of_mem hr
    exact hcomplete pre₁ r (pre₂ ++ [row]) (by simp) (by simp)
  · rintro hlast ⟨pre, row, suf, rfl, hnull, hpre, hlen⟩
    by_cases hsuf : suf = []
    · subst hsuf
      exact hlast pre row rfl (fun r hr => (hpre r hr).1) hlen hnull
    · exact hcomplete pre row suf rfl hsuf hnull

/-- A line of the fixtures: `SIX .FILL x0006`. -/
def fillTokens : List Token :=
  [⟨".ORIG".toList, 1, 0⟩, ⟨"x3050".toList, 1, 0⟩, ⟨"SIX".toList, 2, 0⟩, ⟨".FILL".toList, 2, 0⟩,
    ⟨"x0006".toList, 2, 0⟩]

def fillRows : List InstructionRow :=
  [opRow none ⟨".ORIG".toList, 1, 0⟩ [⟨"x3050".toList, 1, 0⟩],
    { label := some ⟨".FILL".toList, 2, 0⟩, operands := operandsOf [⟨"x0006".toList, 2, 0⟩] }]

theorem parseRows_fill : ParseRows fillTokens (.ok fillRows) := ⟨3, by decide +kernel⟩

theorem noNull_iff_fill :
    NoNull fillRows ↔ (∀ row ∈ fillRows, Tabulable row) ∧ LastRead fillRows :=
  noNull_iff parseRows_fill

/-- On a line of the fixtures `BuildSymtab` uses the null operation of an unknown directive. -/
theorem not_noNull :
    ¬ ∀ text tokens rows, tokenize text = .ok tokens → ParseRows tokens (.ok rows) →
      NoNull rows := by
  intro h
  have htokens : tokenize ".ORIG x3050\nSIX .FILL x0006\n".toList = .ok fillTokens := by
    decide +kernel
  have hnull := (h _ fillTokens fillRows htokens parseRows_fill).1
  exact hnull (by decide +kernel)

end Tvm
