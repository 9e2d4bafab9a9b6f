import Sprawl.Tvm.Parse

/-!
# What `Parse` takes

The grammar behind the row loop.  `Takes tokens o rest` says what one turn makes of the
tokens: an optional label, an operation and as many operands as its name asks for
(`Token.arity`), fewer only where the tokens end; or one of the odd shapes: a label alone,
an unknown directive in the label's place, an instruction that no branch handles.

`parseRow_takes` is the inversion of a turn, `RowsOf` a whole run of turns:

    ParseRows tokens (.ok rows) → RowsOf tokens rows      (rowsOf_of_parseRows)
-/

namespace Tvm

open Cxx Loop RegExp

/-! ## The mnemonics -/

theorem classify_opText : ∀ w ∈ instructionWords, classify w = .Instruction := by
  decide +kernel

/-- The classifier accepts exactly the names of the list. -/
theorem instruction_mem {t : Token} (h : t.type = .Instruction) : t.value ∈ instructionWords := by
  have hm : t.value ∈ kInstruction.matches' := classify_pattern (by rw [← Token.type, h]; rfl)
  exact (mem_anyWord _ _).1 hm

/-- The directives `parse_segment` knows, `.END` apart. -/
def knownSegments : List (List Char) := [".ORIG", ".STRINGZ", ".BLKW"].map String.toList

/-- How many operands `parse_segment` takes behind a directive it knows. -/
def segmentArity (value : List Char) : Option Nat :=
  if value = ".END".toList then some 0 else if value ∈ knownSegments then some 1 else none

/-- How many operands `parse_instruction` takes behind a name it handles. -/
def instructionArity (value : List Char) : Option Nat :=
  if value ∈ takesThree then some 3 else if value ∈ takesNone then some 0
  else if value ∈ takesOne then some 1 else if value ∈ takesTwo then some 2 else none

def Token.arity (t : Token) : Option Nat :=
  match t.type with
  | .Segment => segmentArity t.value
  | .Instruction => instructionArity t.value
  | _ => none

theorem Token.arity_segment {t : Token} (h : t.type = .Segment) :
    t.arity = segmentArity t.value := by
  rw [Token.arity, h]

theorem Token.arity_instruction {t : Token} (h : t.type = .Instruction) :
    t.arity = instructionArity t.value := by
  rw [Token.arity, h]

theorem arity_le {t : Token} {n : Nat} (h : t.arity = some n) : n ≤ 3 := by
  unfold Token.arity segmentArity instructionArity at h
  split at h
  · split_ifs at h <;> simp only [Option.some.injEq] at h <;> omega
  · split_ifs at h <;> simp only [Option.some.injEq] at h <;> omega
  · cases h

/-- The names of `kInstruction` that no branch of `Parse` handles. -/
def unhandled : List (List Char) := ["JMP", "LDI"].map String.toList

theorem arity_eq_none_iff {t : Token} (h : t.type = .Instruction) :
    t.arity = none ↔ t.value ∈ unhandled := by
  have hall : ∀ w ∈ instructionWords, instructionArity w = none ↔ w ∈ unhandled := by decide
  rw [t.arity_instruction h]
  exact hall t.value (instruction_mem h)

theorem type_of_unhandled {t : Token} (h : t.value ∈ unhandled) : t.type = .Instruction := by
  have hall : ∀ w ∈ unhandled, w ∈ instructionWords := by decide
  exact classify_opText t.value (hall t.value h)

/-! ## One turn -/

/-- The operands a row holds when these tokens are assigned. -/
def operandsOf (ts : List Token) : Operands := #v[ts[0]?, ts[1]?, ts[2]?]

/-- A row with a label, an operation and the tokens behind it. -/
def opRow (label : Option Token) (op : Token) (ts : List Token) : InstructionRow :=
  { label, op := some op, operands := operandsOf ts }

/-- What one turn takes: the row it pushes, if it pushes one, and the tokens left. -/
inductive Takes : List Token → Option InstructionRow → List Token → Prop
  /-- The label the tokens end with. -/
  | lastLabel {l : Token} : l.type = .Label → Takes [l] none []
  /-- A label without an operation. -/
  | loneLabel {l u : Token} {rest : List Token} : l.type = .Label → u.type ≠ .Instruction →
      u.type ≠ .Segment → Takes (l :: u :: rest) (some { label := some l }) (u :: rest)
  /-- An operation and its operands. -/
  | op {label : Option Token} {op : Token} {n : Nat} {tokens rest : List Token} :
      (∀ l ∈ label, l.type = .Label) → op.arity = some n → tokens = label.toList ++ op :: rest →
      Takes tokens (some (opRow label op (rest.take n))) (rest.drop n)
  /-- A directive that is not known stands in the row as its label. -/
  | directive {label : Option Token} {d : Token} {tokens rest : List Token} :
      (∀ l ∈ label, l.type = .Label) → d.type = .Segment → d.arity = none →
      tokens = label.toList ++ d :: rest →
      Takes tokens (some { label := some d, operands := operandsOf (rest.take 1) }) (rest.drop 1)
  /-- An instruction that is not handled is left where it is. -/
  | stuck {label : Option Token} {t : Token} {tokens rest : List Token} :
      (∀ l ∈ label, l.type = .Label) → t.value ∈ unhandled → tokens = label.toList ++ t :: rest →
      Takes tokens (some { label }) (t :: rest)

/-- The cursor behind `n` operands. -/
def behind (label : Option Token) (op : Token) (n : Nat) (rest : List Token) : Cursor :=
  { row := opRow label op (rest.take n), it := rest.drop n }

theorem parseInstruction_eq (label : Option Token) {t : Token} (rest : List Token) {n : Nat}
    (h : instructionArity t.value = some n) :
    parseInstruction { row := { label }, it := t :: rest } t = behind label t n rest := by
  unfold instructionArity at h
  unfold parseInstruction
  split_ifs at h ⊢ with h3 h0 h1 h2 <;> cases h
  · rcases rest with _ | ⟨a, _ | ⟨b, _ | ⟨c, rest⟩⟩⟩ <;> rfl
  · rfl
  · rcases rest with _ | ⟨a, rest⟩ <;> rfl
  · rcases rest with _ | ⟨a, _ | ⟨b, rest⟩⟩ <;> rfl

theorem parseInstruction_unhandled (k : Cursor) {t : Token} (h : instructionArity t.value = none) :
    parseInstruction k t = k := by
  unfold instructionArity at h
  unfold parseInstruction
  split_ifs at h ⊢
  rfl

theorem parseSegment_eq (label : Option Token) {t : Token} (rest : List Token) {n : Nat}
    (h : segmentArity t.value = some n) :
    parseSegment { row := { label }, it := t :: rest } t = behind label t n rest := by
  unfold segmentArity knownSegments at h
  unfold parseSegment
  split_ifs at h ⊢ with hend hknown <;> cases h
  · rfl
  · rcases rest with _ | ⟨a, rest⟩ <;> rfl

theorem parseSegment_unknown (label : Option Token) {t : Token} (rest : List Token)
    (h : segmentArity t.value = none) :
    parseSegment { row := { label }, it := t :: rest } t =
      { row := { label := some t, operands := operandsOf (rest.take 1) }, it := rest.drop 1 } := by
  unfold segmentArity knownSegments at h
  unfold parseSegment
  split_ifs at h ⊢
  rcases rest with _ | ⟨a, rest⟩ <;> rfl

/-- The two `goto`s, and the cases they lead to. -/
theorem takes_head {label : Option Token} (hlabel : ∀ l ∈ label, l.type = .Label) {t : Token}
    (rest : List Token) {k : Cursor}
    (h : (t.type = .Instruction ∧ k = parseInstruction { row := { label }, it := t :: rest } t) ∨
      t.type = .Segment ∧ k = parseSegment { row := { label }, it := t :: rest } t) :
    Takes (label.toList ++ t :: rest) (some k.row) k.it := by
  rcases h with ⟨htype, rfl⟩ | ⟨htype, rfl⟩
  · have harity := t.arity_instruction htype
    cases hn : instructionArity t.value with
    | none =>
      rw [parseInstruction_unhandled _ hn]
      rw [hn] at harity
      exact .stuck hlabel ((arity_eq_none_iff htype).1 harity) rfl
    | some n =>
      rw [parseInstruction_eq label rest hn]
      rw [hn] at harity
      exact .op hlabel harity rfl
  · have harity := t.arity_segment htype
    cases hn : segmentArity t.value with
    | none =>
      rw [parseSegment_unknown label rest hn]
      rw [hn] at harity
      exact .directive hlabel htype harity rfl
    | some n =>
      rw [parseSegment_eq label rest hn]
      rw [hn] at harity
      exact .op hlabel harity rfl

/-- **What a turn takes.** -/
theorem parseRow_takes {t : Token} {it rest : List Token} {o : Option InstructionRow}
    (h : parseRow t it = .ok (o, rest)) : Takes (t :: it) o rest := by
  unfold parseRow at h
  cases ht : t.type with
  | Segment =>
    simp only [ht] at h
    cases h
    exact @takes_head none (by simp) t it _ (.inr ⟨ht, rfl⟩)
  | Instruction =>
    simp only [ht] at h
    cases h
    exact @takes_head none (by simp) t it _ (.inl ⟨ht, rfl⟩)
  | Label =>
    simp only [ht] at h
    cases it with
    | nil =>
      cases h
      exact .lastLabel ht
    | cons u it =>
      cases h
      have hlabel : ∀ l ∈ some t, l.type = .Label := by
        rintro l ⟨⟩
        exact ht
      show Takes (t :: u :: it)
        (some (parseLabelled { row := { label := some t }, it := u :: it } u).row)
        (parseLabelled { row := { label := some t }, it := u :: it } u).it
      unfold parseLabelled
      split
      · next hu => exact takes_head hlabel it (.inl ⟨hu, rfl⟩)
      · next hu => exact takes_head hlabel it (.inr ⟨hu, rfl⟩)
      · next hi hs => exact .loneLabel ht hi hs
  | _ =>
    simp only [ht] at h
    cases h

/-! ## A run of turns -/

/-- The rows of the tokens. -/
inductive RowsOf : List Token → List InstructionRow → Prop
  | nil : RowsOf [] []
  | turn {tokens rest : List Token} {o : Option InstructionRow} {rows : List InstructionRow} :
      Takes tokens o rest → RowsOf rest rows → RowsOf tokens (o.toList ++ rows)

/-- A turn that goes round again. -/
theorem parseBody_again {s s' : List InstructionRow × List Token} (h : parseBody s = .again s') :
    ∃ o, Takes s.2 o s'.2 ∧ s'.1 = s.1 ++ o.toList := by
  obtain ⟨rows, tokens⟩ := s
  unfold parseBody at h
  cases tokens with
  | nil => cases h
  | cons t it =>
    simp only at h
    cases hr : parseRow t it with
    | error e =>
      rw [hr] at h
      cases h
    | ok p =>
      obtain ⟨o, rest⟩ := p
      rw [hr] at h
      cases o with
      | none =>
        cases h
        exact ⟨none, parseRow_takes hr, (List.append_nil _).symm⟩
      | some row =>
        cases h
        exact ⟨some row, parseRow_takes hr, rfl⟩

/-- A turn that returns rows has no tokens left. -/
theorem parseBody_done {s : List InstructionRow × List Token} {rows : List InstructionRow}
    (h : parseBody s = .done (.ok rows)) : s = (rows, []) := by
  obtain ⟨rows', tokens⟩ := s
  unfold parseBody at h
  cases tokens with
  | nil =>
    cases h
    rfl
  | cons t it =>
    simp only at h
    cases hr : parseRow t it with
    | error e =>
      rw [hr] at h
      cases h
    | ok p =>
      obtain ⟨o, rest⟩ := p
      rw [hr] at h
      cases o <;> cases h

/-- **The rows the loop returns are the rows of the tokens.** -/
theorem rowsOf_of_parseRows {tokens : List Token} {rows : List InstructionRow}
    (h : ParseRows tokens (.ok rows)) : RowsOf tokens rows := by
  have hgen : ∀ (n : Nat) (s : List InstructionRow × List Token),
      iterate parseBody n s = some (.ok rows) →
        ∃ rows', rows = s.1 ++ rows' ∧ RowsOf s.2 rows' := by
    intro n
    induction n with
    | zero =>
      intro s hn
      cases hn
    | succ n ih =>
      intro s hn
      cases hb : parseBody s with
      | done r =>
        rw [iterate_succ_done hb, Option.some.injEq] at hn
        subst hn
        rw [parseBody_done hb]
        exact ⟨[], (List.append_nil _).symm, .nil⟩
      | again s' =>
        rw [iterate_succ_again hb] at hn
        obtain ⟨rows', hrows, hof⟩ := ih s' hn
        obtain ⟨o, htakes, happend⟩ := parseBody_again hb
        refine ⟨o.toList ++ rows', ?_, .turn htakes hof⟩
        rw [hrows, happend, List.append_assoc]
  obtain ⟨n, hn⟩ := h
  obtain ⟨rows', hrows, hof⟩ := hgen n ([], tokens) hn
  rw [List.nil_append] at hrows
  rw [hrows]
  exact hof

/-! ## Progress -/

theorem not_unhandled_of_ne {t : Token} (h : t.type ≠ .Instruction) : t.value ∉ unhandled :=
  fun hmem => h (type_of_unhandled hmem)

theorem not_unhandled_of_arity {t : Token} {n : Nat} (h : t.arity = some n) :
    t.value ∉ unhandled := by
  intro hmem
  rw [(arity_eq_none_iff (type_of_unhandled hmem)).2 hmem] at h
  cases h

/-- A label that was taken is progress. -/
theorem label_not_unhandled {l : Token} (h : l.type = .Label) : l.value ∉ unhandled :=
  not_unhandled_of_ne (by rw [h]; decide)

/-- **A turn takes a token unless the first one is an instruction that is not handled.** -/
theorem Takes.progress {tokens rest : List Token} {o : Option InstructionRow}
    (h : Takes tokens o rest) :
    rest.length < tokens.length ↔ ∀ t ∈ tokens.head?, t.value ∉ unhandled := by
  have hlabelled : ∀ {l t : Token} {it rest : List Token}, l.type = .Label →
      rest.length ≤ (t :: it).length →
      (rest.length < (l :: t :: it).length ↔ ∀ u ∈ (l :: t :: it).head?, u.value ∉ unhandled) := by
    intro l t it rest hl hle
    refine iff_of_true (Nat.lt_succ_of_le hle) ?_
    rintro u ⟨⟩
    exact label_not_unhandled hl
  cases h with
  | lastLabel hl =>
    refine iff_of_true Nat.one_pos ?_
    rintro u ⟨⟩
    exact label_not_unhandled hl
  | loneLabel hl _ _ => exact hlabelled hl (Nat.le_refl _)
  | @op label op n _ rest hlabel harity htokens =>
    subst htokens
    cases label with
    | none =>
      refine iff_of_true (Nat.lt_succ_of_le (List.drop_sublist n rest).length_le) ?_
      rintro u ⟨⟩
      exact not_unhandled_of_arity harity
    | some l =>
      exact hlabelled (hlabel l rfl) (Nat.le_succ_of_le (List.drop_sublist n rest).length_le)
  | @directive label d _ rest hlabel hd _ htokens =>
    subst htokens
    cases label with
    | none =>
      refine iff_of_true (Nat.lt_succ_of_le (List.drop_sublist 1 rest).length_le) ?_
      rintro u ⟨⟩
      exact not_unhandled_of_ne (by rw [hd]; decide)
    | some l =>
      exact hlabelled (hlabel l rfl) (Nat.le_succ_of_le (List.drop_sublist 1 rest).length_le)
  | @stuck label t _ rest hlabel ht htokens =>
    subst htokens
    cases label with
    | none => exact iff_of_false (Nat.lt_irrefl _) fun hall => hall t rfl ht
    | some l => exact hlabelled (hlabel l rfl) (Nat.le_refl _)

/-- On an instruction that is not handled the loop pushes an empty row, and again. -/
theorem parseBody_unhandled {t : Token} (rows : List InstructionRow) (it : List Token)
    (h : t.value ∈ unhandled) :
    parseBody (rows, t :: it) = .again (rows ++ [{ label := none }], t :: it) := by
  have htype := type_of_unhandled h
  have harity := (arity_eq_none_iff htype).2 h
  rw [t.arity_instruction htype] at harity
  simp only [parseBody, parseRow, htype, parseInstruction_unhandled _ harity]

theorem not_returns_unhandled {t : Token} {rows : List InstructionRow} {it : List Token}
    {r : Except Stop (List InstructionRow)} (h : t.value ∈ unhandled) :
    ¬ Returns parseBody (rows, t :: it) r :=
  not_returns (fun s => s.2 = t :: it)
    (fun s hs => ⟨(s.1 ++ [{ label := none }], t :: it), rfl, by
      rw [← parseBody_unhandled s.1 it h, ← hs]⟩) rfl

/-- Each turn of `Parse` takes a token, and `Parse` ends. -/
def Progresses (tokens : List Token) : Prop :=
  (∀ s s', Reach parseBody ([], tokens) s → parseBody s = .again s' →
    s'.2.length < s.2.length) ∧ ∃ r, Parse tokens r

/-- **`Parse` goes forward and ends exactly when no turn starts at `JMP` or `LDI`.** -/
theorem progresses_iff (tokens : List Token) :
    Progresses tokens ↔
      ∀ s, Reach parseBody ([], tokens) s → ∀ t ∈ s.2.head?, t.value ∉ unhandled := by
  constructor
  · rintro ⟨hprogress, -⟩ ⟨rows, it⟩ hreach t ht hmem
    obtain ⟨it, rfl⟩ := List.head?_eq_some_iff.1 ht
    exact absurd (hprogress _ _ hreach (parseBody_unhandled rows it hmem)) (Nat.lt_irrefl _)
  · intro h
    have hprogress : ∀ s, Reach parseBody ([], tokens) s → ∀ s', parseBody s = .again s' →
        s'.2.length < s.2.length := by
      intro s hreach s' hb
      obtain ⟨o, htakes, -⟩ := parseBody_again hb
      exact htakes.progress.2 (h s hreach)
    obtain ⟨rows, hrows⟩ :=
      exists_returns (fun s : List InstructionRow × List Token => s.2.length) hprogress
    exact ⟨fun s s' hreach => hprogress s hreach s', rows.bind buildSymtab, rows, hrows, rfl⟩

/-- `JMP R1` behind an origin. -/
def jumpText : List Char := ".ORIG x3000\nJMP R1\n".toList

theorem not_progresses :
    ¬ ∀ text tokens, tokenize text = .ok tokens → Progresses tokens := by
  intro h
  have htokens : tokenize jumpText = .ok
      [⟨".ORIG".toList, 1, 0⟩, ⟨"x3000".toList, 1, 0⟩, ⟨"JMP".toList, 2, 0⟩,
        ⟨"R1".toList, 2, 0⟩] := by decide +kernel
  have horig : parseBody ([], [⟨".ORIG".toList, 1, 0⟩, ⟨"x3000".toList, 1, 0⟩,
      ⟨"JMP".toList, 2, 0⟩, ⟨"R1".toList, 2, 0⟩]) =
      .again ([opRow none ⟨".ORIG".toList, 1, 0⟩ [⟨"x3000".toList, 1, 0⟩]],
        [⟨"JMP".toList, 2, 0⟩, ⟨"R1".toList, 2, 0⟩]) := by decide +kernel
  obtain ⟨-, r, rows, hrows, -⟩ := h jumpText _ htokens
  exact not_returns_unhandled (by decide) ((returns_again_iff horig).1 hrows)

end Tvm
