import Sprawl.Tvm.Operands

/-!
# The tokens in the rows

A row holds the tokens its turn took, in their order: the label, the operation, the
operands.  Only the label the tokens end with is taken and not stored, for the turn goes on
to the next test before its row is pushed.

    Conserved tokens inset ↔ ¬ EndsInLabel tokens      (conserved_iff)

where `Conserved` says that the rows, listed one after the other, are the tokens, and
`EndsInLabel` goes through the tokens a statement at a time.
-/

namespace Tvm

open Cxx Loop

/-! ## Listing the rows -/

/-- The label, the operation and the operands that are present. -/
def InstructionRow.tokens (row : InstructionRow) : List Token :=
  row.label.toList ++ row.op.toList ++ row.operands.toList.flatMap Option.toList

/-- A token as `Tokenize` made it, before `BuildSymtab` gave it an address. -/
def Token.bare (t : Token) : Token := { t with address := 0 }

/-- The rows are the tokens: none is lost, doubled or moved. -/
def Conserved (tokens : List Token) (inset : InstructionSet) : Prop :=
  (inset.rows.flatMap InstructionRow.tokens).map Token.bare = tokens.map Token.bare

/-- After some statements, a label is left alone. -/
inductive EndsInLabel : List Token → Prop
  | label {l : Token} : l.type = .Label → EndsInLabel [l]
  | statement {label : Option Token} {op : Token} {n : Nat} {rest : List Token} :
      (∀ l ∈ label, l.type = .Label) → op.arity = some n → EndsInLabel (rest.drop n) →
      EndsInLabel (label.toList ++ op :: rest)

theorem not_endsInLabel_nil : ¬ EndsInLabel [] := by
  intro h
  generalize htokens : ([] : List Token) = tokens at h
  cases h with
  | label _ => cases htokens
  | statement _ _ _ => simp at htokens

theorem endsInLabel_cons_iff {label : Option Token} {op : Token} {n : Nat} {rest : List Token}
    (hlabel : ∀ l ∈ label, l.type = .Label) (harity : op.arity = some n) :
    EndsInLabel (label.toList ++ op :: rest) ↔ EndsInLabel (rest.drop n) := by
  constructor
  · intro h
    generalize htokens : label.toList ++ op :: rest = tokens at h
    cases h with
    | label hl => exact absurd htokens (statement_ne_label harity hl)
    | statement hlabel' harity' hrest =>
      obtain ⟨rfl, rfl, rfl⟩ := statement_inj hlabel hlabel' harity harity' htokens
      exact hrest
  · intro h
    exact .statement hlabel harity h

/-! ## The rows of the loop -/

theorem operandsOf_tokens {ts : List Token} (h : ts.length ≤ 3) :
    (operandsOf ts).toList.flatMap Option.toList = ts := by
  rcases ts with _ | ⟨a, _ | ⟨b, _ | ⟨c, _ | ⟨d, ts⟩⟩⟩⟩
  · rfl
  · rfl
  · rfl
  · rfl
  · simp only [List.length_cons] at h
    omega

/-- What a row with an operation holds is what its turn took. -/
theorem opRow_tokens {label : Option Token} {op : Token} {n : Nat} {rest : List Token}
    (harity : op.arity = some n) :
    (opRow label op (rest.take n)).tokens ++ rest.drop n = label.toList ++ op :: rest := by
  have hlen : (rest.take n).length ≤ 3 := (List.length_take_le n rest).trans (arity_le harity)
  show label.toList ++ [op] ++ (operandsOf (rest.take n)).toList.flatMap Option.toList ++
    rest.drop n = label.toList ++ op :: rest
  rw [operandsOf_tokens hlen, List.append_assoc, List.append_assoc, List.take_append_drop,
    List.singleton_append]

/-- **The rows are the tokens exactly when these do not end in a label.** -/
theorem statementRows_tokens {tokens : List Token} {rows : List InstructionRow}
    (h : StatementRows tokens rows) :
    (rows.flatMap InstructionRow.tokens).map Token.bare = tokens.map Token.bare ↔
      ¬ EndsInLabel tokens := by
  induction h with
  | nil => exact iff_of_true rfl not_endsInLabel_nil
  | lastLabel hl => exact iff_of_false (by simp) fun hnot => hnot (.label hl)
  | @statement label op n rest rows hlabel harity _ ih =>
    rw [endsInLabel_cons_iff hlabel harity, ← ih, List.flatMap_cons, ← opRow_tokens harity,
      List.map_append, List.map_append]
    exact List.append_right_inj _

/-! ## Behind `BuildSymtab` -/

/-- `BuildSymtab` changes the address of a label and no more. -/
theorem symtabRow_tokens {offset o' : Nat} {row row' : InstructionRow}
    {entry : Option (List Char × Token)} (h : symtabRow offset row = .ok (row', entry, o')) :
    row'.tokens.map Token.bare = row.tokens.map Token.bare := by
  unfold symtabRow at h
  rw [bind_eq_ok] at h
  obtain ⟨base, -, h⟩ := h
  split at h
  · next label op operand hlabel _ _ =>
    cases h
    unfold InstructionRow.tokens
    rw [hlabel, List.map_append, List.map_append, List.map_append, List.map_append]
    rfl
  · cases h
    rfl

theorem buildSymtabFrom_tokens {rows : List InstructionRow} {offset : Nat}
    {symtab : List (List Char × Token)} {inset : InstructionSet}
    (h : buildSymtabFrom offset symtab rows = .ok inset) :
    (inset.rows.flatMap InstructionRow.tokens).map Token.bare =
      (rows.flatMap InstructionRow.tokens).map Token.bare := by
  induction rows generalizing offset symtab inset with
  | nil =>
    cases h
    rfl
  | cons row rows ih =>
    obtain ⟨row', entry, o, inset', hrow, hinset', rfl⟩ := buildSymtabFrom_cons h
    rw [List.flatMap_cons, List.flatMap_cons, List.map_append, List.map_append,
      symtabRow_tokens hrow, ih hinset']

/-- **`Parse` keeps every token in its place exactly when the tokens do not end in a label.** -/
theorem conserved_iff {tokens : List Token} {inset : InstructionSet}
    (h : Parse tokens (.ok inset)) : Conserved tokens inset ↔ ¬ EndsInLabel tokens := by
  obtain ⟨rows, hrows, hb, -⟩ := parse_statementRows h
  unfold Conserved
  rw [buildSymtabFrom_tokens hb]
  exact statementRows_tokens hrows

theorem conserved_iff_lowest : Conserved lowestTokens lowestInset ↔ ¬ EndsInLabel lowestTokens :=
  conserved_iff (@parse_of_fuel 4 _ _ (by decide +kernel))

/-- A label behind a `HALT`, the last token of the file. -/
def danglingTokens : List Token := [⟨"HALT".toList, 1, 0⟩, ⟨"DONE".toList, 2, 0⟩]

/-- The label has no row. -/
theorem not_conserved :
    ¬ ∀ tokens inset, Parse tokens (.ok inset) → Conserved tokens inset := by
  intro h
  have hparse : Parse danglingTokens (.ok ⟨[opRow none ⟨"HALT".toList, 1, 0⟩ []], []⟩) :=
    @parse_of_fuel 3 _ _ (by decide +kernel)
  exact absurd (congrArg List.length (h _ _ hparse)) (by decide)

end Tvm
