import Sprawl.Lib.Words
import Sprawl.Tinydb.Statement

/-!
# Select statements (`ParseSelect` in `tinydb/statement.cc`)

The two paths of `ParseSelect` share one iterator.  Behind a list of columns it stands on
`from`, and the word after it is the table.  Behind the wildcard it still stands on `*`: the
word after it is `from`, and that is what becomes the name of the table (`selects_iff`).

The scan for `from` has no end test, and the wildcard path does not scan at all, so a
statement of four words or more without a table is not refused (`selectSafe_iff`).
-/

namespace Tinydb

open Cxx

/-- What `ParseSelect` leaves behind when it comes to its end. -/
def selected (wildcardValues : Bool) (values : List (List Char)) (table : List Char) : Statement :=
  { statementType := .select, wildcardValues, values, tableName := some table }

/-- The words of a select statement, with the wildcard, the values and the table they ask for. -/
inductive Selects : List (List Char) → Bool → List (List Char) → List Char → Prop
  | columns {c t : List Char} {cols rest : List (List Char)} :
      c ≠ "*".toList → "from".toList ∉ c :: cols →
      Selects ("select".toList :: (c :: cols ++ "from".toList :: t :: rest)) false (c :: cols) t
  | wildcard {t : List Char} {rest : List (List Char)} :
      Selects ("select".toList :: "*".toList :: "from".toList :: t :: rest) true [] t

/-- The words behind `select` have a `from`, and behind the first one a table. -/
def HasTable (ws : List (List Char)) : Prop :=
  ∃ cols t rest, "from".toList ∉ cols ∧ ws = cols ++ "from".toList :: t :: rest

/-! ## The scan for `from` -/

theorem readValues_from {cols : List (List Char)} (h : "from".toList ∉ cols)
    (values rest : List (List Char)) :
    readValues values (cols ++ "from".toList :: rest) =
      .ok (values ++ cols, "from".toList :: rest) := by
  induction cols generalizing values with
  | nil =>
    show (if _ then _ else _) = _
    rw [if_pos rfl, List.append_nil]
  | cons c cols ih =>
    obtain ⟨hc, hcols⟩ := not_or.1 (mt List.mem_cons.2 h)
    show (if c = _ then _ else _) = _
    rw [if_neg (Ne.symm hc)]
    show readValues (values ++ [c]) (cols ++ _) = _
    rw [ih hcols, List.append_assoc, List.singleton_append]

/-- Without a `from` the scan goes past the last word. -/
theorem readValues_noFrom {ts : List (List Char)} (h : "from".toList ∉ ts)
    (values : List (List Char)) : readValues values ts = .error (.undefined .outOfBounds) := by
  induction ts generalizing values with
  | nil => rfl
  | cons t ts ih =>
    obtain ⟨ht, hts⟩ := not_or.1 (mt List.mem_cons.2 h)
    rw [readValues, if_neg (Ne.symm ht)]
    exact ih hts _

/-! ## The ways through `ParseSelect` -/

variable {ws rest : List (List Char)} {s t : List Char} {schema : Schema}

theorem parse_select (hs : Spaced s ("select".toList :: ws)) :
    parse s schema = (parseSelect ("select".toList :: ws)).map fun st => (st, schema) := by
  rw [parse, words_eq_iff.2 hs, parseTokens, if_neg (by decide), if_pos rfl]

theorem parseSelect_short (h : ws.length < 3) :
    ∃ what, parseSelect ("select".toList :: ws) =
      .ok { statementType := .select, error := some what } := by
  have hlen : ("select".toList :: ws).length < 4 := by
    rw [List.length_cons]
    omega
  unfold parseSelect
  rw [if_pos hlen]
  exact ⟨_, rfl⟩

/-- The wildcard path: the word right behind `*` is the table. -/
theorem parseSelect_wildcard (f : List Char) :
    parseSelect ("select".toList :: "*".toList :: f :: t :: rest) = .ok (selected true [] f) := by
  have hlen : ¬ ("select".toList :: "*".toList :: f :: t :: rest).length < 4 := by
    simp only [List.length_cons]
    omega
  unfold parseSelect
  rw [if_neg hlen]
  rfl

/-- The other path: what the scan leaves decides. -/
theorem parseSelect_scan (h : 3 ≤ ws.length) (hstar : ws.head? ≠ some "*".toList) :
    parseSelect ("select".toList :: ws) = (do
      let read ← readValues [] ws
      let tableName ← readAt read.2 1
      return selected false read.1 tableName) := by
  obtain ⟨c, ws, rfl⟩ := List.exists_cons_of_length_pos (by omega : 0 < ws.length)
  have hlen : ¬ ("select".toList :: c :: ws).length < 4 := by
    rw [List.length_cons]
    omega
  have hc : decide (c = "*".toList) = false := by
    apply decide_eq_false
    intro heq
    exact hstar (congrArg some heq)
  unfold parseSelect
  rw [if_neg hlen]
  show (do
    let read ← (if decide (c = "*".toList) then _ else readValues [] (c :: ws))
    let tableName ← readAt read.2 1
    return { statementType := .select, wildcardValues := decide (c = "*".toList), values := read.1
             tableName := some tableName : Statement }) = _
  rw [hc]
  rfl

theorem parseSelect_columns {cols : List (List Char)}
    (h : 3 ≤ (cols ++ "from".toList :: t :: rest).length) (hstar : cols.head? ≠ some "*".toList)
    (hfrom : "from".toList ∉ cols) :
    parseSelect ("select".toList :: (cols ++ "from".toList :: t :: rest)) =
      .ok (selected false cols t) := by
  have hhead : (cols ++ "from".toList :: t :: rest).head? ≠ some "*".toList := by
    cases cols with
    | nil => exact fun heq => absurd (Option.some.inj heq) (by decide)
    | cons c cols => exact hstar
  rw [parseSelect_scan h hhead, readValues_from hfrom]
  rfl

/-- No table, and no wildcard in front: a read past the end. -/
theorem parseSelect_overrun (h : 3 ≤ ws.length) (hstar : ws.head? ≠ some "*".toList)
    (htable : ¬ HasTable ws) :
    parseSelect ("select".toList :: ws) = .error (.undefined .outOfBounds) := by
  rw [parseSelect_scan h hstar]
  by_cases hfrom : "from".toList ∈ ws
  · obtain ⟨cols, rest, rfl, hcols⟩ := List.eq_append_cons_of_mem hfrom
    rw [readValues_from hcols]
    cases rest with
    | nil => rfl
    | cons t rest => exact absurd ⟨cols, t, rest, hcols, rfl⟩ htable
  · rw [readValues_noFrom hfrom]
    rfl

/-! ## Statements of the two forms -/

/-- **A select statement is read as it is written, unless it has the wildcard: then the table
is `from`.** -/
theorem selects_iff (schema : Schema) {s t : List Char} {ws values : List (List Char)}
    {wildcardValues : Bool} (hs : Spaced s ws) (hform : Selects ws wildcardValues values t) :
    parse s schema = .ok (selected wildcardValues values t, schema) ↔
      wildcardValues = false ∨ t = "from".toList := by
  cases hform with
  | @columns c t cols rest hstar hfrom =>
    have hlen : 3 ≤ (c :: cols ++ "from".toList :: t :: rest).length := by
      simp only [List.length_append, List.length_cons]
      omega
    have hhead : (c :: cols).head? ≠ some "*".toList := fun heq => hstar (Option.some.inj heq)
    have hparse : parse s schema = .ok (selected false (c :: cols) t, schema) := by
      rw [parse_select hs, parseSelect_columns hlen hhead hfrom]
      rfl
    exact ⟨fun _ => .inl rfl, fun _ => hparse⟩
  | @wildcard t rest =>
    have hparse : parse s schema = .ok (selected true [] "from".toList, schema) := by
      rw [parse_select hs, parseSelect_wildcard]
      rfl
    constructor
    · intro h
      rw [hparse] at h
      -- the two statements differ in the name of the table only
      simp only [Except.ok.injEq, Prod.mk.injEq, and_true, selected, Statement.mk.injEq,
        Option.some.injEq, true_and] at h
      exact .inr h.symm
    · rintro (hno | rfl)
      · cases hno
      · exact hparse

/-- `select name email from people` -/
theorem selects_iff_people :
    parse "select name email from people".toList {} =
        .ok (selected false ["name".toList, "email".toList] "people".toList, {}) ↔
      false = false ∨ "people".toList = "from".toList :=
  selects_iff {} (spaced_words _)
    (@Selects.columns _ _ ["email".toList] [] (by decide) (by decide))

/-- `select * from people` selects from the table `from`. -/
theorem wildcard_from :
    Spaced "select * from people".toList
        ["select".toList, "*".toList, "from".toList, "people".toList] ∧
      Selects ["select".toList, "*".toList, "from".toList, "people".toList] true []
        "people".toList ∧
      parse "select * from people".toList {} = .ok (selected true [] "from".toList, {}) ∧
      parse "select * from people".toList {} ≠ .ok (selected true [] "people".toList, {}) := by
  refine ⟨words_eq_iff.1 (by decide +kernel), .wildcard, by decide +kernel, by decide +kernel⟩

/-! ## Statements of any form -/

/-- `ParseSelect` reads existing words only, and a statement without a table has an error. -/
def SelectSafe (s : List Char) (ws : List (List Char)) (schema : Schema) : Prop :=
  ∃ st, parse s schema = .ok (st, schema) ∧ (¬ HasTable ws → st.error ≠ none)

/-- **A select statement is safe exactly if it has fewer than four words, or a table.** -/
theorem selectSafe_iff (schema : Schema) {s : List Char} {ws : List (List Char)}
    (hs : Spaced s ("select".toList :: ws)) :
    SelectSafe s ws schema ↔ ws.length < 3 ∨ HasTable ws := by
  unfold SelectSafe
  rw [parse_select hs]
  by_cases hlen : ws.length < 3
  · obtain ⟨what, hparse⟩ := parseSelect_short hlen
    rw [hparse]
    exact ⟨fun _ => .inl hlen, fun _ => ⟨_, rfl, fun _ => Option.some_ne_none what⟩⟩
  · rw [or_iff_right hlen]
    by_cases hstar : ws.head? = some "*".toList
    · -- the wildcard path never refuses
      obtain ⟨f, t, rest, rfl⟩ : ∃ f t rest, ws = "*".toList :: f :: t :: rest := by
        match ws, hlen, hstar with
        | _ :: f :: t :: rest, _, hstar => exact ⟨f, t, rest, by rw [Option.some.inj hstar]⟩
        | [], hlen, _ | [_], hlen, _ | [_, _], hlen, _ => exact absurd (by simp) hlen
      rw [parseSelect_wildcard]
      constructor
      · rintro ⟨st, hst, herror⟩
        cases hst
        by_contra htable
        exact herror htable rfl
      · intro htable
        exact ⟨_, rfl, fun hno => absurd htable hno⟩
    · constructor
      · rintro ⟨st, hst, -⟩
        by_contra htable
        rw [parseSelect_overrun (by omega) hstar htable] at hst
        cases hst
      · rintro ⟨cols, t, rest, hcols, rfl⟩
        have hhead : cols.head? ≠ some "*".toList := by
          intro heq
          rw [List.head?_append, heq] at hstar
          exact hstar rfl
        rw [parseSelect_columns (by omega) hhead hcols]
        exact ⟨_, rfl, fun hno => absurd ⟨cols, t, rest, hcols, rfl⟩ hno⟩

theorem selectSafe_iff_people :
    SelectSafe "select name from people".toList ["name".toList, "from".toList, "people".toList] {} ↔
      3 < 3 ∨ HasTable ["name".toList, "from".toList, "people".toList] :=
  selectSafe_iff {} (words_eq_iff.1 (by decide +kernel))

/-- `select a b c` is read past its end; `select * a b` has no `from` and no error. -/
theorem not_selectSafe :
    (parse "select a b c".toList {} = .error (.undefined .outOfBounds) ∧
      ¬ SelectSafe "select a b c".toList ["a".toList, "b".toList, "c".toList] {}) ∧
    (parse "select * a b".toList {} = .ok (selected true [] "a".toList, {}) ∧
      ¬ SelectSafe "select * a b".toList ["*".toList, "a".toList, "b".toList] {}) := by
  have hparse : parse "select a b c".toList {} = .error (.undefined .outOfBounds) := by
    decide +kernel
  have hparse' : parse "select * a b".toList {} = .ok (selected true [] "a".toList, {}) := by
    decide +kernel
  refine ⟨⟨hparse, ?_⟩, hparse', ?_⟩
  · rintro ⟨st, hst, -⟩
    rw [hparse] at hst
    cases hst
  · rintro ⟨st, hst, herror⟩
    rw [hparse'] at hst
    cases hst
    refine herror ?_ rfl
    rintro ⟨cols, t, rest, -, heq⟩
    have hmem : "from".toList ∈ ["*".toList, "a".toList, "b".toList] := by
      rw [heq]
      simp
    exact absurd hmem (by decide)

end Tinydb
