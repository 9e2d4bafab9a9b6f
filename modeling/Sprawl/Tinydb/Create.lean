import Sprawl.Lib.Words
import Sprawl.Tinydb.Statement

/-!
# Create statements (`ParseCreate` in `tinydb/statement.cc`)

`Writes ws table` says what the words behind `create` write.  `ParseCreate` reads every table
back that is written so (`parse_writes`), but it does not refuse all the rest: whether it does
depends on the first column whose type is not `int` or a `varchar` (`refuses_iff`).  The size
is searched for and the type is matched, so `blob(3)` has a size and no type, and the check
that should see to it looks at the size again.
-/

namespace Tinydb

open Cxx RegExp

/-! ## What is written -/

/-- The text of a column's type, with the type and the size it stands for. -/
inductive ColumnText : List Char → ColumnType → UInt64 → Prop
  | int : ColumnText "int".toList .integer 4
  | varchar {size : List Char} {k : UInt64} : size ≠ [] → (∀ c ∈ size, c ∈ digits) →
      Nat.ofDigitChars 10 size 0 = k.toNat → 0 < k →
      ColumnText ("varchar(".toList ++ size ++ ")".toList) .string k

/-- The words `table NAME (LABEL TYPE)+`, with the table they define. -/
def Writes (ws : List (List Char)) (table : Table) : Prop :=
  ∃ cols, ws = "table".toList :: table.name :: columnWords cols ∧
    List.Forall₂ (fun c column => c.1 = column.label ∧ ColumnText c.2 column.type column.size)
      cols table.columns ∧
    table.columns ≠ [] ∧ (table.columns.map Column.label).Nodup

/-- The words of a table, its sizes in decimal. -/
def Table.createWords (table : Table) : List (List Char) :=
  "table".toList :: table.name :: columnWords (table.columns.map fun column =>
    (column.label, match column.type with
      | .string => "varchar(".toList ++ Nat.toDigits 10 column.size.toNat ++ ")".toList
      | _ => "int".toList))

theorem columnText_toDigits {k : UInt64} (hk : 0 < k) :
    ColumnText ("varchar(".toList ++ Nat.toDigits 10 k.toNat ++ ")".toList) .string k := by
  refine .varchar Nat.toDigits_ne_nil (fun c hc => ?_) Nat.ofDigitChars_ten_toDigits hk
  obtain ⟨ds, hlt, hmap, -⟩ := exists_digits k.toNat (by decide : 1 < 10)
  rw [hmap] at hc
  obtain ⟨d, hd, rfl⟩ := List.mem_map.1 hc
  have hall : ∀ d < 10, Nat.digitChar d ∈ digits := by decide
  exact hall d (hlt d hd)

/-- Every table that is not empty can be written. -/
theorem writes_createWords {table : Table} (hne : table.columns ≠ [])
    (hlabels : (table.columns.map Column.label).Nodup)
    (hcolumns : ∀ c ∈ table.columns,
      c.type = .integer ∧ c.size = 4 ∨ c.type = .string ∧ 0 < c.size) :
    Writes table.createWords table := by
  refine ⟨_, rfl, ?_, hne, hlabels⟩
  rw [List.forall₂_map_left_iff, List.forall₂_same]
  intro c hc
  refine ⟨rfl, ?_⟩
  rcases hcolumns c hc with ⟨htype, hsize⟩ | ⟨htype, hsize⟩
  · rw [htype, hsize]
    exact .int
  · rw [htype]
    exact columnText_toDigits hsize

/-! ## What is written is read -/

theorem parseColumn_of_columnText {t : List Char} {type : ColumnType} {size : UInt64}
    (h : ColumnText t type size) :
    parseColumnSize t = some size ∧ parseColumnType t = some type := by
  cases h with
  | int => exact ⟨rfl, parseColumnType_int⟩
  | @varchar text _ hne hdigits hvalue hpos =>
    refine ⟨?_, parseColumnType_varchar hne hdigits⟩
    have hlt : size.toNat < 2 ^ 64 := size.toNat_lt
    have hle : size.toNat ≤ 2 ^ 64 - 1 := by omega
    have hread : (strtoull 10 text).getD 0 = size := by
      rw [strtoull_digits hne hdigits, Option.getD_some, hvalue, Nat.min_eq_left hle]
      exact UInt64.ofNat_toNat
    have hsize : size ≠ 0 := UInt64.pos_iff_ne_zero.1 hpos
    rw [parseColumnSize_varchar hne hdigits, hread, if_pos hsize]

theorem parseColumns_writes {cols : List (List Char × List Char)} {new : List Column}
    (h : List.Forall₂ (fun c column => c.1 = column.label ∧
      ColumnText c.2 column.type column.size) cols new) (columns : List Column) :
    parseColumns columns cols = .ok (.ok (columns ++ new)) := by
  induction h generalizing columns with
  | nil =>
    rw [List.append_nil]
    rfl
  | @cons c column cols new hcolumn _ ih =>
    obtain ⟨hlabel, htext⟩ := hcolumn
    obtain ⟨hsize, htype⟩ := parseColumn_of_columnText htext
    rw [parseColumns, hsize, htype]
    show parseColumns
      (columns ++ [{ label := c.1, size := column.size, type := column.type }]) cols = _
    rw [ih, hlabel, List.append_assoc, List.singleton_append]

variable {schema : Schema} {table : Table} {ws : List (List Char)} {s : List Char}

theorem parse_create (hs : Spaced s ("create".toList :: ws)) :
    parse s schema = parseCreate ("create".toList :: ws) schema := by
  rw [parse, words_eq_iff.2 hs, parseTokens, if_neg (by decide), if_neg (by decide), if_pos rfl]

/-- **A table that is written is added to the schema.** -/
theorem parse_writes (schema : Schema) {table : Table} {ws : List (List Char)} {s : List Char}
    (hs : Spaced s ("create".toList :: ws)) (hw : Writes ws table) :
    parse s schema = .ok ({ statementType := .create }, schema.addTable table) := by
  obtain ⟨cols, rfl, hcolumns, hne, hlabels⟩ := hw
  have hmap : cols.map Prod.fst = table.columns.map Column.label := by
    rw [← List.forall₂_eq_eq_eq, List.forall₂_map_left_iff, List.forall₂_map_right_iff]
    exact hcolumns.imp fun _ _ h => h.1
  have hcols : cols ≠ [] := by
    rintro rfl
    exact hne (List.forall₂_nil_left_iff.1 hcolumns)
  rw [parse_create hs, parseCreate_columnWords hcols (hmap ▸ hlabels), parseColumns_writes hcolumns]
  rfl

/-- The table of `create table people id int name varchar(18446744073709551615)`. -/
def people : Table :=
  { name := "people".toList
    columns := [{ label := "id".toList, size := 4, type := .integer },
      { label := "name".toList, size := 18446744073709551615, type := .string }] }

theorem parse_writes_people :
    parse " create table people\n  id int\n  name varchar(18446744073709551615)".toList {} =
      .ok ({ statementType := .create }, { tables := [people] }) := by
  have hwords :
      words " create table people\n  id int\n  name varchar(18446744073709551615)".toList =
      "create".toList :: people.createWords := by
    decide +kernel
  exact parse_writes {} (words_eq_iff.1 hwords)
    (writes_createWords (by decide) (by decide) (by decide))

/-! ## The search for a size -/

/-- `t` has `size` in parentheses, behind `i` characters. -/
def SizeAt (t : List Char) (i : Nat) (size : List Char) : Prop :=
  ∃ a b, a.length = i ∧ t = a ++ '(' :: (size ++ ')' :: b) ∧ size ≠ [] ∧ ∀ c ∈ size, c ∈ digits

/-- The first number in parentheses. -/
def LeftmostSize (t size : List Char) : Prop :=
  ∃ i, SizeAt t i size ∧ ∀ j size', SizeAt t j size' → i ≤ j

/-- The type is not `int`, and its first number in parentheses is zero if there is one. -/
def NoSize (t : List Char) : Prop :=
  t ≠ "int".toList ∧ ∀ size, LeftmostSize t size → ∀ c ∈ size, c = '0'

theorem sizeAt_zero {c : Char} {s size : List Char} :
    SizeAt (c :: s) 0 size ↔ size = s.takeWhile (· ∈ digits) ∧
      (c = '(' ∧ s.takeWhile (· ∈ digits) ≠ [] ∧ (s.dropWhile (· ∈ digits)).head? = some ')') := by
  constructor
  · rintro ⟨a, b, ha, heq, hne, hdigits⟩
    obtain rfl := List.length_eq_zero_iff.1 ha
    obtain ⟨rfl, rfl⟩ := List.cons.inj heq
    obtain ⟨htake, hdrop⟩ := takeWhile_digits hdigits b
    rw [htake, hdrop]
    exact ⟨rfl, rfl, hne, rfl⟩
  · rintro ⟨rfl, rfl, hne, hhead⟩
    obtain ⟨b, hb⟩ := List.head?_eq_some_iff.1 hhead
    refine ⟨[], b, rfl, ?_, hne, fun c hc => by simpa using List.mem_takeWhile_imp hc⟩
    rw [List.nil_append, ← hb, List.takeWhile_append_dropWhile]

theorem sizeAt_succ {c : Char} {s size : List Char} {i : Nat} :
    SizeAt (c :: s) (i + 1) size ↔ SizeAt s i size := by
  constructor
  · rintro ⟨a, b, ha, heq, h⟩
    obtain ⟨d, a, rfl⟩ := List.exists_cons_of_length_eq_add_one ha
    obtain ⟨-, hs⟩ := List.cons.inj heq
    rw [List.length_cons] at ha
    exact ⟨a, b, by omega, hs, h⟩
  · rintro ⟨a, b, rfl, rfl, h⟩
    exact ⟨c :: a, b, rfl, rfl, h⟩

/-- `regex_search` finds the first number in parentheses. -/
theorem searchSize_iff {t size : List Char} : searchSize t = some size ↔ LeftmostSize t size := by
  induction t with
  | nil =>
    constructor
    · intro h
      cases h
    · rintro ⟨i, ⟨a, b, -, heq, -⟩, -⟩
      simp at heq
  | cons c s ih =>
    unfold searchSize
    by_cases hhere : c = '(' ∧ s.takeWhile (· ∈ digits) ≠ [] ∧
        (s.dropWhile (· ∈ digits)).head? = some ')'
    · -- there is one right at the front, and only one
      rw [if_pos hhere, Option.some.injEq]
      constructor
      · rintro rfl
        exact ⟨0, sizeAt_zero.2 ⟨rfl, hhere⟩, fun j _ _ => Nat.zero_le j⟩
      · rintro ⟨i, hsize, hleft⟩
        obtain rfl : i = 0 := Nat.le_zero.1 (hleft 0 _ (sizeAt_zero.2 ⟨rfl, hhere⟩))
        exact (sizeAt_zero.1 hsize).1.symm
    · rw [if_neg hhere, ih]
      constructor
      · rintro ⟨i, hsize, hleft⟩
        refine ⟨i + 1, sizeAt_succ.2 hsize, fun j size' h => ?_⟩
        cases j with
        | zero => exact absurd (sizeAt_zero.1 h).2 hhere
        | succ j => exact Nat.succ_le_succ (hleft j size' (sizeAt_succ.1 h))
      · rintro ⟨i, hsize, hleft⟩
        cases i with
        | zero => exact absurd (sizeAt_zero.1 hsize).2 hhere
        | succ i =>
          refine ⟨i, sizeAt_succ.1 hsize, fun j size' h => ?_⟩
          exact Nat.le_of_succ_le_succ (hleft (j + 1) size' (sizeAt_succ.2 h))

theorem parseColumnSize_eq_none {t : List Char} : parseColumnSize t = none ↔ NoSize t := by
  unfold parseColumnSize NoSize
  by_cases hint : t = "int".toList
  · rw [if_pos hint]
    exact ⟨fun h => (Option.some_ne_none _ h).elim, fun h => absurd hint h.1⟩
  · rw [if_neg hint]
    cases hsearch : searchSize t with
    | none =>
      refine ⟨fun _ => ⟨hint, fun size hsize => ?_⟩, fun _ => rfl⟩
      rw [searchSize_iff.2 hsize] at hsearch
      cases hsearch
    | some size =>
      have hsize := searchSize_iff.1 hsearch
      obtain ⟨-, ⟨-, -, -, -, hne, hdigits⟩, -⟩ := hsize
      have hzero : (strtoull 10 size).getD 0 = 0 ↔ ∀ c ∈ size, c = '0' := by
        have hiff := not_congr (strtoull_size hne hdigits)
        push Not at hiff
        exact hiff
      show (if (strtoull 10 size).getD 0 ≠ 0 then _ else _) = none ↔ _
      rw [ite_eq_right_iff]
      constructor
      · intro h
        refine ⟨hint, fun size' hsize' => ?_⟩
        obtain rfl : size = size' := Option.some.inj (hsearch.symm.trans (searchSize_iff.2 hsize'))
        apply hzero.1
        by_contra hval
        cases h hval
      · rintro ⟨-, h⟩ hval
        exact absurd (hzero.2 (h size (searchSize_iff.1 hsearch))) hval

/-! ## What is refused -/

/-- In front of the first column without a size every column has a good type. -/
def RefusedAt (cols : List (List Char × List Char)) : Prop :=
  ∃ before c after, cols = before ++ c :: after ∧ (∀ b ∈ before, GoodType b.2) ∧ NoSize c.2

theorem refusedAt_cons {c : List Char × List Char} {cols : List (List Char × List Char)} :
    RefusedAt (c :: cols) ↔ NoSize c.2 ∨ GoodType c.2 ∧ RefusedAt cols := by
  constructor
  · rintro ⟨before, d, after, heq, hgood, hno⟩
    cases before with
    | nil =>
      obtain ⟨rfl, -⟩ := List.cons.inj heq
      exact .inl hno
    | cons b before =>
      obtain ⟨rfl, rfl⟩ := List.cons.inj heq
      obtain ⟨hb, hbefore⟩ := List.forall_mem_cons.1 hgood
      exact .inr ⟨hb, before, d, after, rfl, hbefore, hno⟩
  · rintro (hno | ⟨hc, before, d, after, rfl, hgood, hno⟩)
    · exact ⟨[], c, cols, rfl, by simp, hno⟩
    · exact ⟨c :: before, d, after, rfl, List.forall_mem_cons.2 ⟨hc, hgood⟩, hno⟩

/-- The second loop ends with an error exactly if it comes to a column without a size. -/
theorem parseColumns_refused_iff {cols : List (List Char × List Char)} {columns : List Column} :
    (∃ what, parseColumns columns cols = .ok (.error what)) ↔ RefusedAt cols := by
  induction cols generalizing columns with
  | nil =>
    constructor
    · rintro ⟨what, h⟩
      cases h
    · rintro ⟨before, c, after, heq, -⟩
      simp at heq
  | cons c cols ih =>
    obtain ⟨label, t⟩ := c
    rw [refusedAt_cons, parseColumns]
    show _ ↔ NoSize t ∨ GoodType t ∧ _
    rw [← parseColumnSize_eq_none, goodType_iff]
    cases hsize : parseColumnSize t with
    | none => exact ⟨fun _ => .inl rfl, fun _ => ⟨_, rfl⟩⟩
    | some size =>
      cases htype : parseColumnType t with
      | none =>
        -- a size and no type: the process ends
        constructor
        · rintro ⟨what, h⟩
          cases h
        · rintro (h | ⟨⟨-, h⟩, -⟩) <;> cases h
      | some type =>
        show (∃ what, parseColumns _ cols = .ok (.error what)) ↔ _
        rw [ih]
        simp

/-- No table is written. -/
def Malformed (ws : List (List Char)) : Prop := ∀ table, ¬ Writes ws table

/-- A column that is written in none of the ways. -/
theorem malformed_of_column (name : List Char) (cols : List (List Char × List Char))
    {c : List Char × List Char} (hc : c ∈ cols) (hno : ∀ type size, ¬ ColumnText c.2 type size) :
    Malformed ("table".toList :: name :: columnWords cols) := by
  rintro table ⟨cols', heq, hcolumns, -⟩
  have hwords : columnWords cols = columnWords cols' := (List.cons.inj (List.cons.inj heq).2).2
  have hcols : cols = cols' := by
    rw [← columnTokens_columnWords cols, hwords, columnTokens_columnWords]
  subst hcols
  obtain ⟨i, hi, rfl⟩ := List.getElem_of_mem hc
  have hlen := hcolumns.length_eq
  exact hno _ _ (hcolumns.get hi (hlen ▸ hi)).2

theorem not_columnText {t : List Char} (h : parseColumnType t = none) (type : ColumnType)
    (size : UInt64) : ¬ ColumnText t type size := by
  intro htext
  rw [(parseColumn_of_columnText htext).2] at h
  cases h

/-- The number in a type that is written fits. -/
theorem ofDigitChars_lt {t text : List Char} {type : ColumnType} {size : UInt64}
    (h : ColumnText t type size) (htext : searchSize t = some text) :
    Nat.ofDigitChars 10 text 0 < 2 ^ 64 := by
  cases h with
  | int => cases htext
  | @varchar digits _ hne hdigits hvalue hpos =>
    rw [searchSize_varchar hne hdigits] at htext
    cases htext
    rw [hvalue]
    exact size.toNat_lt

/-- The statement has an error, and the schema is as before. -/
def Refuses (s : List Char) (schema : Schema) : Prop :=
  ∃ st, parse s schema = .ok (st, schema) ∧ st.error ≠ none

/-- If `ws` is a table with columns of distinct labels, one of them has no size, and every column
in front of it a good type. -/
def Refusable (ws : List (List Char)) : Prop :=
  ∀ name cols, ws = "table".toList :: name :: columnWords cols → cols ≠ [] →
    (cols.map Prod.fst).Nodup → RefusedAt cols

theorem refuses_columnWords {name : List Char} {cols : List (List Char × List Char)}
    (hs : Spaced s ("create".toList :: "table".toList :: name :: columnWords cols))
    (hne : cols ≠ []) (hlabels : (cols.map Prod.fst).Nodup) :
    Refuses s schema ↔ RefusedAt cols := by
  unfold Refuses
  rw [parse_create hs, parseCreate_columnWords hne hlabels, ← parseColumns_refused_iff]
  constructor
  · rintro ⟨st, hst, herror⟩
    cases hcolumns : parseColumns [] cols with
    | error e =>
      rw [hcolumns] at hst
      cases hst
    | ok read =>
      cases read with
      | error what => exact ⟨what, rfl⟩
      | ok columns =>
        rw [hcolumns] at hst
        injection hst with hst
        obtain ⟨rfl, -⟩ := Prod.mk.inj hst
        exact absurd rfl herror
  · rintro ⟨what, hcolumns⟩
    rw [hcolumns]
    exact ⟨_, rfl, Option.some_ne_none what⟩

theorem refuses_of_refusable (hs : Spaced s ("create".toList :: ws)) (h : Refusable ws) :
    Refuses s schema := by
  rcases parseCreate_refuses ("create".toList :: ws) schema with
    ⟨name, cols, heq, hne, hlabels⟩ | ⟨st, hst, herror⟩
  · obtain ⟨-, rfl⟩ := List.cons.inj heq
    exact (refuses_columnWords hs hne hlabels).2 (h name cols rfl hne hlabels)
  · exact ⟨st, (parse_create hs).trans hst, herror⟩

/-- **A create statement that writes no table is refused exactly if its first column that has
not a good type has no size, or it does not come to its columns.** -/
theorem refuses_iff (schema : Schema) {ws : List (List Char)} {s : List Char}
    (hs : Spaced s ("create".toList :: ws)) :
    Malformed ws → (Refuses s schema ↔ Refusable ws) := by
  intro _
  constructor
  · rintro hrefuses name cols rfl hne hlabels
    exact (refuses_columnWords hs hne hlabels).1 hrefuses
  · exact refuses_of_refusable hs

/-- `create table t a int b text` -/
theorem refuses_iff_text :
    Refuses "create table t a int b text".toList {} ↔
      Refusable ["table".toList, "t".toList, "a".toList, "int".toList, "b".toList,
        "text".toList] := by
  have hs : Spaced "create table t a int b text".toList ["create".toList, "table".toList,
      "t".toList, "a".toList, "int".toList, "b".toList, "text".toList] :=
    words_eq_iff.1 (by decide +kernel)
  refine refuses_iff {} hs ?_
  exact malformed_of_column "t".toList [("a".toList, "int".toList), ("b".toList, "text".toList)]
    (List.mem_cons_of_mem _ List.mem_cons_self) (not_columnText (by decide +kernel))

/-- A size without a type ends the process, and 2^64 is taken for the largest size. -/
theorem blob_not_refused :
    (Spaced "create table t a blob(3)".toList ["create".toList, "table".toList, "t".toList,
        "a".toList, "blob(3)".toList] ∧
      Malformed ["table".toList, "t".toList, "a".toList, "blob(3)".toList] ∧
      parse "create table t a blob(3)".toList {} = .error .abort ∧
      ¬ Refuses "create table t a blob(3)".toList {}) ∧
    (Malformed ["table".toList, "t".toList, "a".toList, "varchar(18446744073709551616)".toList] ∧
      parse "create table t a varchar(18446744073709551616)".toList {} =
        .ok ({ statementType := .create }, { tables := [{ name := "t".toList, columns :=
          [{ label := "a".toList, size := 18446744073709551615, type := .string }] }] })) := by
  have hparse : parse "create table t a blob(3)".toList {} = .error .abort := by decide +kernel
  refine ⟨⟨words_eq_iff.1 (by decide +kernel), ?_, hparse, ?_⟩, ?_, by decide +kernel⟩
  · exact malformed_of_column "t".toList [("a".toList, "blob(3)".toList)] List.mem_cons_self
      (not_columnText (by decide +kernel))
  · rintro ⟨st, hst, -⟩
    rw [hparse] at hst
    cases hst
  · refine malformed_of_column "t".toList
      [("a".toList, "varchar(18446744073709551616)".toList)] List.mem_cons_self ?_
    intro type size h
    have hlt := ofDigitChars_lt h (by decide +kernel :
      searchSize "varchar(18446744073709551616)".toList = some "18446744073709551616".toList)
    revert hlt
    decide +kernel

end Tinydb
