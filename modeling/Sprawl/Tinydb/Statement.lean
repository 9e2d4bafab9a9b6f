import Sprawl.Lib.Cxx
import Sprawl.Lib.RegExp

/-!
# Schema and statements (`tinydb/schema.cc`, `tinydb/statement.cc`)

The constructor of a `Statement` reads the text and, for a good `create`, adds the table
to the schema.  A `Table*` into the schema is the position of the table.

`parseCreate` looks at `colsize` twice and never at `coltype`, so a column with a size and
no type (`blob(3)`) ends the process: `value()` throws out of a `noexcept` function.
-/

namespace Tinydb

open Cxx RegExp RegularExpression

inductive ColumnType
  | undefined
  | string
  | integer
deriving DecidableEq, Repr

structure Column where
  label : List Char
  size : UInt64
  type : ColumnType
deriving DecidableEq, Repr

structure Table where
  name : List Char
  columns : List Column
deriving DecidableEq, Repr

structure Schema where
  tables : List Table := []
deriving DecidableEq, Repr

def Schema.addTable (s : Schema) (table : Table) : Schema :=
  { tables := s.tables ++ [table] }

def Schema.getTableNames (s : Schema) : List (List Char) := s.tables.map Table.name

/-- `FindTableByName`: the position of the table it points to. -/
def Schema.findTableByName (s : Schema) (name : List Char) : Option Nat :=
  s.tables.findIdx? fun table => table.name = name

inductive StatementType
  | undefined
  | insert
  | select
  | create
  | invalid
deriving DecidableEq, Repr

structure Statement where
  statementType : StatementType := .undefined
  error : Option (List Char) := none
  wildcardValues : Bool := false
  values : List (List Char) := []
  tableName : Option (List Char) := none
deriving DecidableEq, Repr

/-! ## Columns -/

def digits : List Char := "0123456789".toList

/-- The digits in the first `\(([0-9]+)\)`. -/
def searchSize : List Char → Option (List Char)
  | [] => none
  | c :: s =>
    let size := s.takeWhile (· ∈ digits)
    if c = '(' ∧ size ≠ [] ∧ (s.dropWhile (· ∈ digits)).head? = some ')' then some size
    else searchSize s

def parseColumnSize (column : List Char) : Option UInt64 :=
  if column = "int".toList then some 4
  else
    match searchSize column with
    | none => none
    | some size =>
      let val := (strtoull 10 size).getD 0
      if val ≠ 0 then some val else none

def ofVarchar : RegularExpression Char :=
  word "varchar(".toList * (some1 (oneOf digits) * word ")".toList)

def ofInt : RegularExpression Char := word "int".toList

def parseColumnType (column : List Char) : Option ColumnType :=
  if fullMatch ofVarchar column then some .string
  else if fullMatch ofInt column then some .integer
  else none

/-! ## Statements -/

def parseInsert : Statement := { statementType := .insert }

/-- `while (*it != "from")`: the values, and what is left from `from` on. -/
def readValues (values : List (List Char)) :
    List (List Char) → Except Stop (List (List Char) × List (List Char))
  | [] => .error (.undefined .outOfBounds)
  | t :: it => if t = "from".toList then .ok (values, t :: it) else readValues (values ++ [t]) it

def parseSelect (tokens : List (List Char)) : Except Stop Statement :=
  if tokens.length < 4 then
    .ok { statementType := .select
          error := some "invalid select statement: expecting at least 4 parts".toList }
  else do
    let it := tokens.drop 1
    let wildcardValues := decide ((← readAt it 0) = "*".toList)
    let read ← (if wildcardValues then .ok ([], it) else readValues [] it)
    let tableName ← readAt read.2 1
    return { statementType := .select, wildcardValues, values := read.1,
             tableName := some tableName }

/-- `it += 2` from the fourth token to the end: the labels with what comes behind them. -/
def columnTokens : List (List Char) → List (List Char × List Char)
  | label :: type :: it => (label, type) :: columnTokens it
  | _ => []

/-- A name that is in `names` by the time it is looked at. -/
def duplicateNames (names : List (List Char)) : List (List Char) → Bool
  | [] => false
  | name :: it => if name ∈ names then true else duplicateNames (names ++ [name]) it

/-- The second loop: the columns, or the error it ends with. -/
def parseColumns (columns : List Column) :
    List (List Char × List Char) → Except Stop (Except (List Char) (List Column))
  | [] => .ok (.ok columns)
  | (label, type) :: it =>
    match parseColumnSize type with
    | none => .ok (.error ("invalid size in column specification: ".toList ++ type))
    | some colsize =>
      match parseColumnType type with
      | none => .error .abort
      | some coltype => parseColumns (columns ++ [{ label, size := colsize, type := coltype }]) it

/-- A create statement, with its error if there is one. -/
def created (error : Option String) : Statement :=
  { statementType := .create, error := error.map String.toList }

def parseCreate (tokens : List (List Char)) (schema : Schema) :
    Except Stop (Statement × Schema) :=
  if tokens.length < 2 then
    .ok (created "invalid create statement: expecting at least `create table`", schema)
  else if tokens[0]? ≠ some "create".toList ∨ tokens[1]? ≠ some "table".toList then
    .ok (created "queries should begin with `create table`", schema)
  else
    match tokens[2]? with
    | none =>
      .ok (created "invalid create statement: expecting table name with at least a column", schema)
    | some tableName =>
      let colCount := tokens.length - 3
      let columns := columnTokens (tokens.drop 3)
      if colCount = 0 then
        .ok (created "must specify at least one column in the table", schema)
      else if colCount % 2 ≠ 0 then .ok (created "bad column definition", schema)
      else if duplicateNames [] (columns.map Prod.fst) then
        .ok (created "duplicate column names", schema)
      else
        match parseColumns [] columns with
        | .error e => .error e
        | .ok (.error what) => .ok ({ statementType := .create, error := some what }, schema)
        | .ok (.ok columns) =>
          .ok ({ statementType := .create }, schema.addTable { name := tableName, columns })

/-- `Parse` on the tokens of a statement. -/
def parseTokens (tokens : List (List Char)) (schema : Schema) :
    Except Stop (Statement × Schema) :=
  match tokens with
  | [] => .ok ({ statementType := .invalid, error := some "empty query".toList }, schema)
  | t :: _ =>
    if t = "insert".toList then .ok (parseInsert, schema)
    else if t = "select".toList then (parseSelect tokens).map fun s => (s, schema)
    else if t = "create".toList then parseCreate tokens schema
    else .ok ({ statementType := .invalid, error := some "bad starter identifier".toList }, schema)

/-- The constructor of `Statement`. -/
def parse (statement : List Char) (schema : Schema) : Except Stop (Statement × Schema) :=
  parseTokens (words statement) schema

/-! ## Which types a column may have -/

/-- `int`, or `varchar` with a length that is not zero. -/
inductive GoodType : List Char → Prop
  | int : GoodType "int".toList
  | varchar (size : List Char) : size ≠ [] → (∀ c ∈ size, c ∈ digits) → (∃ c ∈ size, c ≠ '0') →
      GoodType ("varchar(".toList ++ size ++ ")".toList)

theorem parseColumnType_string {t : List Char} :
    fullMatch ofVarchar t = true ↔
      ∃ size, size ≠ [] ∧ (∀ c ∈ size, c ∈ digits) ∧
        t = "varchar(".toList ++ size ++ ")".toList := by
  rw [fullMatch_iff, ofVarchar, mem_mul]
  constructor
  · rintro ⟨a, b, rfl, ha, hb⟩
    obtain ⟨size, d, rfl, hsize, hd⟩ := (mem_mul _ _ _).1 hb
    rw [mem_word] at ha hd
    obtain ⟨hne, hdigits⟩ := (mem_some1_oneOf _ _).1 hsize
    exact ⟨size, hne, hdigits, by rw [ha, hd, List.append_assoc]⟩
  · rintro ⟨size, hne, hdigits, rfl⟩
    refine ⟨_, size ++ ")".toList, List.append_assoc _ _ _, (mem_word _ _).2 rfl, ?_⟩
    exact (mem_mul _ _ _).2
      ⟨size, _, rfl, (mem_some1_oneOf _ _).2 ⟨hne, hdigits⟩, (mem_word _ _).2 rfl⟩

theorem fullMatch_ofInt {t : List Char} : fullMatch ofInt t = true ↔ t = "int".toList := by
  rw [fullMatch_iff, ofInt, mem_word]

theorem takeWhile_digits {size : List Char} (h : ∀ c ∈ size, c ∈ digits) (s : List Char) :
    (size ++ ')' :: s).takeWhile (· ∈ digits) = size ∧
      (size ++ ')' :: s).dropWhile (· ∈ digits) = ')' :: s := by
  have hparen : ')' ∉ digits := by decide
  induction size with
  | nil => simp [hparen]
  | cons c size ih =>
    have hc : c ∈ digits := h c List.mem_cons_self
    obtain ⟨htake, hdrop⟩ := ih fun d hd => h d (List.mem_cons_of_mem _ hd)
    simp only [List.cons_append, List.takeWhile_cons, List.dropWhile_cons, hc, decide_true,
      if_true, htake, hdrop, and_self]

/-- The size of `varchar(n)` is what stands between the parentheses. -/
theorem searchSize_varchar {size : List Char} (hne : size ≠ []) (h : ∀ c ∈ size, c ∈ digits) :
    searchSize ("varchar(".toList ++ size ++ ")".toList) = some size := by
  obtain ⟨htake, hdrop⟩ := takeWhile_digits h []
  have hskip : ∀ c s, c ≠ '(' → searchSize (c :: s) = searchSize s := by
    intro c s hc
    rw [searchSize, if_neg (by simp [hc])]
  show searchSize ('v' :: 'a' :: 'r' :: 'c' :: 'h' :: 'a' :: 'r' :: '(' :: (size ++ [')'])) = _
  iterate 7 rw [hskip _ _ (by decide)]
  rw [searchSize, htake, hdrop, if_pos ⟨rfl, hne, rfl⟩]

/-- The digits of the regular expressions are the digits `strtoull` reads. -/
theorem isDigit_digits {c : Char} (h : c ∈ digits) :
    c.isDigit = true ∧ (c.toNat - 48 = 0 ↔ c = '0') := by
  have hall : ∀ c ∈ digits, c.isDigit = true ∧ (c.toNat - 48 = 0 ↔ c = '0') := by
    decide
  exact hall c h

/-- The number the digits write, as far as it fits. -/
theorem strtoull_digits {size : List Char} (hne : size ≠ []) (h : ∀ c ∈ size, c ∈ digits) :
    strtoull 10 size = some (min (Nat.ofDigitChars 10 size 0) (2 ^ 64 - 1)).toUInt64 :=
  strtoull_isDigit hne fun c hc => (isDigit_digits (h c hc)).1

theorem ofDigitChars_eq_zero_iff {size : List Char} (h : ∀ c ∈ size, c ∈ digits) :
    Nat.ofDigitChars 10 size 0 = 0 ↔ ∀ c ∈ size, c = '0' := by
  induction size with
  | nil => simp
  | cons c size ih =>
    obtain ⟨hc, hsize⟩ := List.forall_mem_cons.1 h
    have hpow : 10 ^ size.length ≠ 0 := by positivity
    rw [Nat.ofDigitChars_cons, Nat.mul_zero, Nat.zero_add, Nat.ofDigitChars_eq_ofDigitChars_zero,
      Nat.add_eq_zero_iff, mul_eq_zero, or_iff_right hpow, ih hsize, List.forall_mem_cons]
    show c.toNat - 48 = 0 ∧ _ ↔ _
    rw [(isDigit_digits hc).2]

theorem strtoull_size {size : List Char} (hne : size ≠ []) (h : ∀ c ∈ size, c ∈ digits) :
    (strtoull 10 size).getD 0 ≠ 0 ↔ ∃ c ∈ size, c ≠ '0' := by
  have hle : min (Nat.ofDigitChars 10 size 0) (2 ^ 64 - 1) < 2 ^ 64 := by omega
  have hiff : min (Nat.ofDigitChars 10 size 0) (2 ^ 64 - 1) = 0 ↔
      Nat.ofDigitChars 10 size 0 = 0 := by omega
  rw [strtoull_digits hne h, Option.getD_some, Ne, ← UInt64.toNat_inj,
    UInt64.toNat_ofNat_of_lt' hle]
  show ¬ min _ (2 ^ 64 - 1) = 0 ↔ _
  rw [hiff, ofDigitChars_eq_zero_iff h]
  push Not
  rfl

theorem parseColumnSize_varchar {size : List Char} (hne : size ≠ [])
    (h : ∀ c ∈ size, c ∈ digits) :
    parseColumnSize ("varchar(".toList ++ size ++ ")".toList) =
      if (strtoull 10 size).getD 0 ≠ 0 then some ((strtoull 10 size).getD 0) else none := by
  have hint : "varchar(".toList ++ size ++ ")".toList ≠ "int".toList := by
    intro heq
    exact absurd (List.cons.inj heq).1 (by decide)
  rw [parseColumnSize, if_neg hint, searchSize_varchar hne h]

theorem parseColumnType_int : parseColumnType "int".toList = some .integer := by
  have hno : ¬ fullMatch ofVarchar "int".toList = true := by
    intro hvarchar
    obtain ⟨size, -, -, heq⟩ := parseColumnType_string.1 hvarchar
    exact absurd (List.cons.inj heq).1 (by decide)
  rw [parseColumnType, if_neg hno, if_pos (fullMatch_ofInt.2 rfl)]

theorem parseColumnType_varchar {size : List Char} (hne : size ≠ [])
    (h : ∀ c ∈ size, c ∈ digits) :
    parseColumnType ("varchar(".toList ++ size ++ ")".toList) = some .string := by
  rw [parseColumnType, if_pos (parseColumnType_string.2 ⟨size, hne, h, rfl⟩)]

theorem parseColumnType_eq {t : List Char} {type : ColumnType} (h : parseColumnType t = some type) :
    (type = .integer ∧ t = "int".toList) ∨
      (type = .string ∧ ∃ size, size ≠ [] ∧ (∀ c ∈ size, c ∈ digits) ∧
        t = "varchar(".toList ++ size ++ ")".toList) := by
  unfold parseColumnType at h
  split at h
  · next hvarchar =>
    cases h
    exact .inr ⟨rfl, parseColumnType_string.1 hvarchar⟩
  · split at h
    · next hint =>
      cases h
      exact .inl ⟨rfl, fullMatch_ofInt.1 hint⟩
    · cases h

/-- The good types are those with a size and a type. -/
theorem goodType_iff {t : List Char} :
    GoodType t ↔ (parseColumnSize t).isSome ∧ (parseColumnType t).isSome := by
  constructor
  · intro hgood
    cases hgood with
    | int => exact ⟨rfl, by rw [parseColumnType_int]; rfl⟩
    | varchar size hne hdigits hnz =>
      rw [parseColumnSize_varchar hne hdigits, if_pos ((strtoull_size hne hdigits).2 hnz),
        parseColumnType_varchar hne hdigits]
      exact ⟨rfl, rfl⟩
  · rintro ⟨hsize, htype⟩
    obtain ⟨type, htype⟩ := Option.isSome_iff_exists.1 htype
    rcases parseColumnType_eq htype with ⟨-, rfl⟩ | ⟨-, size, hne, hdigits, rfl⟩
    · exact .int
    · refine .varchar size hne hdigits ((strtoull_size hne hdigits).1 ?_)
      intro hzero
      rw [parseColumnSize_varchar hne hdigits, if_neg (not_not.2 hzero)] at hsize
      cases hsize

/-! ## Good columns -/

/-- A column as the schema may hold it. -/
structure Column.WellFormed (c : Column) : Prop where
  integer_size : c.type = .integer → c.size = 4
  string_size : c.type = .string → 0 < c.size

theorem parseColumnSize_pos {t : List Char} {size : UInt64} (h : parseColumnSize t = some size) :
    0 < size := by
  unfold parseColumnSize at h
  split at h
  · cases h
    decide
  · split at h
    · cases h
    · simp only at h
      split at h
      · next hne =>
        cases h
        exact UInt64.pos_iff_ne_zero.2 hne
      · cases h

/-- What is pushed for a column that has a size and a type. -/
theorem column_wellFormed {label t : List Char} {size : UInt64} {type : ColumnType}
    (hsize : parseColumnSize t = some size) (htype : parseColumnType t = some type) :
    Column.WellFormed { label, size, type } := by
  constructor
  · intro hinteger
    rcases parseColumnType_eq htype with ⟨-, rfl⟩ | ⟨hstring, -⟩
    · cases hsize
      rfl
    · exact absurd (hinteger.symm.trans hstring) (by decide)
  · intro _
    exact parseColumnSize_pos hsize

theorem parseColumns_ok {cols : List (List Char × List Char)} {columns out : List Column}
    (h : parseColumns columns cols = .ok (.ok out)) :
    ∃ new, out = columns ++ new ∧ new.map Column.label = cols.map Prod.fst ∧
      (∀ c ∈ new, c.WellFormed) ∧ ∀ p ∈ cols, GoodType p.2 := by
  induction cols generalizing columns with
  | nil =>
    cases h
    exact ⟨[], by simp⟩
  | cons p cols ih =>
    obtain ⟨label, t⟩ := p
    unfold parseColumns at h
    cases hsize : parseColumnSize t with
    | none =>
      rw [hsize] at h
      cases h
    | some size =>
      cases htype : parseColumnType t with
      | none =>
        rw [hsize, htype] at h
        cases h
      | some type =>
        rw [hsize, htype] at h
        obtain ⟨new, rfl, hlabels, hwf, hgood⟩ := ih h
        refine ⟨{ label, size, type } :: new, by simp, by simp [hlabels], ?_, ?_⟩
        · exact List.forall_mem_cons.2 ⟨column_wellFormed hsize htype, hwf⟩
        · refine List.forall_mem_cons.2 ⟨goodType_iff.2 ?_, hgood⟩
          exact ⟨by rw [hsize]; rfl, by rw [htype]; rfl⟩

theorem parseColumns_of_good {cols : List (List Char × List Char)}
    (h : ∀ p ∈ cols, GoodType p.2) (columns : List Column) :
    ∃ out, parseColumns columns cols = .ok (.ok out) := by
  induction cols generalizing columns with
  | nil => exact ⟨columns, rfl⟩
  | cons p cols ih =>
    obtain ⟨hp, hrest⟩ := List.forall_mem_cons.1 h
    obtain ⟨hsize, htype⟩ := goodType_iff.1 hp
    obtain ⟨size, hsize⟩ := Option.isSome_iff_exists.1 hsize
    obtain ⟨type, htype⟩ := Option.isSome_iff_exists.1 htype
    unfold parseColumns
    rw [hsize, htype]
    exact ih hrest _

theorem duplicateNames_iff {names seen : List (List Char)} :
    duplicateNames seen names = false ↔ names.Nodup ∧ ∀ n ∈ names, n ∉ seen := by
  induction names generalizing seen with
  | nil => simp [duplicateNames]
  | cons n names ih =>
    unfold duplicateNames
    by_cases hn : n ∈ seen
    · simp [hn]
    · rw [if_neg hn, ih]
      simp only [List.nodup_cons, List.mem_cons, List.mem_append]
      grind

/-! ## The statements that define a table -/

/-- The words of some columns: each label with its type behind it. -/
def columnWords (cols : List (List Char × List Char)) : List (List Char) :=
  cols.flatMap fun c => [c.1, c.2]

/-- `s` is a create statement for the table `name` with the columns `cols`, and a good one. -/
structure GoodCreate (s name : List Char) (cols : List (List Char × List Char)) : Prop where
  words_eq : words s = "create".toList :: "table".toList :: name :: columnWords cols
  ne_nil : cols ≠ []
  labels_nodup : (cols.map Prod.fst).Nodup
  types_good : ∀ c ∈ cols, GoodType c.2

@[simp] theorem columnTokens_columnWords (cols : List (List Char × List Char)) :
    columnTokens (columnWords cols) = cols := by
  induction cols with
  | nil => rfl
  | cons c cols ih =>
    show (c.1, c.2) :: columnTokens (columnWords cols) = _
    rw [ih]

theorem columnWords_columnTokens {ts : List (List Char)} (h : ts.length % 2 = 0) :
    columnWords (columnTokens ts) = ts := by
  induction ts using columnTokens.induct with
  | case1 label type it ih =>
    show label :: type :: columnWords (columnTokens it) = _
    rw [ih (by simp only [List.length_cons] at h; omega)]
  | case2 ts hts =>
    match ts, h, hts with
    | [], _, _ => rfl
    | [_], h, _ => simp at h
    | l :: t :: it, _, hts => exact absurd rfl (hts l t it)

theorem length_columnWords (cols : List (List Char × List Char)) :
    (columnWords cols).length = 2 * cols.length := by
  induction cols with
  | nil => rfl
  | cons c cols ih =>
    show (columnWords cols).length + 2 = _
    rw [ih, List.length_cons]
    omega

variable {schema schema' : Schema} {st : Statement} {s name : List Char}

/-- The words of some columns with distinct labels: the second loop decides. -/
theorem parseCreate_columnWords {cols : List (List Char × List Char)} (hne : cols ≠ [])
    (hlabels : (cols.map Prod.fst).Nodup) :
    parseCreate ("create".toList :: "table".toList :: name :: columnWords cols) schema =
      match parseColumns [] cols with
      | .error e => .error e
      | .ok (.error what) => .ok ({ statementType := .create, error := some what }, schema)
      | .ok (.ok columns) =>
        .ok ({ statementType := .create }, schema.addTable { name, columns }) := by
  have hdup : duplicateNames [] (cols.map Prod.fst) = false :=
    duplicateNames_iff.2 ⟨hlabels, by simp⟩
  have hpos : 0 < cols.length := List.length_pos_of_ne_nil hne
  rw [parseCreate, if_neg (by simp), if_neg (by simp)]
  show (if _ then _ else _) = _
  simp only [List.length_cons, List.drop_succ_cons, List.drop_zero, columnTokens_columnWords,
    length_columnWords, hdup, Bool.false_eq_true, if_false]
  rw [if_neg (by omega), if_neg (by omega)]

/-- A good create statement defines its table. -/
theorem parse_of_goodCreate {cols : List (List Char × List Char)} (h : GoodCreate s name cols) :
    ∃ columns, parse s schema =
      .ok ({ statementType := .create }, schema.addTable { name, columns }) := by
  obtain ⟨columns, hcolumns⟩ := parseColumns_of_good h.types_good []
  refine ⟨columns, ?_⟩
  rw [parse, h.words_eq, parseTokens, if_neg (by decide), if_neg (by decide), if_pos rfl,
    parseCreate_columnWords h.ne_nil h.labels_nodup, hcolumns]

theorem parseSelect_type {tokens : List (List Char)} (h : parseSelect tokens = .ok st) :
    st.statementType = .select := by
  unfold parseSelect at h
  by_cases hlen : tokens.length < 4
  · rw [if_pos hlen] at h
    cases h
    rfl
  · rw [if_neg hlen] at h
    obtain ⟨_, -, h⟩ := bind_eq_ok.1 h
    obtain ⟨_, -, h⟩ := bind_eq_ok.1 h
    obtain ⟨_, -, h⟩ := bind_eq_ok.1 h
    cases h
    rfl

/-- What does not come to the second loop is refused. -/
theorem parseCreate_refuses (tokens : List (List Char)) (schema : Schema) :
    (∃ name cols, tokens = "create".toList :: "table".toList :: name :: columnWords cols ∧
      cols ≠ [] ∧ (cols.map Prod.fst).Nodup) ∨
    ∃ st, parseCreate tokens schema = .ok (st, schema) ∧ st.error ≠ none := by
  have hrefused : ∀ what : String, ∃ st, Except.ok (ε := Stop) (created what, schema) =
      .ok (st, schema) ∧ st.error ≠ none := fun what => ⟨_, rfl, Option.some_ne_none _⟩
  unfold parseCreate
  split
  · exact .inr (hrefused _)
  · split
    · exact .inr (hrefused _)
    · next hstart =>
      split
      · exact .inr (hrefused _)
      · next name hname =>
        obtain ⟨h0, h1⟩ := not_or.1 hstart
        obtain ⟨t0, t1, t2, rest, rfl⟩ : ∃ t0 t1 t2 rest, tokens = t0 :: t1 :: t2 :: rest := by
          rcases tokens with _ | ⟨t0, _ | ⟨t1, _ | ⟨t2, rest⟩⟩⟩
          · cases hname
          · cases hname
          · cases hname
          · exact ⟨t0, t1, t2, rest, rfl⟩
        simp only [List.getElem?_cons_zero, List.getElem?_cons_succ, Option.some.injEq,
          not_not] at h0 h1 hname
        subst h0 h1 hname
        simp only [List.length_cons, List.drop_succ_cons, List.drop_zero]
        split
        · exact .inr (hrefused _)
        · next hne =>
          split
          · exact .inr (hrefused _)
          · next heven =>
            split
            · exact .inr (hrefused _)
            · next hdup =>
              have hrest : columnWords (columnTokens rest) = rest :=
                columnWords_columnTokens (by omega)
              refine .inl ⟨t2, columnTokens rest, by rw [hrest], ?_, ?_⟩
              · intro hnil
                rw [hnil] at hrest
                subst hrest
                exact hne rfl
              · exact (duplicateNames_iff.1 (Bool.eq_false_iff.2 hdup)).1

/-- Every way through `ParseCreate` that returns. -/
theorem parseCreate_cases {tokens : List (List Char)}
    (h : parseCreate tokens schema = .ok (st, schema')) :
    (∃ name cols columns, tokens = "create".toList :: "table".toList :: name :: columnWords cols ∧
      cols ≠ [] ∧ (cols.map Prod.fst).Nodup ∧ parseColumns [] cols = .ok (.ok columns) ∧
      st = { statementType := .create } ∧ schema' = schema.addTable { name, columns }) ∨
    (schema' = schema ∧ st.error ≠ none) := by
  rcases parseCreate_refuses tokens schema with ⟨name, cols, rfl, hne, hlabels⟩ | ⟨st', hst, herror⟩
  · rw [parseCreate_columnWords hne hlabels] at h
    split at h
    · cases h
    · cases h
      exact .inr ⟨rfl, Option.some_ne_none _⟩
    · next columns hcolumns =>
      cases h
      exact .inl ⟨name, cols, columns, rfl, hne, hlabels, hcolumns, rfl, rfl⟩
  · rw [hst] at h
    cases h
    exact .inr ⟨rfl, herror⟩

/-- What a statement can do: define its table, or leave the schema alone. -/
theorem parse_cases (h : parse s schema = .ok (st, schema')) :
    (∃ name cols columns, GoodCreate s name cols ∧ columns.map Column.label = cols.map Prod.fst ∧
      (∀ c ∈ columns, c.WellFormed) ∧ st = { statementType := .create } ∧
      schema' = schema.addTable { name, columns }) ∨
    (schema' = schema ∧ (st.statementType = .create → st.error ≠ none)) := by
  rw [parse] at h
  unfold parseTokens at h
  split at h
  · cases h
    exact .inr ⟨rfl, by simp⟩
  · next t tokens hwords =>
    split at h
    · cases h
      exact .inr ⟨rfl, by simp [parseInsert]⟩
    · split at h
      · cases hselect : parseSelect (words s) with
        | error e =>
          rw [hselect] at h
          cases h
        | ok select =>
          rw [hselect] at h
          cases h
          refine .inr ⟨rfl, fun htype => ?_⟩
          exact absurd ((parseSelect_type hselect).symm.trans htype) (by decide)
      · split at h
        · rcases parseCreate_cases h with
            ⟨name, cols, columns, htokens, hne, hdup, hcolumns, hst, hschema⟩ | ⟨hschema, herror⟩
          · obtain ⟨new, hnew, hlabels, hwf, hgood⟩ := parseColumns_ok hcolumns
            rw [List.nil_append] at hnew
            subst hnew
            exact .inl ⟨name, cols, columns, ⟨htokens, hne, hdup, hgood⟩, hlabels, hwf,
              hst, hschema⟩
          · exact .inr ⟨hschema, fun _ => herror⟩
        · cases h
          exact .inr ⟨rfl, by simp⟩

end Tinydb
