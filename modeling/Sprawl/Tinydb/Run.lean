import Sprawl.Tinydb.Statement

/-!
# Statements one after the other

A run parses statements against one schema that starts empty.  What one statement can do
is `parse_cases`; here is what follows for a run: every table of the schema is well formed
(`schema_grows`), and the names are distinct exactly if the statements see to it
(`names_distinct_iff`), since `AddTable` does not look at them.
-/

namespace Tinydb

open Cxx

/-- The schema behind some statements. -/
def run (schema : Schema) : List (List Char) → Except Stop Schema
  | [] => .ok schema
  | s :: statements =>
    match parse s schema with
    | .error e => .error e
    | .ok parsed => run parsed.2 statements

/-- A table as the schema may hold it. -/
structure Table.WellFormed (t : Table) : Prop where
  columns_ne_nil : t.columns ≠ []
  labels_nodup : (t.columns.map Column.label).Nodup
  columns_wellFormed : ∀ c ∈ t.columns, c.WellFormed

variable {schema schema' final : Schema} {st : Statement} {s name : List Char}

theorem run_cons {statements : List (List Char)} :
    run schema (s :: statements) = .ok final ↔
      ∃ st schema', parse s schema = .ok (st, schema') ∧ run schema' statements = .ok final := by
  rw [run]
  cases parse s schema with
  | error e => simp
  | ok parsed =>
    constructor
    · intro h
      exact ⟨parsed.1, parsed.2, rfl, h⟩
    · rintro ⟨st, schema', hparsed, h⟩
      cases hparsed
      exact h

theorem run_append {before after : List (List Char)} :
    run schema (before ++ after) = .ok final ↔
      ∃ middle, run schema before = .ok middle ∧ run middle after = .ok final := by
  induction before generalizing schema with
  | nil => simp [run]
  | cons s before ih =>
    rw [List.cons_append, run_cons]
    constructor
    · rintro ⟨st, schema', hs, hrest⟩
      obtain ⟨middle, hbefore, hafter⟩ := ih.1 hrest
      exact ⟨middle, run_cons.2 ⟨st, schema', hs, hbefore⟩, hafter⟩
    · rintro ⟨middle, hbefore, hafter⟩
      obtain ⟨st, schema', hs, hrest⟩ := run_cons.1 hbefore
      exact ⟨st, schema', hs, ih.2 ⟨middle, hrest, hafter⟩⟩

/-! ## Well-formed tables -/

theorem parse_wellFormed (h : parse s schema = .ok (st, schema'))
    (hwf : ∀ t ∈ schema.tables, t.WellFormed) : ∀ t ∈ schema'.tables, t.WellFormed := by
  rcases parse_cases h with ⟨name, cols, columns, hgood, hlabels, hcolumns, -, rfl⟩ | ⟨rfl, -⟩
  · intro t ht
    rcases List.mem_append.1 ht with ht | ht
    · exact hwf t ht
    · rw [List.mem_singleton.1 ht]
      refine ⟨?_, by rw [hlabels]; exact hgood.labels_nodup, hcolumns⟩
      rintro rfl
      exact hgood.ne_nil (List.map_eq_nil_iff.1 hlabels.symm)
  · exact hwf

theorem run_wellFormed {statements : List (List Char)} (h : run schema statements = .ok final)
    (hwf : ∀ t ∈ schema.tables, t.WellFormed) : ∀ t ∈ final.tables, t.WellFormed := by
  induction statements generalizing schema with
  | nil =>
    cases h
    exact hwf
  | cons s statements ih =>
    obtain ⟨st, schema', hs, hrest⟩ := run_cons.1 h
    exact ih hrest (parse_wellFormed hs hwf)

/-- **A statement adds a well-formed table, if it is a good create statement, or nothing.** -/
theorem schema_grows (statements : List (List Char)) (s : List Char)
    (hrun : run {} statements = .ok schema) (hs : parse s schema = .ok (st, schema')) :
    (∃ added, schema'.tables = schema.tables ++ added ∧ added.length ≤ 1 ∧
      (added ≠ [] → st.statementType = .create ∧ st.error = none)) ∧
    (st.error ≠ none → schema' = schema) ∧
    ∀ t ∈ schema'.tables, t.WellFormed := by
  refine ⟨?_, ?_, ?_⟩
  · rcases parse_cases hs with ⟨name, cols, columns, -, -, -, rfl, rfl⟩ | ⟨rfl, -⟩
    · exact ⟨[{ name, columns }], rfl, by simp, fun _ => ⟨rfl, rfl⟩⟩
    · exact ⟨[], by simp, by simp, fun h => absurd rfl h⟩
  · intro herror
    rcases parse_cases hs with ⟨name, cols, columns, -, -, -, rfl, -⟩ | ⟨hschema, -⟩
    · exact absurd rfl herror
    · exact hschema
  · exact parse_wellFormed hs (run_wellFormed hrun (by simp))

def createPeople : List Char := "create table people id int name varchar(32)".toList

def peopleTable : Table where
  name := "people".toList
  columns := [{ label := "id".toList, size := 4, type := .integer },
    { label := "name".toList, size := 32, type := .string }]

def createPets : List Char := "create table pets owner int".toList

def petsTable : Table where
  name := "pets".toList
  columns := [{ label := "owner".toList, size := 4, type := .integer }]

theorem run_createPeople : run {} [createPeople] = .ok { tables := [peopleTable] } := by
  decide +kernel

theorem parse_createPets : parse createPets { tables := [peopleTable] } =
    .ok ({ statementType := .create }, { tables := [peopleTable, petsTable] }) := by decide +kernel

theorem schema_grows_createPets :
    ∃ (st : Statement) (schema' : Schema),
      (∃ added, schema'.tables = [peopleTable] ++ added ∧ added.length ≤ 1 ∧
        (added ≠ [] → st.statementType = .create ∧ st.error = none)) ∧
      (st.error ≠ none → schema' = { tables := [peopleTable] }) ∧
      ∀ t ∈ schema'.tables, t.WellFormed :=
  ⟨_, _, schema_grows [createPeople] createPets run_createPeople parse_createPets⟩

/-! ## Distinct names -/

/-- `s` is a good create statement for the table `name`. -/
def Creates (s name : List Char) : Prop := ∃ cols, GoodCreate s name cols

/-- In every state of the run the names are distinct, and a table just made is found by its name. -/
def NamesDistinct (statements : List (List Char)) : Prop :=
  ∀ before s after, statements = before ++ s :: after →
    ∀ schema st schema', run {} before = .ok schema → parse s schema = .ok (st, schema') →
      schema'.getTableNames.Nodup ∧
        (st.statementType = .create → st.error = none → ∃ table,
          schema'.tables = schema.tables ++ [table] ∧
            schema'.findTableByName table.name = some schema.tables.length)

theorem Creates.unique {name' : List Char} (h : Creates s name) (h' : Creates s name') :
    name = name' := by
  obtain ⟨cols, h⟩ := h
  obtain ⟨cols', h'⟩ := h'
  have heq := h.words_eq.symm.trans h'.words_eq
  simp only [List.cons.injEq, true_and] at heq
  exact heq.1

/-- What a statement does to the names. -/
theorem parse_names (h : parse s schema = .ok (st, schema')) :
    (∃ name, Creates s name ∧ schema'.getTableNames = schema.getTableNames ++ [name]) ∨
      (schema'.getTableNames = schema.getTableNames ∧ ∀ name, ¬ Creates s name) := by
  by_cases hcreates : ∃ name, Creates s name
  · obtain ⟨name, cols, hgood⟩ := hcreates
    obtain ⟨columns, hparse⟩ : ∃ columns, parse s schema =
        .ok ({ statementType := .create }, schema.addTable { name, columns }) :=
      parse_of_goodCreate hgood
    rw [hparse] at h
    cases h
    exact .inl ⟨name, ⟨cols, hgood⟩, List.map_append⟩
  · rcases parse_cases h with ⟨name, cols, columns, hgood, -⟩ | ⟨rfl, -⟩
    · exact absurd ⟨name, cols, hgood⟩ hcreates
    · exact .inr ⟨rfl, not_exists.1 hcreates⟩

theorem run_names {statements : List (List Char)} (h : run schema statements = .ok final) :
    name ∈ final.getTableNames ↔
      name ∈ schema.getTableNames ∨ ∃ s ∈ statements, Creates s name := by
  induction statements generalizing schema with
  | nil =>
    cases h
    simp
  | cons s statements ih =>
    obtain ⟨st, schema', hs, hrest⟩ := run_cons.1 h
    rw [ih hrest, List.exists_mem_cons_iff, ← or_assoc]
    rcases parse_names hs with ⟨name', hcreates, hnames⟩ | ⟨hnames, hno⟩
    · have hiff : Creates s name ↔ name = name' :=
        ⟨fun h => h.unique hcreates, fun h => h ▸ hcreates⟩
      rw [hnames, List.mem_append, List.mem_singleton, hiff]
    · rw [hnames, or_iff_left (hno name)]

/-- A state of a run, and the statement parsed in it. -/
theorem run_split {before after : List (List Char)}
    (h : run {} (before ++ s :: after) = .ok final) :
    ∃ schema st schema', run {} before = .ok schema ∧ parse s schema = .ok (st, schema') := by
  obtain ⟨schema, hbefore, hrest⟩ := run_append.1 h
  obtain ⟨st, schema', hs, -⟩ := run_cons.1 hrest
  exact ⟨schema, st, schema', hbefore, hs⟩

theorem pairwise_iff_split {α : Type} {R : α → α → Prop} {xs : List α} :
    xs.Pairwise R ↔ ∀ before x after, xs = before ++ x :: after → ∀ y ∈ before, R y x := by
  constructor
  · rintro h before x after rfl y hy
    exact (List.pairwise_append.1 h).2.2 y hy x List.mem_cons_self
  · intro h
    rw [List.pairwise_iff_getElem]
    intro i j hi hj hij
    refine h (xs.take j) xs[j] (xs.drop (j + 1)) ?_ xs[i] ?_
    · rw [List.getElem_cons_drop, List.take_append_drop]
    · exact List.mem_take_iff_getElem.2 ⟨i, by omega, rfl⟩

/-- The first table of its name is the new one if no other has the name. -/
theorem findTableByName_last {table : Table} (h : table.name ∉ schema.getTableNames) :
    (schema.addTable table).findTableByName table.name = some schema.tables.length := by
  have hnone : schema.tables.findIdx? (fun t => t.name = table.name) = none := by
    rw [List.findIdx?_eq_none_iff]
    intro t ht
    have hne : t.name ≠ table.name := fun heq => h (heq ▸ List.mem_map_of_mem ht)
    simp [hne]
  rw [Schema.findTableByName, Schema.addTable, List.findIdx?_append, hnone]
  simp [List.findIdx?_cons]

/-- No two of the statements create a table of the same name. -/
def NamesOnce (statements : List (List Char)) : Prop :=
  statements.Pairwise fun s t => ∀ name, Creates s name → ¬ Creates t name

theorem run_nodup {statements : List (List Char)} (h : run schema statements = .ok final)
    (honce : NamesOnce statements) (hnodup : schema.getTableNames.Nodup)
    (hfresh : ∀ s ∈ statements, ∀ name, Creates s name → name ∉ schema.getTableNames) :
    final.getTableNames.Nodup := by
  induction statements generalizing schema with
  | nil =>
    cases h
    exact hnodup
  | cons s statements ih =>
    obtain ⟨st, schema', hs, hrest⟩ := run_cons.1 h
    obtain ⟨hfirst, honce⟩ := List.pairwise_cons.1 honce
    obtain ⟨hfresh₁, hfresh⟩ := List.forall_mem_cons.1 hfresh
    rcases parse_names hs with ⟨name, hcreates, hnames⟩ | ⟨hnames, -⟩
    · have hnew : name ∉ schema.getTableNames := hfresh₁ name hcreates
      apply ih hrest honce
      · rw [hnames, ← List.concat_eq_append]
        exact hnodup.concat hnew
      · intro t ht other hother hmem
        rw [hnames, List.mem_append, List.mem_singleton] at hmem
        rcases hmem with hmem | rfl
        · exact hfresh t ht other hother hmem
        · exact hfirst t ht other hcreates hother
    · apply ih hrest honce
      · rw [hnames]
        exact hnodup
      · rw [hnames]
        exact hfresh

/-- **The names stay distinct exactly if no two create statements name the same table.** -/
theorem names_distinct_iff (statements : List (List Char)) (h : run {} statements = .ok final) :
    NamesDistinct statements ↔ NamesOnce statements := by
  constructor
  · intro hdistinct
    apply pairwise_iff_split.2
    rintro before s after rfl t ht name htname hsname
    obtain ⟨schema, st, schema', hbefore, hs⟩ := run_split h
    obtain ⟨hnodup, -⟩ := hdistinct before s after rfl schema st schema' hbefore hs
    have hmem : name ∈ schema.getTableNames := (run_names hbefore).2 (.inr ⟨t, ht, htname⟩)
    rcases parse_names hs with ⟨name', hcreates, hnames⟩ | ⟨-, hno⟩
    · rw [hnames, hcreates.unique hsname] at hnodup
      exact (List.nodup_append.1 hnodup).2.2 name hmem name (by simp) rfl
    · exact hno name hsname
  · rintro honce before s after rfl schema st schema' hbefore hs
    have hnodup : schema'.getTableNames.Nodup := by
      have hprefix : run {} (before ++ [s]) = .ok schema' :=
        run_append.2 ⟨schema, hbefore, run_cons.2 ⟨st, schema', hs, rfl⟩⟩
      have hsublist : (before ++ [s]).Sublist (before ++ s :: after) :=
        (List.Sublist.refl before).append (List.singleton_sublist.2 List.mem_cons_self)
      exact run_nodup hprefix (honce.sublist hsublist) List.nodup_nil
        (by simp [Schema.getTableNames])
    refine ⟨hnodup, fun htype herror => ?_⟩
    rcases parse_cases hs with ⟨name, cols, columns, -, -, -, -, rfl⟩ | ⟨-, hrefused⟩
    · refine ⟨{ name, columns }, rfl, findTableByName_last fun hmem => ?_⟩
      rw [Schema.getTableNames, Schema.addTable, List.map_append] at hnodup
      exact (List.nodup_append.1 hnodup).2.2 name hmem name (by simp) rfl
    · exact absurd herror (hrefused htype)

theorem names_distinct_iff_createPets :
    NamesDistinct [createPeople, createPets] ↔ NamesOnce [createPeople, createPets] := by
  have hrun : run {} ([createPeople] ++ [createPets]) =
      .ok { tables := [peopleTable, petsTable] } :=
    run_append.2 ⟨_, run_createPeople, run_cons.2 ⟨_, _, parse_createPets, rfl⟩⟩
  exact names_distinct_iff [createPeople, createPets] hrun

/-- The second of two statements for `t` is accepted, and the first table is found. -/
theorem names_not_distinct :
    ¬ NamesDistinct ["create table t a int".toList, "create table t b int".toList] := by
  intro h
  have hfirst : run {} ["create table t a int".toList] = .ok { tables := [{
      name := "t".toList, columns := [{ label := "a".toList, size := 4, type := .integer }] }] } := by
    decide +kernel
  have hsecond : parse "create table t b int".toList { tables := [{
      name := "t".toList, columns := [{ label := "a".toList, size := 4, type := .integer }] }] } =
      .ok ({ statementType := .create }, { tables := [{
        name := "t".toList, columns := [{ label := "a".toList, size := 4, type := .integer }] }, {
        name := "t".toList, columns := [{ label := "b".toList, size := 4, type := .integer }] }]
      }) := by
    decide +kernel
  obtain ⟨hnodup, -⟩ := h _ _ [] rfl _ _ _ hfirst hsecond
  exact absurd hnodup (by decide)

end Tinydb
