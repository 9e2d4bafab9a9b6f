import Sprawl.Tinydb.Create
import Sprawl.Tinydb.Run

/-!
# A schema written as statements

The tables of a schema are written as create statements, one for each.  A schema that came
from statements is read back from these, whatever the statements were: their selects, their
layout, the refused ones and the lengths written with zeroes in front leave no trace
(`run_createStatements`).
-/

namespace Tinydb

open Cxx

/-- The statement that writes a table. -/
def Table.createStatement (table : Table) : List Char :=
  [' '].intercalate ("create".toList :: table.createWords)

def Schema.createStatements (schema : Schema) : List (List Char) :=
  schema.tables.map Table.createStatement

/-- A table whose words can be read back. -/
structure Table.Writable (table : Table) : Prop where
  name_word : IsWord table.name
  labels_word : ∀ c ∈ table.columns, IsWord c.label
  columns_ne_nil : table.columns ≠ []
  labels_nodup : (table.columns.map Column.label).Nodup
  columns_typed : ∀ c ∈ table.columns,
    c.type = .integer ∧ c.size = 4 ∨ c.type = .string ∧ 0 < c.size

variable {schema schema' final : Schema} {st : Statement} {s : List Char} {table : Table}

/-! ## Reading one back -/

theorem isWord_varchar (n : Nat) :
    IsWord ("varchar(".toList ++ Nat.toDigits 10 n ++ ")".toList) := by
  refine ⟨by simp, fun c hc => ?_⟩
  rw [List.mem_append, List.mem_append] at hc
  have hfront : ∀ c ∈ "varchar(".toList, isSpace c = false := by decide
  have hback : ∀ c ∈ ")".toList, isSpace c = false := by decide
  rcases hc with (hc | hc) | hc
  · exact hfront c hc
  · obtain ⟨ds, hlt, hmap, -⟩ := exists_digits n (by decide : 1 < 10)
    rw [hmap] at hc
    obtain ⟨d, hd, rfl⟩ := List.mem_map.1 hc
    have hall : ∀ d < 10, isSpace (Nat.digitChar d) = false := by decide
    exact hall d (hlt d hd)
  · exact hback c hc

theorem Table.Writable.words (h : table.Writable) :
    ∀ w ∈ "create".toList :: table.createWords, IsWord w := by
  have hcreate : ∀ w ∈ ["create".toList, "table".toList, "int".toList], IsWord w := by
    simp only [IsWord]
    decide
  refine List.forall_mem_cons.2 ⟨hcreate _ (by simp), List.forall_mem_cons.2
    ⟨hcreate _ (by simp), List.forall_mem_cons.2 ⟨h.name_word, fun w hw => ?_⟩⟩⟩
  obtain ⟨p, hp, hw⟩ := List.mem_flatMap.1 hw
  obtain ⟨c, hc, rfl⟩ := List.mem_map.1 hp
  rw [List.mem_pair] at hw
  rcases hw with rfl | rfl
  · exact h.labels_word c hc
  · rcases h.columns_typed c hc with ⟨htype, -⟩ | ⟨htype, -⟩
    · rw [htype]
      exact hcreate _ (by simp)
    · rw [htype]
      exact isWord_varchar _

theorem Table.Writable.parse (h : table.Writable) (schema : Schema) :
    parse table.createStatement schema =
      .ok ({ statementType := .create }, schema.addTable table) :=
  parse_writes schema (spaced_intercalate h.words)
    (writes_createWords h.columns_ne_nil h.labels_nodup h.columns_typed)

/-! ## What a statement adds -/

theorem parseColumns_typed {cols : List (List Char × List Char)} {columns out : List Column}
    (h : parseColumns columns cols = .ok (.ok out)) :
    ∀ c ∈ out, c ∈ columns ∨ c.type = .integer ∨ c.type = .string := by
  induction cols generalizing columns with
  | nil =>
    cases h
    exact fun c hc => .inl hc
  | cons p cols ih =>
    unfold parseColumns at h
    cases hsize : parseColumnSize p.2 with
    | none =>
      rw [hsize] at h
      cases h
    | some size =>
      cases htype : parseColumnType p.2 with
      | none =>
        rw [hsize, htype] at h
        cases h
      | some type =>
        rw [hsize, htype] at h
        intro c hc
        rcases ih h c hc with hold | htyped
        · rcases List.mem_append.1 hold with hold | hnew
          · exact .inl hold
          · rw [List.mem_singleton] at hnew
            rw [hnew]
            exact .inr ((parseColumnType_eq htype).imp (fun h => h.1) (fun h => h.1))
        · exact .inr htyped

/-- The columns of a good create statement. -/
theorem GoodCreate.typed {name : List Char} {cols : List (List Char × List Char)}
    {columns : List Column} (hgood : GoodCreate s name cols)
    (h : parse s schema = .ok (st, schema.addTable { name, columns })) :
    ∀ c ∈ columns, c.type = .integer ∨ c.type = .string := by
  obtain ⟨out, hout⟩ := parseColumns_of_good hgood.types_good []
  rw [parse_create (words_eq_iff.1 hgood.words_eq),
    parseCreate_columnWords hgood.ne_nil hgood.labels_nodup, hout] at h
  have htables : schema.tables ++ [Table.mk name out] = schema.tables ++ [Table.mk name columns] :=
    congrArg Schema.tables (congrArg Prod.snd (Except.ok.inj h))
  have heq : out = columns := by
    have hlast := List.append_cancel_left htables
    cases hlast
    rfl
  intro c hc
  rw [← heq] at hc
  exact (parseColumns_typed hout c hc).resolve_left List.not_mem_nil

/-- A statement adds a table that can be written, or nothing. -/
theorem parse_writable (h : parse s schema = .ok (st, schema')) :
    (∃ table, table.Writable ∧ schema' = schema.addTable table) ∨ schema' = schema := by
  rcases parse_cases h with
    ⟨name, cols, columns, hgood, hlabels, hcolumns, -, rfl⟩ | ⟨hsame, -⟩
  · refine .inl ⟨{ name, columns }, ?_, rfl⟩
    have hwords : ∀ w ∈ name :: columnWords cols, IsWord w := fun w hw =>
      (words_eq_iff.1 hgood.words_eq).isWord w
        (List.mem_cons_of_mem _ (List.mem_cons_of_mem _ hw))
    refine ⟨hwords _ List.mem_cons_self, ?_, ?_, ?_, ?_⟩
    · intro c hc
      have hlabel : c.label ∈ cols.map Prod.fst := hlabels ▸ List.mem_map_of_mem hc
      obtain ⟨p, hp, heq⟩ := List.mem_map.1 hlabel
      rw [← heq]
      exact hwords _ (List.mem_cons_of_mem _ (List.mem_flatMap.2 ⟨p, hp, List.mem_cons_self⟩))
    · rintro rfl
      exact hgood.ne_nil (List.map_eq_nil_iff.1 hlabels.symm)
    · rw [hlabels]
      exact hgood.labels_nodup
    · intro c hc
      exact (hgood.typed h c hc).imp
        (fun htype => ⟨htype, (hcolumns c hc).integer_size htype⟩)
        (fun htype => ⟨htype, (hcolumns c hc).string_size htype⟩)
  · exact .inr hsame

/-- Behind every run, the tables that are new can be written. -/
theorem run_writable {statements : List (List Char)} (h : run schema statements = .ok final)
    (hwritable : ∀ table ∈ schema.tables, table.Writable) :
    ∀ table ∈ final.tables, table.Writable := by
  induction statements generalizing schema with
  | nil =>
    cases h
    exact hwritable
  | cons s statements ih =>
    obtain ⟨st, schema', hs, hrest⟩ := run_cons.1 h
    refine ih hrest ?_
    rcases parse_writable hs with ⟨table, htable, rfl⟩ | rfl
    · intro t ht
      rcases List.mem_append.1 ht with ht | ht
      · exact hwritable t ht
      · rwa [List.mem_singleton.1 ht]
    · exact hwritable

/-- Tables that can be written are added one behind the other. -/
theorem run_tables {tables : List Table} (h : ∀ table ∈ tables, table.Writable) (base : Schema) :
    run base (tables.map Table.createStatement) = .ok { tables := base.tables ++ tables } := by
  induction tables generalizing base with
  | nil =>
    rw [List.append_nil]
    rfl
  | cons table tables ih =>
    obtain ⟨htable, htables⟩ := List.forall_mem_cons.1 h
    rw [List.map_cons, run_cons]
    refine ⟨_, _, htable.parse base, ?_⟩
    rw [ih htables]
    show Except.ok (Schema.mk ((base.tables ++ [table]) ++ tables)) = _
    rw [List.append_assoc]
    rfl

/-- **The schema of a run is rebuilt by the statements that write its tables.** -/
theorem run_createStatements {statements : List (List Char)} (h : run {} statements = .ok schema)
    (base : Schema) :
    run base schema.createStatements = .ok { tables := base.tables ++ schema.tables } :=
  run_tables (run_writable h (fun _ ht => absurd ht List.not_mem_nil)) base

/-- Behind a refused statement, and from another layout. -/
theorem run_createStatements_people :
    run { tables := [people] } (Schema.createStatements { tables := [people] }) =
      .ok { tables := [people] ++ [people] } := by
  have hrun : run {} ["create table people id".toList,
      " create table people\n  id int\n  name varchar(0018446744073709551616)".toList] =
        .ok { tables := [people] } := by
    decide +kernel
  exact run_createStatements hrun { tables := [people] }

end Tinydb
