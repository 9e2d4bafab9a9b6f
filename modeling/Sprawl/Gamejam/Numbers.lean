import Sprawl.Gamejam.Level

/-!
# The number fields of the metadata (`ParseInt`, `ParseMetadata`)

`ParseInt` looks at the first character behind its colon and at nothing else of the field:
`buff >> temp_i` makes a number of whatever was collected, and its failure is not asked
for.  So a field is accepted with any text (`parseMetadata_anything`), and what is stored is
its number only where the text is one (`metadataExact_iff`).

`Entries` is `Fields` with the lines written down: each with the text that stands in its
number fields.  `ParseMetadata` reads the same lines whatever its builder holds.
-/

namespace Gamejam

open Cxx

/-- What stands in a number field: all behind its colon, up to the next colon or newline. -/
def fieldText (is : List Char) : List Char :=
  (is.drop 1).takeWhile fun c => c ≠ ':' ∧ c ≠ '\n'

/-- A number field: its text, and the number that is stored for it. -/
structure NumberField where
  text : List Char
  value : UInt64
deriving DecidableEq

/-- A line of the metadata and the number fields it was read from. -/
structure Entry where
  line : MetaLine
  fields : List NumberField
deriving DecidableEq

/-- The lines up to an empty line, and the rest of the text. -/
inductive Entries : List Char → List Entry → List Char → Prop
  | done (rest : List Char) : Entries ('\n' :: rest) [] rest
  | x {v : UInt64} {is is' rest : List Char} {es : List Entry} :
      Number v is is' → Entries is' es rest →
      Entries ('x' :: is) ({ line := .x v, fields := [⟨fieldText is, v⟩] } :: es) rest
  | y {v : UInt64} {is is' rest : List Char} {es : List Entry} :
      Number v is is' → Entries is' es rest →
      Entries ('y' :: is) ({ line := .y v, fields := [⟨fieldText is, v⟩] } :: es) rest
  | t {v w : UInt64} {path is is₁ is₂ is₃ rest : List Char} {es : List Entry} :
      Number v is is₁ → Number w is₁ is₂ → Path path is₂ is₃ → Entries is₃ es rest →
      Entries ('t' :: is)
        ({ line := .t v w path, fields := [⟨fieldText is, v⟩, ⟨fieldText is₁, w⟩] } :: es) rest

/-- What the lines set, one after the other. -/
def stored (b : LevelBuilder) (es : List Entry) : LevelBuilder :=
  es.foldl (fun b e => e.line.apply b) b

theorem stored_cons (b : LevelBuilder) (e : Entry) (es : List Entry) :
    stored b (e :: es) = stored (e.line.apply b) es := rfl

/-- A decimal numeral of a `size_t`. -/
def IsNumeral (text : List Char) : Prop :=
  text ≠ [] ∧ (∀ c ∈ text, c.isDigit = true) ∧ Nat.ofDigitChars 10 text 0 < 2 ^ 64

/-- The field is a numeral, and its number is stored. -/
def NumberField.Exact (f : NumberField) : Prop :=
  IsNumeral f.text ∧ f.value.toNat = Nat.ofDigitChars 10 f.text 0

/-- Where `ParseMetadata` succeeds, each number field it read is a numeral and the builder holds
its number; a text with another number field is refused. -/
def MetadataExact (b : LevelBuilder) (is : List Char) : Prop :=
  (∀ b' rest, parseMetadata b is = (.success, b', rest) →
    ∃ es, Entries is es rest ∧ b' = stored b es ∧ ∀ e ∈ es, ∀ f ∈ e.fields, f.Exact) ∧
  ∀ es rest, Entries is es rest → (∃ e ∈ es, ∃ f ∈ e.fields, ¬ IsNumeral f.text) →
    (parseMetadata b is).1 = .error

/-! ## The lines of a text -/

theorem fields_of_entries {is rest : List Char} {es : List Entry} (h : Entries is es rest)
    (b : LevelBuilder) : Fields b is (stored b es) rest := by
  induction h generalizing b with
  | done rest => exact .done b rest
  | x hv _ ih => exact .x hv (ih _)
  | y hv _ ih => exact .y hv (ih _)
  | t hv hw hpath _ ih => exact .t hv hw hpath (ih _)

theorem entries_of_fields {b b' : LevelBuilder} {is rest : List Char} (h : Fields b is b' rest) :
    ∃ es, Entries is es rest ∧ b' = stored b es := by
  induction h with
  | done b rest => exact ⟨[], .done rest, rfl⟩
  | x hv _ ih =>
    obtain ⟨es, hes, rfl⟩ := ih
    exact ⟨_, .x hv hes, rfl⟩
  | y hv _ ih =>
    obtain ⟨es, hes, rfl⟩ := ih
    exact ⟨_, .y hv hes, rfl⟩
  | t hv hw hpath _ ih =>
    obtain ⟨es, hes, rfl⟩ := ih
    exact ⟨_, .t hv hw hpath hes, rfl⟩

/-- `ParseMetadata` succeeds on the texts that have lines, and stores these. -/
theorem parseMetadata_entries {b b' : LevelBuilder} {is rest : List Char} :
    parseMetadata b is = (.success, b', rest) ↔ ∃ es, Entries is es rest ∧ b' = stored b es := by
  rw [parseMetadata_iff]
  constructor
  · exact entries_of_fields
  · rintro ⟨es, hes, rfl⟩
    exact fields_of_entries hes b

theorem number_unique {v v' : UInt64} {is rest rest' : List Char} (h : Number v is rest)
    (h' : Number v' is rest') : v = v' ∧ rest = rest' := by
  have hsame := (parseInt_of_number h).symm.trans (parseInt_of_number h')
  cases hsame
  exact ⟨rfl, rfl⟩

theorem path_unique {s s' is rest rest' : List Char} (h : Path s is rest)
    (h' : Path s' is rest') : s = s' ∧ rest = rest' := by
  have hsame := (parseStr_of_path h).symm.trans (parseStr_of_path h')
  cases hsame
  exact ⟨rfl, rfl⟩

/-- A text has one sequence of lines. -/
theorem entries_unique {is rest rest' : List Char} {es es' : List Entry}
    (h : Entries is es rest) (h' : Entries is es' rest') : es = es' ∧ rest = rest' := by
  induction h generalizing es' rest' with
  | done rest =>
    cases h'
    exact ⟨rfl, rfl⟩
  | x hv _ ih =>
    cases h' with
    | x hv' hes' =>
      obtain ⟨rfl, rfl⟩ := number_unique hv hv'
      obtain ⟨rfl, rfl⟩ := ih hes'
      exact ⟨rfl, rfl⟩
  | y hv _ ih =>
    cases h' with
    | y hv' hes' =>
      obtain ⟨rfl, rfl⟩ := number_unique hv hv'
      obtain ⟨rfl, rfl⟩ := ih hes'
      exact ⟨rfl, rfl⟩
  | t hv hw hpath _ ih =>
    cases h' with
    | t hv' hw' hpath' hes' =>
      obtain ⟨rfl, rfl⟩ := number_unique hv hv'
      obtain ⟨rfl, rfl⟩ := number_unique hw hw'
      obtain ⟨rfl, rfl⟩ := path_unique hpath hpath'
      obtain ⟨rfl, rfl⟩ := ih hes'
      exact ⟨rfl, rfl⟩

/-! ## What is stored for a field -/

/-- A field is read up to a byte 0xFF in it. -/
theorem number_value {v : UInt64} {is rest : List Char} (h : Number v is rest) :
    v = (strtoull 10 ((fieldText is).takeWhile fun c => c ≠ eof)).getD 0 := by
  obtain ⟨s, stop, rfl, rfl, hs, hend⟩ := h
  have hfield : ∀ c ∈ s, decide (c ≠ ':' ∧ c ≠ '\n') = true := by
    intro c hc
    simpa using ⟨(hs c hc).1, (hs c hc).2.1⟩
  have hgoes : ∀ c ∈ s, decide (c ≠ eof) = true := by
    intro c hc
    simpa using (hs c hc).2.2
  have hstop : ((stop ++ rest).takeWhile fun c => c ≠ ':' ∧ c ≠ '\n').takeWhile
      (fun c => c ≠ eof) = [] := by
    rcases hend with hend | ⟨rfl, hcolon⟩
    · cases hend with
      | newline _ _ => rfl
      | byteFF => rfl
      | done _ => rfl
    · cases rest with
      | nil => rfl
      | cons c r =>
        rw [Option.some.inj hcolon]
        rfl
  show _ = (strtoull 10 (((s ++ stop ++ rest).takeWhile _).takeWhile _)).getD 0
  rw [List.append_assoc, List.takeWhile_append_of_pos hfield, List.takeWhile_append_of_pos hgoes,
    hstop, List.append_nil]

/-- A numeral is stored exactly. -/
theorem number_exact {v : UInt64} {is rest : List Char} (h : Number v is rest)
    (hnumeral : IsNumeral (fieldText is)) : v.toNat = Nat.ofDigitChars 10 (fieldText is) 0 := by
  obtain ⟨hne, hdigits, hlt⟩ := hnumeral
  have heof : ∀ c ∈ fieldText is, decide (c ≠ eof) = true := by
    intro c hc
    have hdigit := hdigits c hc
    rw [decide_eq_true_eq]
    rintro rfl
    exact absurd hdigit (by decide)
  have htext : (fieldText is).takeWhile (fun c => c ≠ eof) = fieldText is :=
    List.takeWhile_eq_self_iff.2 heof
  rw [number_value h, htext, strtoull_isDigit hne hdigits, Option.getD_some,
    Nat.min_eq_left (by omega)]
  exact UInt64.toNat_ofNat_of_lt' hlt

theorem entries_exact {is rest : List Char} {es : List Entry} (h : Entries is es rest)
    (hnumerals : ∀ e ∈ es, ∀ f ∈ e.fields, IsNumeral f.text) :
    ∀ e ∈ es, ∀ f ∈ e.fields, f.Exact := by
  induction h with
  | done rest =>
    intro e he
    exact absurd he List.not_mem_nil
  | x hv _ ih =>
    obtain ⟨hfields, hnumerals⟩ := List.forall_mem_cons.1 hnumerals
    have hfield := hfields _ List.mem_cons_self
    refine List.forall_mem_cons.2 ⟨?_, ih hnumerals⟩
    exact List.forall_mem_singleton.2 ⟨hfield, number_exact hv hfield⟩
  | y hv _ ih =>
    obtain ⟨hfields, hnumerals⟩ := List.forall_mem_cons.1 hnumerals
    have hfield := hfields _ List.mem_cons_self
    refine List.forall_mem_cons.2 ⟨?_, ih hnumerals⟩
    exact List.forall_mem_singleton.2 ⟨hfield, number_exact hv hfield⟩
  | t hv hw _ _ ih =>
    obtain ⟨hfields, hnumerals⟩ := List.forall_mem_cons.1 hnumerals
    obtain ⟨hwidth, hheight⟩ := List.forall_mem_cons.1 hfields
    have hheight := hheight _ List.mem_cons_self
    refine List.forall_mem_cons.2 ⟨?_, ih hnumerals⟩
    refine List.forall_mem_cons.2 ⟨⟨hwidth, number_exact hv hwidth⟩, ?_⟩
    exact List.forall_mem_singleton.2 ⟨hheight, number_exact hw hheight⟩

/-- **The stored numbers are those of the text exactly if each number field of an accepted text
is a numeral.** -/
theorem metadataExact_iff {b : LevelBuilder} {is : List Char} :
    MetadataExact b is ↔
      ∀ es rest, Entries is es rest → ∀ e ∈ es, ∀ f ∈ e.fields, IsNumeral f.text := by
  constructor
  · rintro ⟨hexact, -⟩ es rest hes e he f hf
    obtain ⟨es', hes', -, hall⟩ := hexact _ rest (parseMetadata_entries.2 ⟨es, hes, rfl⟩)
    obtain ⟨rfl, -⟩ := entries_unique hes hes'
    exact (hall e he f hf).1
  · intro hnumerals
    constructor
    · intro b' rest h
      obtain ⟨es, hes, hb'⟩ := parseMetadata_entries.1 h
      exact ⟨es, hes, hb', entries_exact hes (hnumerals es rest hes)⟩
    · rintro es rest hes ⟨e, he, f, hf, hno⟩
      exact absurd (hnumerals es rest hes e he f hf) hno

/-- Whatever stands in a field is a number to `ParseMetadata`. -/
theorem entries_anything {s : List Char} (hne : s ≠ [])
    (hs : ∀ c ∈ s, c ≠ ':' ∧ c ≠ '\n' ∧ c ≠ eof) (rest : List Char) :
    ∃ es, Entries ('x' :: ':' :: (s ++ '\n' :: '\n' :: rest)) es rest ∧
      es.map Entry.line = [.x ((strtoull 10 s).getD 0)] ∧
      ∀ e ∈ es, e.fields = [⟨s, (strtoull 10 s).getD 0⟩] := by
  have hnumber : Number ((strtoull 10 s).getD 0) (':' :: (s ++ '\n' :: '\n' :: rest))
      ('\n' :: rest) := ⟨s, ['\n'], by simp, rfl, hs, .inl (.newline _ hne)⟩
  have hfield : ∀ c ∈ s, decide (c ≠ ':' ∧ c ≠ '\n') = true := by
    intro c hc
    simpa using ⟨(hs c hc).1, (hs c hc).2.1⟩
  have htext : fieldText (':' :: (s ++ '\n' :: '\n' :: rest)) = s := by
    show (s ++ '\n' :: '\n' :: rest).takeWhile _ = s
    rw [List.takeWhile_append_of_pos hfield]
    exact List.append_nil s
  refine ⟨_, .x hnumber (.done rest), rfl, ?_⟩
  rw [htext]
  exact List.forall_mem_singleton.2 rfl

theorem parseMetadata_anything {s : List Char} (hne : s ≠ [])
    (hs : ∀ c ∈ s, c ≠ ':' ∧ c ≠ '\n' ∧ c ≠ eof) (b : LevelBuilder) (rest : List Char) :
    parseMetadata b ('x' :: ':' :: (s ++ '\n' :: '\n' :: rest)) =
      (.success, { b with width := (strtoull 10 s).getD 0 }, rest) := by
  obtain ⟨es, hes, hlines, -⟩ := entries_anything hne hs rest
  refine parseMetadata_entries.2 ⟨es, hes, ?_⟩
  rw [stored, ← @List.foldl_map _ _ _ Entry.line MetaLine.apply, hlines]
  rfl

/-- `-1` is accepted, and the width is the largest value. -/
theorem not_metadataExact :
    parseMetadata zeroBuilder "x:-1\n\n".toList =
      (.success, { zeroBuilder with width := 18446744073709551615 }, []) ∧
    ¬ MetadataExact zeroBuilder "x:-1\n\n".toList := by
  have hparse : parseMetadata zeroBuilder "x:-1\n\n".toList =
      (.success, { zeroBuilder with width := 18446744073709551615 }, []) :=
    @parseMetadata_anything ['-', '1'] (by decide) (by decide) zeroBuilder []
  refine ⟨hparse, ?_⟩
  rintro ⟨-, hrefused⟩
  obtain ⟨es, hes, hlines, hfields⟩ :=
    @entries_anything ['-', '1'] (by decide) (by decide) []
  obtain ⟨e, he⟩ : ∃ e, e ∈ es := by
    cases es with
    | nil => cases hlines
    | cons e es => exact ⟨e, List.mem_cons_self⟩
  have hno : ¬ IsNumeral ['-', '1'] := by
    rintro ⟨-, hdigits, -⟩
    exact absurd (hdigits '-' List.mem_cons_self) (by decide)
  have herror := hrefused es [] hes
    ⟨e, he, ⟨['-', '1'], _⟩, by rw [hfields e he]; exact List.mem_cons_self, hno⟩
  rw [hparse] at herror
  cases herror

end Gamejam
