import Sprawl.Lib.Cxx

/-!
# The metadata of a level (`gamejam/utils.cc`, `ParseMetadata`)

A stream is what it still holds.  `get` at its end is `EOF`, which is 0xFF once it is a
`char`, so a byte 0xFF ends what the end of the stream ends; `peek` keeps the two apart.

`parseMetadata_iff` is the language: fields one after the other, then an empty line.  A
number of `t` may have its newline in front of the colon that follows.
-/

namespace Gamejam

open Cxx

/-- `EOF` as a `char`. -/
def eof : Char := '\xff'

/-- `while (mis.peek() != ':' && (c = mis.get()) != '\n' && c != EOF) buff << c;` -/
def readNumber (buff : List Char) : List Char → List Char × List Char
  | [] => (buff, [])
  | c :: mis =>
    if c = ':' then (buff, c :: mis)
    else if c = '\n' ∨ c = eof then (buff, mis)
    else readNumber (buff ++ [c]) mis

def parseInt : List Char → Option UInt64 × List Char
  | [] => (none, [])
  | c :: mis =>
    if c ≠ ':' then (none, mis)
    else if mis = [] ∨ mis.head? = some '\n' then (none, mis)
    else (some ((strtoull 10 (readNumber [] mis).1).getD 0), (readNumber [] mis).2)

/-- `while ((c = mis.get()) != '\n' && c != EOF) buff << c;` -/
def readLine (buff : List Char) : List Char → List Char × List Char
  | [] => (buff, [])
  | c :: mis => if c = '\n' ∨ c = eof then (buff, mis) else readLine (buff ++ [c]) mis

def parseStr : List Char → Option (List Char) × List Char
  | [] => (none, [])
  | c :: mis =>
    if c ≠ ':' then (none, mis)
    else if mis = [] ∨ mis.head? = some '\n' then (none, mis)
    else (some (readLine [] mis).1, (readLine [] mis).2)

structure Tile where
  index : Int
deriving DecidableEq, Repr

structure LevelBuilder where
  width : UInt64
  height : UInt64
  pathToTileset : List Char
  tilesetWidth : UInt64
  tilesetHeight : UInt64
  tiles : List Tile
deriving DecidableEq

inductive ParseStatus
  | unknown
  | success
  | error
deriving DecidableEq, Repr

theorem readNumber_length_le (buff mis : List Char) :
    (readNumber buff mis).2.length ≤ mis.length := by
  induction mis generalizing buff with
  | nil => simp [readNumber]
  | cons c mis ih =>
    have := ih (buff ++ [c])
    unfold readNumber
    split
    · exact Nat.le_refl _
    · split
      · simp
      · rw [List.length_cons]
        omega

theorem parseInt_length_le (mis : List Char) : (parseInt mis).2.length ≤ mis.length := by
  cases mis with
  | nil => simp [parseInt]
  | cons c mis =>
    have := readNumber_length_le [] mis
    rw [parseInt, List.length_cons]
    split
    · exact Nat.le_succ _
    · split
      · exact Nat.le_succ _
      · exact Nat.le_succ_of_le this

theorem readLine_length_le (buff mis : List Char) : (readLine buff mis).2.length ≤ mis.length := by
  induction mis generalizing buff with
  | nil => simp [readLine]
  | cons c mis ih =>
    have := ih (buff ++ [c])
    unfold readLine
    split
    · simp
    · rw [List.length_cons]
      omega

theorem parseStr_length_le (mis : List Char) : (parseStr mis).2.length ≤ mis.length := by
  cases mis with
  | nil => simp [parseStr]
  | cons c mis =>
    have := readLine_length_le [] mis
    rw [parseStr, List.length_cons]
    split
    · exact Nat.le_succ _
    · split
      · exact Nat.le_succ _
      · exact Nat.le_succ_of_le this

/-- `ParseMetadata`, with `goto again` as a call. -/
def parseMetadata (b : LevelBuilder) : List Char → ParseStatus × LevelBuilder × List Char
  | [] => (.error, b, [])
  | c :: is =>
    if c = 'x' then
      match (parseInt is).1 with
      | none => (.error, b, (parseInt is).2)
      | some x => parseMetadata { b with width := x } (parseInt is).2
    else if c = 'y' then
      match (parseInt is).1 with
      | none => (.error, b, (parseInt is).2)
      | some y => parseMetadata { b with height := y } (parseInt is).2
    else if c = 't' then
      match (parseInt is).1 with
      | none => (.error, b, (parseInt is).2)
      | some x =>
        let b := { b with tilesetWidth := x }
        let is₁ := (parseInt is).2
        match (parseInt is₁).1 with
        | none => (.error, b, (parseInt is₁).2)
        | some y =>
          let b := { b with tilesetHeight := y }
          let is₂ := (parseInt is₁).2
          match (parseStr is₂).1 with
          | none => (.error, b, (parseStr is₂).2)
          | some str => parseMetadata { b with pathToTileset := str } (parseStr is₂).2
    else if c = '\n' then (.success, b, is)
    else (.error, b, is)
termination_by is => is.length
decreasing_by
  · have := parseInt_length_le is
    simp only [List.length_cons]
    omega
  · have := parseInt_length_le is
    simp only [List.length_cons]
    omega
  · have := parseInt_length_le is
    have := parseInt_length_le (parseInt is).2
    have := parseStr_length_le (parseInt (parseInt is).2).2
    simp only [List.length_cons]
    omega

/-! ## The language of the metadata -/

/-- How a number or a path `s` ends at the end of a line: what it takes with it, and the rest. -/
inductive LineEnds (s : List Char) : List Char → List Char → Prop
  | newline (rest : List Char) : s ≠ [] → LineEnds s ['\n'] rest
  | byteFF (rest : List Char) : LineEnds s [eof] rest
  | done : s ≠ [] → LineEnds s [] []

/-- `is` is a colon, a number with the value `v`, its end, and `rest`. -/
def Number (v : UInt64) (is rest : List Char) : Prop :=
  ∃ s stop, is = ':' :: (s ++ stop ++ rest) ∧ v = (strtoull 10 s).getD 0 ∧
    (∀ c ∈ s, c ≠ ':' ∧ c ≠ '\n' ∧ c ≠ eof) ∧
    (LineEnds s stop rest ∨ (stop = [] ∧ rest.head? = some ':'))

/-- `is` is a colon, the path `s`, its end, and `rest`. -/
def Path (s is rest : List Char) : Prop :=
  ∃ stop, is = ':' :: (s ++ stop ++ rest) ∧ (∀ c ∈ s, c ≠ '\n' ∧ c ≠ eof) ∧ LineEnds s stop rest

/-- Fields up to an empty line, what they make of a builder, and the rest of the text. -/
inductive Fields : LevelBuilder → List Char → LevelBuilder → List Char → Prop
  | done (b : LevelBuilder) (rest : List Char) : Fields b ('\n' :: rest) b rest
  | x {b b' : LevelBuilder} {v : UInt64} {is is' rest : List Char} :
      Number v is is' → Fields { b with width := v } is' b' rest → Fields b ('x' :: is) b' rest
  | y {b b' : LevelBuilder} {v : UInt64} {is is' rest : List Char} :
      Number v is is' → Fields { b with height := v } is' b' rest → Fields b ('y' :: is) b' rest
  | t {b b' : LevelBuilder} {v w : UInt64} {path is is₁ is₂ is₃ rest : List Char} :
      Number v is is₁ → Number w is₁ is₂ → Path path is₂ is₃ →
      Fields { b with tilesetWidth := v, tilesetHeight := w, pathToTileset := path } is₃ b' rest →
      Fields b ('t' :: is) b' rest

theorem readNumber_append {s : List Char} (hs : ∀ c ∈ s, c ≠ ':' ∧ c ≠ '\n' ∧ c ≠ eof)
    (buff mis : List Char) : readNumber buff (s ++ mis) = readNumber (buff ++ s) mis := by
  induction s generalizing buff with
  | nil => rw [List.nil_append, List.append_nil]
  | cons c s ih =>
    obtain ⟨⟨hcolon, hnewline, heof⟩, hs⟩ := List.forall_mem_cons.1 hs
    rw [List.cons_append, readNumber, if_neg hcolon, if_neg (by simp [hnewline, heof]), ih hs,
      List.append_assoc, List.singleton_append]

theorem readLine_append {s : List Char} (hs : ∀ c ∈ s, c ≠ '\n' ∧ c ≠ eof)
    (buff mis : List Char) : readLine buff (s ++ mis) = readLine (buff ++ s) mis := by
  induction s generalizing buff with
  | nil => rw [List.nil_append, List.append_nil]
  | cons c s ih =>
    obtain ⟨⟨hnewline, heof⟩, hs⟩ := List.forall_mem_cons.1 hs
    rw [List.cons_append, readLine, if_neg (by simp [hnewline, heof]), ih hs, List.append_assoc,
      List.singleton_append]

/-- A line up to its first character that `p` rejects. -/
theorem exists_chars (p : Char → Bool) (mis : List Char) :
    ∃ s rest, mis = s ++ rest ∧ (∀ c ∈ s, p c = true) ∧
      (rest = [] ∨ ∃ c r, rest = c :: r ∧ p c = false) := by
  refine ⟨mis.takeWhile p, mis.dropWhile p, (List.takeWhile_append_dropWhile).symm,
    fun c hc => List.mem_takeWhile_imp hc, ?_⟩
  cases hrest : mis.dropWhile p with
  | nil => exact .inl rfl
  | cons c r =>
    have hhead := List.head?_dropWhile_not p mis
    rw [hrest] at hhead
    exact .inr ⟨c, r, rfl, by simpa using hhead⟩

/-- `ParseInt` behind its colon. -/
theorem parseInt_colon {mis : List Char} (hne : mis ≠ []) (hhead : mis.head? ≠ some '\n') :
    parseInt (':' :: mis) =
      (some ((strtoull 10 (readNumber [] mis).1).getD 0), (readNumber [] mis).2) := by
  rw [parseInt, if_neg (by simp), if_neg (by simp [hne, hhead])]

theorem parseStr_colon {mis : List Char} (hne : mis ≠ []) (hhead : mis.head? ≠ some '\n') :
    parseStr (':' :: mis) = (some (readLine [] mis).1, (readLine [] mis).2) := by
  rw [parseStr, if_neg (by simp), if_neg (by simp [hne, hhead])]

/-- What `ParseInt` and `ParseStr` have seen when they return a value. -/
theorem guards_passed {α : Type} {c : Char} {mis rest text : List Char} {v w : α}
    (h : (if c ≠ ':' then (none, mis)
      else if mis = [] ∨ mis.head? = some '\n' then (none, mis) else (some w, text)) =
        (some v, rest)) :
    c = ':' ∧ mis ≠ [] ∧ mis.head? ≠ some '\n' := by
  by_cases hcolon : c = ':'
  · rw [if_neg (not_not_intro hcolon)] at h
    split at h
    · cases h
    · next hmis => exact ⟨hcolon, not_or.1 hmis⟩
  · rw [if_pos hcolon] at h
    cases h

/-- A number starts with a colon that no newline follows. -/
theorem parseInt_some {is rest : List Char} {v : UInt64} (h : parseInt is = (some v, rest)) :
    ∃ mis, is = ':' :: mis ∧ mis ≠ [] ∧ mis.head? ≠ some '\n' := by
  cases is with
  | nil => cases h
  | cons c mis =>
    obtain ⟨rfl, hmis⟩ := guards_passed h
    exact ⟨mis, rfl, hmis⟩

theorem parseStr_some {is rest s : List Char} (h : parseStr is = (some s, rest)) :
    ∃ mis, is = ':' :: mis ∧ mis ≠ [] ∧ mis.head? ≠ some '\n' := by
  cases is with
  | nil => cases h
  | cons c mis =>
    obtain ⟨rfl, hmis⟩ := guards_passed h
    exact ⟨mis, rfl, hmis⟩

theorem LineEnds.head_ne {s stop rest : List Char} (h : LineEnds s stop rest)
    (hs : ∀ c ∈ s, c ≠ '\n' ∧ c ≠ eof) :
    s ++ stop ++ rest ≠ [] ∧ (s ++ stop ++ rest).head? ≠ some '\n' := by
  cases s with
  | nil =>
    cases h with
    | newline _ hne => exact absurd rfl hne
    | byteFF => simp [eof]
    | done hne => exact absurd rfl hne
  | cons c s => simpa using (hs c List.mem_cons_self).1

theorem number_of_parseInt {is rest : List Char} {v : UInt64} (h : parseInt is = (some v, rest)) :
    Number v is rest := by
  obtain ⟨mis, rfl, hne, hhead⟩ := parseInt_some h
  rw [parseInt_colon hne hhead] at h
  obtain ⟨s, r, rfl, hs, hr⟩ := exists_chars (fun c => c ≠ ':' ∧ c ≠ '\n' ∧ c ≠ eof) mis
  simp only [decide_eq_true_eq] at hs
  rw [readNumber_append hs, List.nil_append] at h
  rcases hr with rfl | ⟨c, r, rfl, hc⟩
  · rw [readNumber] at h
    cases h
    refine ⟨s, [], by simp, rfl, hs, .inl (.done ?_)⟩
    simpa using hne
  · by_cases hcolon : c = ':'
    · subst hcolon
      rw [readNumber, if_pos rfl] at h
      cases h
      exact ⟨s, [], by simp, rfl, hs, .inr ⟨rfl, rfl⟩⟩
    · by_cases hnewline : c = '\n'
      · subst hnewline
        rw [readNumber, if_neg hcolon, if_pos (.inl rfl)] at h
        cases h
        refine ⟨s, ['\n'], by simp, rfl, hs, .inl (.newline _ ?_)⟩
        rintro rfl
        exact hhead rfl
      · have heof : c = eof := by simpa [hcolon, hnewline] using hc
        subst heof
        rw [readNumber, if_neg hcolon, if_pos (.inr rfl)] at h
        cases h
        exact ⟨s, [eof], by simp, rfl, hs, .inl (.byteFF _)⟩

theorem parseInt_of_number {is rest : List Char} {v : UInt64} (h : Number v is rest) :
    parseInt is = (some v, rest) := by
  obtain ⟨s, stop, rfl, rfl, hs, hend⟩ := h
  have hline : ∀ c ∈ s, c ≠ '\n' ∧ c ≠ eof := fun c hc => (hs c hc).2
  rcases hend with hend | ⟨rfl, hcolon⟩
  · obtain ⟨hne, hhead⟩ := hend.head_ne hline
    rw [parseInt_colon hne hhead, List.append_assoc, readNumber_append hs, List.nil_append]
    cases hend with
    | newline _ _ => rfl
    | byteFF => rfl
    | done _ => rfl
  · obtain ⟨r, rfl⟩ : ∃ r, rest = ':' :: r := by
      cases rest with
      | nil => cases hcolon
      | cons c r => exact ⟨r, by rw [Option.some.inj hcolon]⟩
    have hne : s ++ [] ++ ':' :: r ≠ [] := by simp
    have hhead : (s ++ [] ++ ':' :: r).head? ≠ some '\n' := by
      cases s with
      | nil => simp
      | cons c s => simpa using (hs c List.mem_cons_self).2.1
    rw [parseInt_colon hne hhead, List.append_assoc, readNumber_append hs, List.nil_append]
    rfl

theorem path_of_parseStr {is rest s : List Char} (h : parseStr is = (some s, rest)) :
    Path s is rest := by
  obtain ⟨mis, rfl, hne, hhead⟩ := parseStr_some h
  rw [parseStr_colon hne hhead] at h
  obtain ⟨s', r, rfl, hs, hr⟩ := exists_chars (fun c => c ≠ '\n' ∧ c ≠ eof) mis
  simp only [decide_eq_true_eq] at hs
  rw [readLine_append hs, List.nil_append] at h
  rcases hr with rfl | ⟨c, r, rfl, hc⟩
  · rw [readLine] at h
    cases h
    refine ⟨[], by simp, hs, .done ?_⟩
    simpa using hne
  · by_cases hnewline : c = '\n'
    · subst hnewline
      rw [readLine, if_pos (.inl rfl)] at h
      cases h
      refine ⟨['\n'], by simp, hs, .newline _ ?_⟩
      rintro rfl
      exact hhead rfl
    · have heof : c = eof := by simpa [hnewline] using hc
      subst heof
      rw [readLine, if_pos (.inr rfl)] at h
      cases h
      exact ⟨[eof], by simp, hs, .byteFF _⟩

theorem parseStr_of_path {is rest s : List Char} (h : Path s is rest) :
    parseStr is = (some s, rest) := by
  obtain ⟨stop, rfl, hs, hend⟩ := h
  obtain ⟨hne, hhead⟩ := hend.head_ne hs
  rw [parseStr_colon hne hhead, List.append_assoc, readLine_append hs, List.nil_append]
  cases hend with
  | newline _ _ => rfl
  | byteFF => rfl
  | done _ => rfl

section
variable (b : LevelBuilder) (is : List Char)

theorem parseMetadata_x : parseMetadata b ('x' :: is) =
    (parseInt is).1.elim (.error, b, (parseInt is).2) fun v =>
      parseMetadata { b with width := v } (parseInt is).2 := by
  rw [parseMetadata, if_pos rfl]
  cases (parseInt is).1 <;> rfl

theorem parseMetadata_y : parseMetadata b ('y' :: is) =
    (parseInt is).1.elim (.error, b, (parseInt is).2) fun v =>
      parseMetadata { b with height := v } (parseInt is).2 := by
  rw [parseMetadata, if_neg (by decide), if_pos rfl]
  cases (parseInt is).1 <;> rfl

theorem parseMetadata_t : parseMetadata b ('t' :: is) =
    (parseInt is).1.elim (.error, b, (parseInt is).2) fun v =>
      (parseInt (parseInt is).2).1.elim
        (.error, { b with tilesetWidth := v }, (parseInt (parseInt is).2).2) fun w =>
        (parseStr (parseInt (parseInt is).2).2).1.elim
          (.error, { b with tilesetWidth := v, tilesetHeight := w },
            (parseStr (parseInt (parseInt is).2).2).2) fun path =>
          parseMetadata { b with tilesetWidth := v, tilesetHeight := w, pathToTileset := path }
            (parseStr (parseInt (parseInt is).2).2).2 := by
  rw [parseMetadata, if_neg (by decide), if_neg (by decide), if_pos rfl]
  cases (parseInt is).1 with
  | none => rfl
  | some v =>
    simp only [Option.elim_some]
    cases (parseInt (parseInt is).2).1 with
    | none => rfl
    | some w =>
      simp only [Option.elim_some]
      cases (parseStr (parseInt (parseInt is).2).2).1 <;> rfl

end

theorem parseMetadata_of_fields {b b' : LevelBuilder} {is rest : List Char}
    (h : Fields b is b' rest) : parseMetadata b is = (.success, b', rest) := by
  induction h with
  | done b rest => simp [parseMetadata]
  | x hv _ ih =>
    rw [parseMetadata_x, parseInt_of_number hv]
    exact ih
  | y hv _ ih =>
    rw [parseMetadata_y, parseInt_of_number hv]
    exact ih
  | t hv hw hpath _ ih =>
    rw [parseMetadata_t, parseInt_of_number hv, Option.elim_some, parseInt_of_number hw,
      Option.elim_some, parseStr_of_path hpath]
    exact ih

/-- A text is accepted only where the value of a field was read. -/
theorem value_read {α : Type} {o : Option α} {b b' : LevelBuilder} {is rest : List Char}
    {next : α → ParseStatus × LevelBuilder × List Char}
    (h : o.elim (.error, b, is) next = (.success, b', rest)) :
    ∃ v, o = some v ∧ next v = (.success, b', rest) := by
  cases o with
  | none => cases h
  | some v => exact ⟨v, rfl, h⟩

/-- The first field of a text that is accepted. -/
theorem parseMetadata_cons {b b' : LevelBuilder} {c : Char} {is rest : List Char}
    (h : parseMetadata b (c :: is) = (.success, b', rest)) :
    (c = 'x' ∧ ∃ v, Number v is (parseInt is).2 ∧
      parseMetadata { b with width := v } (parseInt is).2 = (.success, b', rest)) ∨
    (c = 'y' ∧ ∃ v, Number v is (parseInt is).2 ∧
      parseMetadata { b with height := v } (parseInt is).2 = (.success, b', rest)) ∨
    (c = 't' ∧ ∃ v w path is₁ is₂ is₃, Number v is is₁ ∧ Number w is₁ is₂ ∧ Path path is₂ is₃ ∧
      is₃.length ≤ is.length ∧
      parseMetadata { b with tilesetWidth := v, tilesetHeight := w, pathToTileset := path } is₃ =
        (.success, b', rest)) ∨
    (c = '\n' ∧ b' = b ∧ rest = is) := by
  have hnumber : ∀ {is : List Char} {v : UInt64}, (parseInt is).1 = some v →
      Number v is (parseInt is).2 := by
    intro is v hv
    exact number_of_parseInt (by rw [← hv])
  by_cases hx : c = 'x'
  · subst hx
    rw [parseMetadata_x] at h
    obtain ⟨v, hv, h⟩ := value_read h
    exact .inl ⟨rfl, v, hnumber hv, h⟩
  by_cases hy : c = 'y'
  · subst hy
    rw [parseMetadata_y] at h
    obtain ⟨v, hv, h⟩ := value_read h
    exact .inr (.inl ⟨rfl, v, hnumber hv, h⟩)
  by_cases ht : c = 't'
  · subst ht
    rw [parseMetadata_t] at h
    obtain ⟨v, hv, h⟩ := value_read h
    obtain ⟨w, hw, h⟩ := value_read h
    obtain ⟨path, hpath, h⟩ := value_read h
    have hlen : (parseStr (parseInt (parseInt is).2).2).2.length ≤ is.length :=
      (parseStr_length_le _).trans ((parseInt_length_le _).trans (parseInt_length_le is))
    exact .inr (.inr (.inl ⟨rfl, v, w, path, _, _, _, hnumber hv, hnumber hw,
      path_of_parseStr (by rw [← hpath]), hlen, h⟩))
  rw [parseMetadata, if_neg hx, if_neg hy, if_neg ht] at h
  split at h
  · next hnewline =>
    cases h
    exact .inr (.inr (.inr ⟨hnewline, rfl, rfl⟩))
  · cases h

theorem fields_of_parseMetadata {b b' : LevelBuilder} {is rest : List Char}
    (h : parseMetadata b is = (.success, b', rest)) : Fields b is b' rest := by
  induction hn : is.length using Nat.strong_induction_on generalizing b is with
  | h n ih =>
    cases is with
    | nil =>
      rw [parseMetadata] at h
      cases h
    | cons c is =>
      have hnext : ∀ {b is'}, is'.length ≤ is.length →
          parseMetadata b is' = (.success, b', rest) → Fields b is' b' rest := by
        intro b is' hle h
        exact ih is'.length (by rw [← hn, List.length_cons]; omega) h rfl
      rcases parseMetadata_cons h with ⟨rfl, v, hv, h⟩ | ⟨rfl, v, hv, h⟩ |
        ⟨rfl, v, w, path, is₁, is₂, is₃, hv, hw, hpath, hlen, h⟩ | ⟨rfl, rfl, rfl⟩
      · exact .x hv (hnext (parseInt_length_le is) h)
      · exact .y hv (hnext (parseInt_length_le is) h)
      · exact .t hv hw hpath (hnext hlen h)
      · exact .done _ _

/-- **What `ParseMetadata` accepts, and what it makes of it.** -/
theorem parseMetadata_iff {b b' : LevelBuilder} {is rest : List Char} :
    parseMetadata b is = (.success, b', rest) ↔ Fields b is b' rest :=
  ⟨fields_of_parseMetadata, parseMetadata_of_fields⟩

end Gamejam
