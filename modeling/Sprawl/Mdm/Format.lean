import Sprawl.Mdm.Scan

/-!
# Formatting is stable

`Parser::Write` puts a space behind every token but a newline, so the text of each
token is read again as that token alone (`scan_lexeme`), in front of whatever is
written behind it.  A text that was formatted once is formatted as it is
(`format_stable`).
-/

namespace Mdm

open Cxx Loop

/-! ## The tokens of the lexer -/

/-- What `scan` can find. -/
inductive Emitted : Lexeme → Prop
  | word {w : List Char} : w ≠ [] → IsWord w → Emitted (.kWord, w)
  | punct {c : Char} : isPunct c → Emitted (.kPunct, [c])
  | symbol {c : Char} : isSymbol c → isPunct c = false → c ≠ '#' → Emitted (.kSymbol, [c])
  | newline : Emitted (.kNewline, "\n".toList)
  | code : Emitted (.kCodeDelimiter, [tick, tick, tick])
  | header1 : Emitted (.kHeader1, "#".toList)
  | header2 : Emitted (.kHeader2, "##".toList)
  | header3 : Emitted (.kHeader3, "###".toList)

theorem take_emitted {c : Char} {r r' : List Char} {ls : List Lexeme}
    (h : take c r = some (ls, r')) : ∀ l ∈ ls, Emitted l := by
  unfold take at h
  split_ifs at h with hw hn hp ht hs hh <;> cases h
  · simp
  · simpa using Emitted.newline
  · intro l hl
    rw [List.mem_singleton] at hl
    subst hl
    unfold tickLexeme
    split
    · exact .code
    · exact .punct (by decide)
  · simpa using Emitted.punct hp
  · intro l hl
    rw [List.mem_singleton] at hl
    subst hl
    unfold headerLexeme
    split
    · exact .header3
    · split
      · exact .header2
      · exact .header1
  · simpa using Emitted.symbol hs (by simpa using hp) hh

theorem flush_emitted {ss : List Char} (h : IsWord ss) : ∀ l ∈ flush ss, Emitted l := by
  unfold flush
  by_cases hss : ss = []
  · simp [hss]
  · simpa [hss] using Emitted.word hss h

theorem isWord_concat {ss : List Char} {c : Char} (h : IsWord ss) (hc : IsWordChar c) :
    IsWord (ss ++ [c]) := by
  intro d hd
  rcases List.mem_append.1 hd with hd | hd
  · exact h d hd
  · rw [List.mem_singleton] at hd
    rw [hd]
    exact hc

theorem scan_emitted {ss rest : List Char} (hss : IsWord ss) : ∀ l ∈ scan ss rest, Emitted l := by
  induction hlen : rest.length using Nat.strongRecOn generalizing ss rest with
  | ind k ih =>
    cases rest with
    | nil =>
      rw [scan_nil]
      exact flush_emitted hss
    | cons c r =>
      cases htake : take c r with
      | none =>
        rw [scan_word htake]
        have hword := isWord_concat hss (isWordChar_of_take htake)
        exact ih r.length (by simp [← hlen]) hword rfl
      | some p =>
        obtain ⟨ls, r'⟩ := p
        have hlt : r'.length < k := by
          have h := take_length htake
          rw [← hlen, List.length_cons]
          omega
        rw [scan_take htake]
        intro l hl
        simp only [List.mem_append] at hl
        rcases hl with (hl | hl) | hl
        · exact flush_emitted hss l hl
        · exact take_emitted htake l hl
        · exact ih r'.length hlt (by simp [IsWord]) rfl l hl

/-! ## Reading what was written -/

/-- The text `Parser::Write` writes for one token. -/
def writeLexeme (l : Lexeme) : List Char := l.2 ++ if l.1 = .kNewline then [] else [' ']

theorem write_eq (tokens : List Token) :
    write tokens = (tokens.map Token.lexeme).flatMap writeLexeme := by
  unfold write
  rw [List.flatMap_map]
  rfl

theorem scan_words {w : List Char} (hw : IsWord w) (ss r : List Char) :
    scan ss (w ++ r) = scan (ss ++ w) r := by
  induction w generalizing ss with
  | nil => simp
  | cons c w ih =>
    have hc : IsWordChar c := hw c List.mem_cons_self
    rw [List.cons_append, scan_word (take_word hc _),
      ih fun d hd => hw d (List.mem_cons_of_mem _ hd)]
    simp

theorem scan_space (ss r : List Char) : scan ss (' ' :: r) = flush ss ++ scan [] r := by
  have h : take ' ' r = some ([], r) := rfl
  rw [scan_take h, List.append_nil]

theorem take_punct {c : Char} (hp : isPunct c = true) (r : List Char) :
    take c (' ' :: r) = some ([(.kPunct, [c])], ' ' :: r) := by
  have hblank : ∀ d ∈ kPunct, isWhitespace d = false ∧ isNewline d = false := by decide
  obtain ⟨hw, hn⟩ := hblank c (List.contains_iff_mem.1 hp)
  by_cases ht : c = tick
  · subst ht
    cases r <;> rfl
  · simp [take, hw, hn, hp, ht]

theorem take_symbol {c : Char} (hs : isSymbol c = true) (hp : isPunct c = false) (hh : c ≠ '#')
    (r : List Char) : take c r = some ([(.kSymbol, [c])], r) := by
  have hblank : ∀ d ∈ kSymbol, isWhitespace d = false ∧ isNewline d = false := by decide
  obtain ⟨hw, hn⟩ := hblank c (List.contains_iff_mem.1 hs)
  simp [take, hw, hn, hp, hs, hh]

/-- A token, written in front of any text, is read as itself. -/
theorem scan_lexeme {l : Lexeme} (h : Emitted l) (r : List Char) :
    scan [] (writeLexeme l ++ r) = l :: scan [] r := by
  cases h with
  | @word w hne hw =>
    show scan [] (w ++ [' '] ++ r) = _
    rw [List.append_assoc, scan_words hw, List.nil_append]
    show scan w (' ' :: r) = _
    rw [scan_space, flush, if_neg hne]
    rfl
  | @punct c hp =>
    have h : take c (' ' :: r) = some ([(.kPunct, [c])], ' ' :: r) := take_punct hp r
    show scan [] (c :: ' ' :: r) = _
    rw [scan_take h, scan_space]
    rfl
  | @symbol c hs hp hh =>
    have h : take c (' ' :: r) = some ([(.kSymbol, [c])], ' ' :: r) := take_symbol hs hp hh _
    show scan [] (c :: ' ' :: r) = _
    rw [scan_take h, scan_space]
    rfl
  | newline =>
    have h : take '\n' r = some ([(.kNewline, "\n".toList)], r) := rfl
    show scan [] ('\n' :: r) = _
    rw [scan_take h]
    rfl
  | code =>
    have h : take tick (tick :: tick :: ' ' :: r) =
        some ([(.kCodeDelimiter, [tick, tick, tick])], ' ' :: r) := rfl
    show scan [] (tick :: tick :: tick :: ' ' :: r) = _
    rw [scan_take h, scan_space]
    rfl
  | header1 =>
    have h : take '#' (' ' :: r) = some ([(.kHeader1, "#".toList)], ' ' :: r) := by
      cases r <;> rfl
    show scan [] ('#' :: ' ' :: r) = _
    rw [scan_take h, scan_space]
    rfl
  | header2 =>
    have h : take '#' ('#' :: ' ' :: r) = some ([(.kHeader2, "##".toList)], ' ' :: r) := rfl
    show scan [] ('#' :: '#' :: ' ' :: r) = _
    rw [scan_take h, scan_space]
    rfl
  | header3 =>
    have h : take '#' ('#' :: '#' :: ' ' :: r) = some ([(.kHeader3, "###".toList)], ' ' :: r) := rfl
    show scan [] ('#' :: '#' :: '#' :: ' ' :: r) = _
    rw [scan_take h, scan_space]
    rfl

theorem scan_write {ls : List Lexeme} (h : ∀ l ∈ ls, Emitted l) :
    scan [] (ls.flatMap writeLexeme) = ls := by
  induction ls with
  | nil => exact scan_nil []
  | cons l ls ih =>
    rw [List.flatMap_cons, scan_lexeme (h l List.mem_cons_self),
      ih fun m hm => h m (List.mem_cons_of_mem _ hm)]

/-! ## Formatting twice -/

/-- **Formatting is stable.**  `Process` returns a list of tokens, and what it finds in a
text it finds again in the text that `Write` makes of it. -/
theorem format_stable (t : List Char) (ht : t.length < 2 ^ 31) :
    (∃ T, Process t (.ok T)) ∧
      ∀ T, Process t (.ok T) → (write T).length < 2 ^ 31 →
        ∃ T', Process (write T) (.ok T') ∧ T'.map Token.lexeme = T.map Token.lexeme ∧
          write T' = write T := by
  obtain ⟨T₀, hT₀, hscan⟩ := process_scan (near_of_length ht (Nat.le_refl _))
  refine ⟨⟨T₀, hT₀⟩, fun T hT hlen => ?_⟩
  have hT' : T = T₀ := Except.ok.inj (Returns.unique hT hT₀)
  subst hT'
  obtain ⟨T', hT', hscan'⟩ := process_scan (near_of_length hlen (Nat.le_refl _))
  have hemitted : ∀ l ∈ T.map Token.lexeme, Emitted l := by
    rw [hscan]
    exact scan_emitted (by simp [IsWord])
  have hsame : T'.map Token.lexeme = T.map Token.lexeme := by
    rw [hscan', write_eq, scan_write hemitted]
  exact ⟨T', hT', hsame, by rw [write_eq, write_eq, hsame]⟩

theorem format_stable_header : (∃ T, Process "## a,b".toList (.ok T)) ∧
    ∀ T, Process "## a,b".toList (.ok T) → (write T).length < 2 ^ 31 →
      ∃ T', Process (write T) (.ok T') ∧ T'.map Token.lexeme = T.map Token.lexeme ∧
        write T' = write T :=
  format_stable "## a,b".toList (by decide)

end Mdm
