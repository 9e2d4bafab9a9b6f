import Sprawl.Mdm.Lexer

/-!
# The lexer without its stream

`scan` reads a text from the front: `take` says what stands there and what is left.
How far a backtick or a `#` reaches is `lookahead`, which at the end of the text sees
three where there is one or two, as `Process` does.

`process_scan`: where no position leaves `int` (`Near`), `Process` returns the tokens
that `scan` finds.
-/

namespace Mdm

open Cxx Loop

/-- A token without its place. -/
abbrev Lexeme := Token.Type × List Char

def Token.lexeme (t : Token) : Lexeme := (t.type, t.token)

/-! ## Scanning -/

/-- How many `d` the lexer takes a `d` in front of `rest` for. -/
def lookahead (d : Char) : List Char → Nat
  | [] => 3
  | [x] => if x = d then 3 else 1
  | x :: y :: _ => if x = d then (if y = d then 3 else 2) else 1

/-- The token of a backtick. -/
def tickLexeme (n : Nat) : Lexeme :=
  if n = 3 then (.kCodeDelimiter, [tick, tick, tick]) else (.kPunct, [tick])

/-- The token of a `#`. -/
def headerLexeme (n : Nat) : Lexeme :=
  if n = 3 then (.kHeader3, "###".toList)
  else if n = 2 then (.kHeader2, "##".toList)
  else (.kHeader1, "#".toList)

/-- What a character that ends words gives, and what is left; `none` for a character of
a word. -/
def take (c : Char) (r : List Char) : Option (List Lexeme × List Char) :=
  if isWhitespace c then some ([], r)
  else if isNewline c then some ([(.kNewline, "\n".toList)], r)
  else if isPunct c then
    if c = tick then some ([tickLexeme (lookahead tick r)], r.drop (lookahead tick r - 1))
    else some ([(.kPunct, [c])], r)
  else if isSymbol c then
    if c = '#' then some ([headerLexeme (lookahead '#' r)], r.drop (lookahead '#' r - 1))
    else some ([(.kSymbol, [c])], r)
  else none

theorem take_length {c : Char} {r r' : List Char} {ls : List Lexeme}
    (h : take c r = some (ls, r')) : r'.length ≤ r.length := by
  unfold take at h
  split_ifs at h <;> cases h <;> simp

/-- A character of a word. -/
def IsWordChar (c : Char) : Prop := ¬ (isSymbol c ∨ isPunct c ∨ isWhitespace c ∨ isNewline c)

theorem take_word {c : Char} (h : IsWordChar c) (r : List Char) : take c r = none := by
  unfold IsWordChar at h
  simp only [not_or, Bool.not_eq_true] at h
  obtain ⟨hs, hp, hw, hn⟩ := h
  simp [take, hs, hp, hw, hn]

theorem isWordChar_of_take {c : Char} {r : List Char} (h : take c r = none) : IsWordChar c := by
  unfold take at h
  split_ifs at h with hw hn hp ht hs
  simp [IsWordChar, hw, hn, hp, hs]

/-- The word that is open. -/
def flush (ss : List Char) : List Lexeme := if ss = [] then [] else [(.kWord, ss)]

/-- The tokens of a text, with the word `ss` open. -/
def scan (ss : List Char) (rest : List Char) : List Lexeme :=
  match rest with
  | [] => flush ss
  | c :: r =>
    match _h : take c r with
    | none => scan (ss ++ [c]) r
    | some (ls, r') => flush ss ++ ls ++ scan [] r'
termination_by rest.length
decreasing_by
  · simp
  · have hle := take_length _h
    simp only [List.length_cons]
    omega

/-- In a text of length `n` that ends in `rest`, no position from `rest` on that goes
through `int` is `2^31 - 1` or more. -/
def Near (n : Nat) (rest : List Char) : Prop :=
  match rest with
  | [] => True
  | c :: r =>
    ((c = tick ∨ c = '#') → lookahead c r = 2 → n - r.length + 1 < 2 ^ 31) ∧
      match _h : take c r with
      | none => Near n r
      | some (_, r') => Near n r'
termination_by rest.length
decreasing_by
  · simp
  · have hle := take_length _h
    simp only [List.length_cons]
    omega

theorem scan_nil (ss : List Char) : scan ss [] = flush ss := by rw [scan]

theorem scan_word {c : Char} {r : List Char} (h : take c r = none) (ss : List Char) :
    scan ss (c :: r) = scan (ss ++ [c]) r := by
  rw [scan]
  split
  · rfl
  · next h' => rw [h] at h'; cases h'

theorem scan_take {c : Char} {r r' : List Char} {ls : List Lexeme} (h : take c r = some (ls, r'))
    (ss : List Char) : scan ss (c :: r) = flush ss ++ ls ++ scan [] r' := by
  rw [scan]
  split
  · next h' => rw [h] at h'; cases h'
  · next h' => rw [h] at h'; cases h'; rfl

theorem near_word {n : Nat} {c : Char} {r : List Char} (h : take c r = none)
    (hn : Near n (c :: r)) : Near n r := by
  rw [Near] at hn
  obtain ⟨-, hn⟩ := hn
  split at hn
  · exact hn
  · next h' => rw [h] at h'; cases h'

theorem near_take {n : Nat} {c : Char} {r r' : List Char} {ls : List Lexeme}
    (h : take c r = some (ls, r')) (hn : Near n (c :: r)) :
    ((c = tick ∨ c = '#') → lookahead c r = 2 → n - r.length + 1 < 2 ^ 31) ∧ Near n r' := by
  rw [Near] at hn
  obtain ⟨hfar, hn⟩ := hn
  refine ⟨hfar, ?_⟩
  split at hn
  · next h' => rw [h] at h'; cases h'
  · next h' => rw [h] at h'; cases h'; exact hn

theorem near_of_word {n : Nat} {c : Char} {r : List Char} (h : take c r = none)
    (hfar : (c = tick ∨ c = '#') → lookahead c r = 2 → n - r.length + 1 < 2 ^ 31)
    (hn : Near n r) : Near n (c :: r) := by
  rw [Near]
  refine ⟨hfar, ?_⟩
  split
  · exact hn
  · next h' => rw [h] at h'; cases h'

theorem near_of_take {n : Nat} {c : Char} {r r' : List Char} {ls : List Lexeme}
    (h : take c r = some (ls, r'))
    (hfar : (c = tick ∨ c = '#') → lookahead c r = 2 → n - r.length + 1 < 2 ^ 31)
    (hn : Near n r') : Near n (c :: r) := by
  rw [Near]
  refine ⟨hfar, ?_⟩
  split
  · next h' => rw [h] at h'; cases h'
  · next h' => rw [h] at h'; cases h'; exact hn

/-- In a text shorter than `2^31` every position fits. -/
theorem near_of_length {n : Nat} {rest : List Char} (hn : n < 2 ^ 31) (hle : rest.length ≤ n) :
    Near n rest := by
  induction hlen : rest.length using Nat.strongRecOn generalizing rest with
  | ind k ih =>
    cases rest with
    | nil => rw [Near]; trivial
    | cons c r =>
      rw [List.length_cons] at hle hlen
      have hfar : (c = tick ∨ c = '#') → lookahead c r = 2 → n - r.length + 1 < 2 ^ 31 := by
        intro _ hlook
        have hr : r ≠ [] := by
          rintro rfl
          cases hlook
        have hpos := List.length_pos_iff.2 hr
        omega
      cases htake : take c r with
      | none => exact near_of_word htake hfar (ih r.length (by omega) (by omega) rfl)
      | some p =>
        have hlt := take_length htake
        exact near_of_take htake hfar (ih _ (by omega) (by omega) rfl)

/-! ## The stream -/

section
variable {text : List Char}

/-- The stream stands in front of `rest`. -/
def Stands (text : List Char) (input : Input) (rest : List Char) : Prop :=
  if input.good then input.pos ≤ text.length ∧ text.drop input.pos = rest else rest = []

theorem get_cons {input : Input} {x : Char} {r : List Char} (hgood : input.good = true)
    (hdrop : text.drop input.pos = x :: r) (c : Char) :
    input.get text c = ({ input with pos := input.pos + 1 }, x) ∧
      input.pos + 1 ≤ text.length ∧ text.drop (input.pos + 1) = r := by
  have hget : text[input.pos]? = some x := by
    rw [← Nat.add_zero input.pos, ← List.getElem?_drop, hdrop]
    rfl
  have hlt := (List.getElem?_eq_some_iff.1 hget).1
  refine ⟨?_, hlt, ?_⟩
  · unfold Input.get
    rw [if_pos hgood, hget]
  · rw [← List.drop_drop, hdrop]
    rfl

theorem get_nil {input : Input} (hdrop : text.drop input.pos = []) (c : Char) :
    ∃ input', input.get text c = (input', c) ∧ input'.good = false := by
  have hget : text[input.pos]? = none := List.getElem?_eq_none (List.drop_eq_nil_iff.1 hdrop)
  unfold Input.get
  by_cases hgood : input.good = true
  · rw [if_pos hgood, hget]
    exact ⟨_, rfl, rfl⟩
  · rw [if_neg hgood]
    exact ⟨_, rfl, by simpa using hgood⟩

theorem get_bad {input : Input} (h : input.good = false) (c : Char) :
    input.get text c = (input, c) := by
  unfold Input.get
  rw [if_neg (by rw [h]; decide)]

theorem seekg_stands {input : Input} {p : Nat} (hgood : input.good = true)
    (hp : p ≤ text.length) : Stands text (input.seekg text p) (text.drop p) := by
  have hrange : 0 ≤ (p : Int) ∧ (p : Int) ≤ text.length := ⟨by omega, by omega⟩
  unfold Input.seekg
  rw [if_pos hgood, if_pos hrange]
  unfold Stands
  rw [if_pos hgood]
  exact ⟨hp, rfl⟩

theorem stands_bad {input : Input} (h : input.good = false) : Stands text input [] := by
  unfold Stands
  rw [if_neg (by rw [h]; decide)]

theorem stands_good {input : Input} {rest : List Char} (h : input.good = true)
    (hle : input.pos ≤ text.length) (hdrop : text.drop input.pos = rest) :
    Stands text input rest := by
  unfold Stands
  rw [if_pos h]
  exact ⟨hle, hdrop⟩

/-- The two reads behind a `d`, and where they leave the stream. -/
theorem two_reads (d : Char) {input : Input} {r : List Char} (hgood : input.good = true)
    (hle : input.pos ≤ text.length) (hdrop : text.drop input.pos = r) :
    ∃ i₁ c₁ i₂ c₂, input.get text d = (i₁, c₁) ∧ i₁.get text c₁ = (i₂, c₂) ∧
      ((lookahead d r = 1 ∧ c₁ ≠ d ∧ Stands text (i₁.seekg text input.pos) r) ∨
        (lookahead d r = 2 ∧ c₁ = d ∧ c₂ ≠ d ∧
          Stands text (i₂.seekg text (input.pos + 1 : Nat)) (r.drop 1)) ∨
        (lookahead d r = 3 ∧ c₁ = d ∧ c₂ = d ∧ Stands text i₂ (r.drop 2))) := by
  cases r with
  | nil =>
    obtain ⟨i₁, hi₁, hbad⟩ := get_nil hdrop d
    exact ⟨i₁, d, i₁, d, hi₁, get_bad hbad d, .inr (.inr ⟨rfl, rfl, rfl, stands_bad hbad⟩)⟩
  | cons x r =>
    obtain ⟨hi₁, hle₁, hdrop₁⟩ := get_cons hgood hdrop d
    by_cases hx : x = d
    · subst hx
      cases r with
      | nil =>
        obtain ⟨i₂, hi₂, hbad⟩ := @get_nil text { input with pos := input.pos + 1 } hdrop₁ x
        refine ⟨_, x, i₂, x, hi₁, hi₂, .inr (.inr ⟨?_, rfl, rfl, stands_bad hbad⟩)⟩
        simp [lookahead]
      | cons y r =>
        obtain ⟨hi₂, hle₂, hdrop₂⟩ :=
          @get_cons text { input with pos := input.pos + 1 } y r hgood hdrop₁ x
        by_cases hy : y = x
        · subst hy
          refine ⟨_, y, _, y, hi₁, hi₂, .inr (.inr ⟨?_, rfl, rfl, stands_good hgood hle₂ hdrop₂⟩)⟩
          simp [lookahead]
        · refine ⟨_, x, _, y, hi₁, hi₂, .inr (.inl ⟨?_, rfl, hy, ?_⟩)⟩
          · simp [lookahead, hy]
          · have h := @seekg_stands text { input with pos := input.pos + 1 + 1 } (input.pos + 1)
              hgood hle₁
            rwa [hdrop₁] at h
    · obtain ⟨i₂, c₂, hi₂⟩ : ∃ i₂ c₂, Input.get text { input with pos := input.pos + 1 } x =
        (i₂, c₂) := ⟨_, _, rfl⟩
      refine ⟨_, x, i₂, c₂, hi₁, hi₂, .inl ⟨?_, hx, ?_⟩⟩
      · cases r <;> simp [lookahead, hx]
      · have h := @seekg_stands text { input with pos := input.pos + 1 } input.pos hgood hle
        rwa [hdrop] at h

theorem nextPos_near {p : Nat} (h : p + 1 < 2 ^ 31) : nextPos p = .ok (p + 1 : Nat) := by
  have hmod : Int.bmod (p : Int) (2 ^ 32) = p := Int.bmod_eq_of_le (by omega) (by omega)
  unfold nextPos
  simp only [hmod]
  rw [if_neg (by omega)]
  rfl

/-! ## One turn -/

/-- What a turn does to a state in front of `c :: r`. -/
structure TurnOf (text : List Char) (s s' : State) (ls : List Lexeme) (r' : List Char) : Prop where
  ss : s'.ss = []
  tokens : s'.tokens.map Token.lexeme = s.tokens.map Token.lexeme ++ flush s.ss ++ ls
  input : Stands text s'.input r'

theorem push_lexemes (s : State) (type : Token.Type) (token : List Char) :
    (s.push type token).tokens.map Token.lexeme =
      s.tokens.map Token.lexeme ++ [(type, token)] := by
  simp [State.push, Token.lexeme]

theorem flushWord_of_end {s : State}
    (h : isSymbol s.c ∨ isPunct s.c ∨ isWhitespace s.c ∨ isNewline s.c) :
    s.flushWord.ss = [] ∧ s.flushWord.c = s.c ∧ s.flushWord.input = s.input ∧
      s.flushWord.tokens.map Token.lexeme = s.tokens.map Token.lexeme ++ flush s.ss := by
  unfold State.flushWord flush
  by_cases hss : s.ss = []
  · simp [hss]
  · rw [if_pos ⟨hss, h⟩, if_neg hss]
    exact ⟨rfl, rfl, rfl, push_lexemes s .kWord s.ss⟩

theorem flushWord_of_word {s : State}
    (h : ¬ (isSymbol s.c ∨ isPunct s.c ∨ isWhitespace s.c ∨ isNewline s.c)) : s.flushWord = s := by
  unfold State.flushWord
  rw [if_neg fun hc => h hc.2]

theorem genericPunct_lexemes {s : State} (h : s.ss = []) :
    s.genericPunct.tokens.map Token.lexeme = s.tokens.map Token.lexeme ++ [(.kPunct, [s.c])] := by
  unfold State.genericPunct
  rw [push_lexemes, h]
  rfl

theorem flush_nil : flush [] = [] := rfl

/-- A token pushed where no word is open. -/
theorem pushed_tokens {s s₀ : State} {type : Token.Type} {token : List Char} (hss : s.ss = [])
    (htokens : s₀.tokens = s.tokens) : (s₀.push type token).tokens.map Token.lexeme =
      s.tokens.map Token.lexeme ++ flush s.ss ++ [(type, token)] := by
  rw [push_lexemes, htokens, hss, flush_nil, List.append_nil]

theorem backtick_turn {s : State} {r : List Char} (hc : s.c = tick) (hss : s.ss = [])
    (hgood : s.input.good = true) (hle : s.input.pos ≤ text.length)
    (hdrop : text.drop s.input.pos = r)
    (hnear : lookahead tick r = 2 → s.input.pos + 1 < 2 ^ 31) :
    ∃ s', s.backtick text = .ok s' ∧
      TurnOf text s s' [tickLexeme (lookahead tick r)] (r.drop (lookahead tick r - 1)) := by
  obtain ⟨i₁, c₁, i₂, c₂, h₁, h₂, hcase⟩ := two_reads tick hgood hle hdrop
  unfold State.backtick
  rw [hc]
  simp only [h₁, h₂]
  rcases hcase with ⟨hl, hc₁, hstands⟩ | ⟨hl, hc₁, hc₂, hstands⟩ | ⟨hl, hc₁, hc₂, hstands⟩
  · rw [if_pos hc₁, hl]
    refine ⟨_, rfl, rfl, ?_, hstands⟩
    refine (genericPunct_lexemes ?_).trans ?_
    · exact hss
    · rw [hss, flush_nil, List.append_nil]
      rfl
  · rw [if_neg (by simp [hc₁]), if_pos hc₂, hl, nextPos_near (hnear hl)]
    refine ⟨_, rfl, rfl, ?_, hstands⟩
    refine (genericPunct_lexemes ?_).trans ?_
    · exact hss
    · rw [hss, flush_nil, List.append_nil]
      rfl
  · rw [if_neg (by simp [hc₁]), if_neg (by simp [hc₂]), hl]
    exact ⟨_, rfl, hss, pushed_tokens hss rfl, hstands⟩

theorem header_turn {s : State} {r : List Char} (hc : s.c = '#') (hss : s.ss = [])
    (hgood : s.input.good = true) (hle : s.input.pos ≤ text.length)
    (hdrop : text.drop s.input.pos = r)
    (hnear : lookahead '#' r = 2 → s.input.pos + 1 < 2 ^ 31) :
    ∃ s', s.header text = .ok s' ∧
      TurnOf text s s' [headerLexeme (lookahead '#' r)] (r.drop (lookahead '#' r - 1)) := by
  obtain ⟨i₁, c₁, i₂, c₂, h₁, h₂, hcase⟩ := two_reads '#' hgood hle hdrop
  unfold State.header
  rw [hc]
  simp only [h₁, h₂]
  rcases hcase with ⟨hl, hc₁, hstands⟩ | ⟨hl, hc₁, hc₂, hstands⟩ | ⟨hl, hc₁, hc₂, hstands⟩
  · rw [if_pos hc₁, hl]
    exact ⟨_, rfl, hss, pushed_tokens hss rfl, hstands⟩
  · rw [if_neg (by simp [hc₁]), if_pos hc₂, hl, nextPos_near (hnear hl)]
    exact ⟨_, rfl, hss, pushed_tokens hss rfl, hstands⟩
  · rw [if_neg (by simp [hc₁]), if_neg (by simp [hc₂]), hl]
    exact ⟨_, rfl, hss, pushed_tokens hss rfl, hstands⟩

theorem TurnOf.of_flush {s s₀ s' : State} {ls : List Lexeme} {r' : List Char}
    (h : TurnOf text s₀ s' ls r') (hss : s₀.ss = [])
    (htok : s₀.tokens.map Token.lexeme = s.tokens.map Token.lexeme ++ flush s.ss) :
    TurnOf text s s' ls r' := by
  refine ⟨h.ss, ?_, h.input⟩
  rw [h.tokens, hss, flush_nil, List.append_nil, htok]

/-- A turn on a character that ends words. -/
theorem turn_take {s : State} {r r' : List Char} {ls : List Lexeme} (hgood : s.input.good = true)
    (hle : s.input.pos ≤ text.length) (hdrop : text.drop s.input.pos = r)
    (htake : take s.c r = some (ls, r'))
    (hnear : (s.c = tick ∨ s.c = '#') → lookahead s.c r = 2 → s.input.pos + 1 < 2 ^ 31) :
    ∃ s', s.turn text = .ok s' ∧ TurnOf text s s' ls r' := by
  have hend : isSymbol s.c ∨ isPunct s.c ∨ isWhitespace s.c ∨ isNewline s.c := by
    unfold take at htake
    split_ifs at htake with hw hn hp _ hs
    · exact .inr (.inr (.inl hw))
    · exact .inr (.inr (.inr hn))
    · exact .inr (.inl hp)
    · exact .inr (.inl hp)
    · exact .inl hs
    · exact .inl hs
  unfold State.turn
  generalize hs₀ : ({ s with colcount := s.colcount + 1 } : State) = s₁
  have hc₁ : s₁.c = s.c := by rw [← hs₀]
  have hi₁ : s₁.input = s.input := by rw [← hs₀]
  have hss₁ : s₁.ss = s.ss := by rw [← hs₀]
  have ht₁ : s₁.tokens = s.tokens := by rw [← hs₀]
  obtain ⟨hss, hc, hinput, htokens⟩ := @flushWord_of_end s₁ (by rw [hc₁]; exact hend)
  rw [hc₁] at hc
  rw [hi₁] at hinput
  rw [ht₁, hss₁] at htokens
  generalize s₁.flushWord = s₂ at hss hc hinput htokens ⊢
  have hstands : Stands text s₂.input r := by
    rw [hinput]
    exact stands_good hgood hle hdrop
  have hsimple : ∀ s' : State, ∀ ls, s'.ss = [] → s'.input = s₂.input →
      s'.tokens.map Token.lexeme = s₂.tokens.map Token.lexeme ++ ls → TurnOf text s s' ls r := by
    intro s' ls hss' hinput' htok'
    refine ⟨hss', ?_, by rw [hinput']; exact hstands⟩
    rw [htok', htokens]
  unfold take at htake
  simp only [hc]
  split_ifs at htake with hw hn hp ht hs hh <;> cases htake
  · rw [if_pos hw]
    exact ⟨s₂, rfl, hsimple s₂ [] hss rfl (List.append_nil _).symm⟩
  · rw [if_neg hw, if_pos hn]
    exact ⟨_, rfl, hsimple _ _ rfl rfl (push_lexemes _ _ _)⟩
  · rw [if_neg hw, if_neg hn, if_pos hp, if_pos ht]
    obtain ⟨s', hs', hturn⟩ :=
      @backtick_turn text s₂ r (by rw [hc, ht]) hss (by rw [hinput]; exact hgood)
      (by rw [hinput]; exact hle) (by rw [hinput]; exact hdrop)
      (by rw [hinput]; exact fun hl => hnear (.inl ht) (by rw [ht]; exact hl))
    exact ⟨s', hs', hturn.of_flush hss htokens⟩
  · rw [if_neg hw, if_neg hn, if_pos hp, if_neg ht]
    refine ⟨_, rfl, hsimple _ _ rfl rfl ?_⟩
    rw [← hc]
    exact genericPunct_lexemes hss
  · rw [if_neg hw, if_neg hn, if_neg hp, if_pos hs, if_pos hh]
    obtain ⟨s', hs', hturn⟩ :=
      @header_turn text s₂ r (by rw [hc, hh]) hss (by rw [hinput]; exact hgood)
      (by rw [hinput]; exact hle) (by rw [hinput]; exact hdrop)
      (by rw [hinput]; exact fun hl => hnear (.inr hh) (by rw [hh]; exact hl))
    exact ⟨s', hs', hturn.of_flush hss htokens⟩
  · rw [if_neg hw, if_neg hn, if_neg hp, if_pos hs, if_neg hh]
    refine ⟨_, rfl, hsimple _ _ rfl rfl ?_⟩
    rw [hss]
    exact push_lexemes _ _ _

/-- A turn on a character of a word. -/
theorem turn_word {s : State} {r : List Char} (htake : take s.c r = none) :
    ∃ s', s.turn text = .ok s' ∧ s'.ss = s.ss ++ [s.c] ∧ s'.tokens = s.tokens ∧
      s'.input = s.input ∧ ¬ (isSymbol s.c ∨ isPunct s.c ∨ isWhitespace s.c ∨ isNewline s.c) := by
  have hword : isWhitespace s.c = false ∧ isNewline s.c = false ∧ isPunct s.c = false ∧
      isSymbol s.c = false := by
    unfold take at htake
    split_ifs at htake with hw hn hp ht hs
    simp only [Bool.not_eq_true] at hw hn hp hs
    exact ⟨hw, hn, hp, hs⟩
  obtain ⟨hw, hn, hp, hs⟩ := hword
  have hnot : ¬ (isSymbol s.c ∨ isPunct s.c ∨ isWhitespace s.c ∨ isNewline s.c) := by
    simp [hw, hn, hp, hs]
  have hflush : State.flushWord { s with colcount := s.colcount + 1 } =
      { s with colcount := s.colcount + 1 } := flushWord_of_word hnot
  refine ⟨{ s with colcount := s.colcount + 1, ss := s.ss ++ [s.c] }, ?_, rfl, rfl, rfl, hnot⟩
  unfold State.turn
  simp only [hflush, hw, hn, hp, hs, Bool.false_eq_true, if_false]

/-! ## The loop -/

/-- The word that is open consists of characters of words. -/
def IsWord (ss : List Char) : Prop :=
  ∀ c ∈ ss, ¬ (isSymbol c ∨ isPunct c ∨ isWhitespace c ∨ isNewline c)

theorem last_lexemes {s : State} (h : IsWord s.ss) :
    s.last.map Token.lexeme = s.tokens.map Token.lexeme ++ flush s.ss := by
  unfold State.last flush
  cases hss : s.ss with
  | nil => simp
  | cons c ss =>
    have hc := h c (by rw [hss]; exact List.mem_cons_self)
    simp only [not_or, Bool.not_eq_true] at hc
    obtain ⟨hs, hp, -, hn⟩ := hc
    simp only [hp, hs, hn, Bool.false_eq_true, if_false, push_lexemes]
    simp

theorem drop_length {input : Input} {c : Char} {r : List Char} (hle : input.pos ≤ text.length)
    (hdrop : text.drop input.pos = c :: r) : input.pos + 1 = text.length - r.length := by
  have hlen := congrArg List.length hdrop
  rw [List.length_drop, List.length_cons] at hlen
  omega

/-- At the end of the text the loop stops. -/
theorem body_nil {s : State} (hstands : Stands text s.input []) :
    processBody text s = .done (.ok s.last) := by
  have hget : ∃ input, s.input.get text s.c = (input, s.c) ∧ input.good = false := by
    by_cases hgood : s.input.good = true
    · rw [Stands, if_pos hgood] at hstands
      exact get_nil hstands.2 s.c
    · rw [Bool.not_eq_true] at hgood
      exact ⟨s.input, get_bad hgood s.c, hgood⟩
  obtain ⟨input, hget, hbad⟩ := hget
  unfold processBody
  simp only [hget, hbad, Bool.false_eq_true, if_false]
  rfl

/-- In front of `c :: r` the loop reads `c` and makes a turn, from a state `t`. -/
theorem body_cons {s : State} {c : Char} {r : List Char} (hstands : Stands text s.input (c :: r)) :
    ∃ t : State, t.c = c ∧ t.ss = s.ss ∧ t.tokens = s.tokens ∧ t.linecount = s.linecount ∧
      t.input.good = true ∧ t.input.pos ≤ text.length ∧ text.drop t.input.pos = r ∧
      t.input.pos = text.length - r.length ∧
      ∀ s', t.turn text = .ok s' → processBody text s = .again s' := by
  have hgood : s.input.good = true := by
    by_contra hbad
    rw [Stands, if_neg hbad] at hstands
    cases hstands
  rw [Stands, if_pos hgood] at hstands
  obtain ⟨hle, hdrop⟩ := hstands
  obtain ⟨hget, hle', hdrop'⟩ := get_cons hgood hdrop s.c
  refine ⟨{ s with input := { s.input with pos := s.input.pos + 1 }, c }, rfl, rfl, rfl, rfl, hgood,
    hle', hdrop', drop_length hle hdrop, fun s' hs' => ?_⟩
  unfold processBody
  rw [hget]
  show (if s.input.good = true then _ else _) = _
  rw [if_pos hgood, hs']

/-- From every state on the way, `Process` returns what `scan` finds. -/
theorem process_from {s : State} {rest : List Char} (hstands : Stands text s.input rest)
    (hword : IsWord s.ss) (hnear : Near text.length rest) :
    ∃ toks, Returns (processBody text) s (.ok toks) ∧
      toks.map Token.lexeme = s.tokens.map Token.lexeme ++ scan s.ss rest := by
  induction hlen : rest.length using Nat.strongRecOn generalizing s rest with
  | ind k ih =>
    cases rest with
    | nil =>
      exact ⟨s.last, returns_of_done (body_nil hstands), by rw [last_lexemes hword, scan_nil]⟩
    | cons c r =>
      obtain ⟨t, htc, htss, httok, -, htgood, hle, hdrop, hpos, hbody⟩ := body_cons hstands
      cases htake : take c r with
      | none =>
        obtain ⟨s', hs', hss', htok', hin', hnot⟩ := @turn_word text t r (by rw [htc]; exact htake)
        have hstands' : Stands text s'.input r := by
          rw [hin']
          exact stands_good htgood hle hdrop
        have hword' : IsWord s'.ss := by
          rw [hss', htss]
          intro d hd
          rcases List.mem_append.1 hd with hd | hd
          · exact hword d hd
          · rw [List.mem_singleton] at hd
            rw [hd]
            exact hnot
        obtain ⟨toks, hret, htoks⟩ := ih r.length (by simp [← hlen]) hstands' hword'
          (near_word htake hnear) rfl
        refine ⟨toks, (returns_again_iff (hbody s' hs')).2 hret, ?_⟩
        rw [htoks, htok', httok, hss', htss, htc, scan_word htake]
      | some p =>
        obtain ⟨ls, r'⟩ := p
        obtain ⟨hfar, hnear'⟩ := near_take htake hnear
        obtain ⟨s', hs', hturn⟩ := @turn_take text t r r' ls htgood hle hdrop
          (by rw [htc]; exact htake) (by rw [htc, hpos]; exact hfar)
        have hlt : r'.length < k := by
          have h := take_length htake
          rw [← hlen, List.length_cons]
          omega
        obtain ⟨toks, hret, htoks⟩ := ih r'.length hlt hturn.input
          (by rw [hturn.ss]; simp [IsWord]) hnear' rfl
        refine ⟨toks, (returns_again_iff (hbody s' hs')).2 hret, ?_⟩
        rw [htoks, hturn.tokens, hturn.ss, httok, htss, scan_take htake]
        simp only [List.append_assoc]

end

/-- **Where no position leaves `int`, `Process` is `scan`.** -/
theorem process_scan {text : List Char} (h : Near text.length text) :
    ∃ toks, Process text (.ok toks) ∧ toks.map Token.lexeme = scan [] text :=
  @process_from text {} text (stands_good rfl (Nat.zero_le _) rfl) (by simp [IsWord]) h

end Mdm
