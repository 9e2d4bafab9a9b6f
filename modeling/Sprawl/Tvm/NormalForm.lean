import Sprawl.Tvm.Comments

/-!
# A normal form of texts

The values of the tokens, joined by single spaces, are a text with the same tokens:

    tokenize text = ok tokens → tokenize (normalText tokens) = ok tokens' for tokens' with
    the values and the types of tokens      (tokenize_normalText)

A value is a word of plain characters, a colon, or a word glued to a string; only the last
one can be a string that is not closed (`Emitted`).
-/

namespace Tvm

open Cxx

/-- The values of the tokens, a space between each and the next. -/
def normalText (tokens : List Token) : List Char := [' '].intercalate (tokens.map Token.value)

/-! ## The values `Tokenize` emits -/

/-- A value that ends where it ends whatever stands behind it, if it is not a plain
character. -/
inductive Closed : List Char → Prop
  | word {w : List Char} : w ≠ [] → (∀ c ∈ w, IsPlain c) → Closed w
  | colon : Closed [':']
  | string {w body : List Char} : (∀ c ∈ w, IsPlain c) → InString body →
      Closed (w ++ '"' :: body ++ ['"'])

/-- Closed values, and at the end perhaps a string without its closing quote. -/
inductive Emitted : List (List Char) → Prop
  | nil : Emitted []
  | lastString {w body : List Char} : (∀ c ∈ w, IsPlain c) → InString body → body ≠ [] →
      Emitted [w ++ '"' :: body]
  | cons {v : List Char} {vs : List (List Char)} : Closed v → Emitted vs → Emitted (v :: vs)

/-- `ts` goes on from `tokens` with values that can be emitted. -/
def Emits (tokens ts : List Token) : Prop :=
  ∃ ts', ts = tokens ++ ts' ∧ Emitted (ts'.map Token.value)

theorem Emits.refl (tokens : List Token) : Emits tokens tokens :=
  ⟨[], (List.append_nil _).symm, .nil⟩

theorem Emits.push {tokens ts : List Token} {v : List Char} {n : Nat} (hv : Closed v)
    (h : Emits (tokens ++ [{ value := v, lineNumber := n }]) ts) : Emits tokens ts := by
  obtain ⟨ts', rfl, hts⟩ := h
  exact ⟨{ value := v, lineNumber := n } :: ts', by simp, .cons hv hts⟩

/-- What is flushed is a word. -/
theorem Emits.flush {tokens ts : List Token} {buffer : List Char} {n : Nat}
    (hb : ∀ c ∈ buffer, IsPlain c) (h : Emits (flushBuffer tokens buffer n) ts) :
    Emits tokens ts := by
  unfold flushBuffer at h
  split at h
  · exact h
  · next hne => exact .push (.word hne hb) h

theorem flushBuffer_push (tokens : List Token) {v : List Char} (n : Nat) (h : v ≠ []) :
    flushBuffer tokens v n = tokens ++ [{ value := v, lineNumber := n }] := if_neg h

theorem Closed.ne_nil {v : List Char} (h : Closed v) : v ≠ [] := by
  cases h with
  | word hne _ => exact hne
  | colon => exact List.cons_ne_nil _ _
  | string _ _ => simp

/-- **Only these values are emitted.** -/
theorem tokenizeFrom_emits (text : List Char) :
    ∀ {tokens buffer n ts}, (∀ c ∈ buffer, IsPlain c) →
      tokenizeFrom tokens buffer n text = .ok ts → Emits tokens ts := by
  induction text using textInduction with
  | nil =>
    intro tokens buffer n ts hbuffer h
    rw [tokenizeFrom_nil] at h
    cases h
    exact (Emits.refl _).flush hbuffer
  | plain c s hc ih =>
    intro tokens buffer n ts hbuffer h
    rw [tokenizeFrom_plain _ _ _ _ hc] at h
    refine ih ?_ h
    intro d hd
    rcases List.mem_append.1 hd with hd | hd
    · exact hbuffer d hd
    · rwa [List.mem_singleton.1 hd]
  | blank c s hc ih =>
    intro tokens buffer n ts hbuffer h
    rw [tokenizeFrom_blank _ _ _ _ hc] at h
    exact (ih (by simp) h).flush hbuffer
  | colon s ih =>
    intro tokens buffer n ts hbuffer h
    rw [tokenizeFrom_colon] at h
    exact ((ih (by simp) h).push .colon).flush hbuffer
  | comment body s hb ih =>
    intro tokens buffer n ts hbuffer h
    rw [tokenizeFrom_comment _ _ _ _ hb] at h
    exact ih hbuffer h
  | lastComment body hb =>
    intro tokens buffer n ts hbuffer h
    rw [tokenizeFrom_lastComment _ _ _ hb] at h
    cases h
    exact (Emits.refl _).flush hbuffer
  | string body s hb ih =>
    intro tokens buffer n ts hbuffer h
    have hclosed : Closed (buffer ++ '"' :: body ++ ['"']) := .string hbuffer hb
    rw [tokenizeFrom_string _ _ _ _ hb, List.append_assoc buffer, List.singleton_append,
      flushBuffer_push _ _ hclosed.ne_nil] at h
    exact (ih (by simp) h).push hclosed
  | brokenString body s hb =>
    intro tokens buffer n ts hbuffer h
    rw [tokenizeFrom_brokenString _ _ _ _ hb] at h
    cases h
  | lastString body hb =>
    intro tokens buffer n ts hbuffer h
    rw [tokenizeFrom_lastString _ _ _ hb, flushBuffer_push _ _ (by simp)] at h
    cases h
    by_cases hbody : body = []
    · -- a quote at the end is closed by itself
      rw [if_pos hbody]
      exact (Emits.refl _).push (.string hbuffer hb)
    · rw [if_neg hbody, List.append_nil]
      exact ⟨_, rfl, .lastString hbuffer hb hbody⟩

/-! ## Reading them back -/

section
variable (tokens : List Token) (n : Nat) {s : List Char}

/-- The buffer is flushed at the end of the text and at a blank. -/
theorem tokenizeFrom_flush (buffer : List Char) (hs : ∀ c ∈ s.head?, IsBlank c) :
    tokenizeFrom tokens buffer n s = tokenizeFrom (flushBuffer tokens buffer n) [] n s := by
  cases s with
  | nil =>
    rw [tokenizeFrom_nil, tokenizeFrom_nil]
    rfl
  | cons c s =>
    rw [tokenizeFrom_blank _ _ _ _ (hs c rfl), tokenizeFrom_blank _ _ _ _ (hs c rfl)]
    rfl

/-- A closed value is read back whole. -/
theorem tokenizeFrom_closed {v : List Char} (h : Closed v) (hs : ∀ c ∈ s.head?, IsBlank c) :
    tokenizeFrom tokens [] n (v ++ s) =
      tokenizeFrom (tokens ++ [{ value := v, lineNumber := n }]) [] n s := by
  have hflush := flushBuffer_push tokens n h.ne_nil
  cases h with
  | word hne hv =>
    rw [tokenizeFrom_plains _ _ _ _ hv, List.nil_append, tokenizeFrom_flush _ _ _ hs, hflush]
  | colon =>
    rw [List.singleton_append, tokenizeFrom_colon]
    rfl
  | @string w body hw hb =>
    rw [show w ++ '"' :: body ++ ['"'] ++ s = w ++ ('"' :: body ++ '"' :: s) by simp,
      tokenizeFrom_plains _ _ _ _ hw, tokenizeFrom_string _ _ _ _ hb, ← hflush]
    simp

end

/-- **Emitted values, joined, are read back in order.** -/
theorem tokenizeFrom_emitted {vs : List (List Char)} (h : Emitted vs) (tokens : List Token)
    (n : Nat) : tokenizeFrom tokens [] n ([' '].intercalate vs) =
      .ok (tokens ++ vs.map fun v => { value := v, lineNumber := n }) := by
  induction h generalizing tokens with
  | nil =>
    rw [List.map_nil, List.append_nil]
    exact tokenizeFrom_nil tokens [] n
  | @lastString w body hw hb hbody =>
    rw [List.intercalate_singleton, tokenizeFrom_plains _ _ _ _ hw,
      tokenizeFrom_lastString _ _ _ hb,
      if_neg hbody, List.append_nil, List.nil_append, flushBuffer_push _ _ (by simp)]
    rfl
  | @cons v vs hv hvs ih =>
    cases vs with
    | nil =>
      rw [List.intercalate_singleton, ← List.append_nil v,
        tokenizeFrom_closed tokens n hv (by simp), tokenizeFrom_nil, List.append_nil]
      rfl
    | cons u vs =>
      rw [List.intercalate_cons_cons, List.append_assoc, List.singleton_append,
        tokenizeFrom_closed tokens n hv (by simp [IsBlank]),
        tokenizeFrom_blank _ _ _ _ (.inl rfl), if_neg (by decide)]
      refine (ih _).trans ?_
      simp [flushBuffer]

/-- **The normal text has the values and the types of the text.** -/
theorem tokenize_normalText {text : List Char} {tokens : List Token}
    (h : tokenize text = .ok tokens) :
    ∃ tokens', tokenize (normalText tokens) = .ok tokens' ∧
      tokens'.map Token.value = tokens.map Token.value ∧
      tokens'.map Token.type = tokens.map Token.type := by
  obtain ⟨ts, rfl, hemitted⟩ := tokenizeFrom_emits text (by simp) h
  refine ⟨_, tokenizeFrom_emitted hemitted [] 1, ?_, ?_⟩
  · simp
  · -- the type is a function of the value
    simp [Token.type]

/-- A word over a comment that goes on with a string, a colon, and a string that the text
closes. -/
def gluedText : List Char := "A;x\nB\"c d\":\"e f".toList

def gluedTokens : List Token :=
  [⟨"AB\"c d\"".toList, 2, 0⟩, ⟨":".toList, 2, 0⟩, ⟨"\"e f".toList, 2, 0⟩]

theorem tokenize_normalText_glued :
    ∃ tokens', tokenize (normalText gluedTokens) = .ok tokens' ∧
      tokens'.map Token.value = gluedTokens.map Token.value ∧
      tokens'.map Token.type = gluedTokens.map Token.type :=
  @tokenize_normalText gluedText gluedTokens (by decide +kernel)

end Tvm
