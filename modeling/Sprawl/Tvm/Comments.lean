import Sprawl.Tvm.Tokenize

/-!
# Comments

A comment should leave no trace: the text without its comments has the same tokens.  It
does unless a comment starts right behind a character of a token and ends with a newline.
There `Tokenize` goes on with the token on the next line:

    tokenize text = ok tokens →
      (tokenize (withoutComments .code text) = ok tokens ↔ Apart .code '\n' text)

(`transparent_iff`).  `textInduction` goes through a text as the loop does, a comment or a
string at a time.
-/

namespace Tvm

open Cxx

/-! ## Where the comments are -/

/-- What the loop is in. -/
inductive Mode
  | code | comment | string
deriving DecidableEq

/-- A `;` outside a string begins a comment, a newline ends it. -/
def Mode.next (m : Mode) (c : Char) : Mode :=
  match m with
  | code => if c = ';' then comment else if c = '"' then string else code
  | comment => if c = '\n' then code else comment
  | string => if c = '"' ∨ c = '\n' then code else string

/-- The text without its comments; their newlines stay. -/
def withoutComments (m : Mode) : List Char → List Char
  | [] => []
  | c :: s =>
    let rest := withoutComments (m.next c) s
    if m.next c = .comment then rest else c :: rest

/-- No comment that ends with a newline begins right behind a character of a token; `p` is
the character in front of the text. -/
def Apart (m : Mode) (p : Char) : List Char → Prop
  | [] => True
  | c :: s => (m = .code → c = ';' → IsPlain p → '\n' ∉ s) ∧ Apart (m.next c) c s

example : withoutComments .code "HALT ; \"x\"\n\"a;b\" ;".toList = "HALT \n\"a;b\" ".toList := by
  decide +kernel

/-! ## A text as the loop reads it -/

/-- A text is split at the first of some characters, if it has one. -/
theorem exists_first (p : Char → Bool) (s : List Char) :
    (∀ c ∈ s, p c = false) ∨
      ∃ body d rest, s = body ++ d :: rest ∧ (∀ c ∈ body, p c = false) ∧ p d = true := by
  induction s with
  | nil => exact .inl (by simp)
  | cons c s ih =>
    cases hc : p c with
    | true => exact .inr ⟨[], c, s, rfl, by simp, hc⟩
    | false =>
      rcases ih with hall | ⟨body, d, rest, rfl, hbody, hd⟩
      · exact .inl (List.forall_mem_cons.2 ⟨hc, hall⟩)
      · exact .inr ⟨c :: body, d, rest, rfl, List.forall_mem_cons.2 ⟨hc, hbody⟩, hd⟩

theorem comment_split (s : List Char) :
    '\n' ∉ s ∨ ∃ body rest, s = body ++ '\n' :: rest ∧ '\n' ∉ body := by
  rcases exists_first (· = '\n') s with hall | ⟨body, d, rest, rfl, hbody, hd⟩
  · exact .inl fun h => by simpa using hall _ h
  · rw [decide_eq_true_iff] at hd
    subst hd
    exact .inr ⟨body, rest, rfl, fun h => by simpa using hbody _ h⟩

theorem string_split (s : List Char) :
    InString s ∨ ∃ body d rest, s = body ++ d :: rest ∧ InString body ∧ (d = '"' ∨ d = '\n') := by
  have hbody : ∀ body : List Char, (∀ c ∈ body, decide (c = '"' ∨ c = '\n') = false) →
      InString body := by
    intro body h
    exact ⟨fun hq => by simpa using h _ hq, fun hn => by simpa using h _ hn⟩
  rcases exists_first (fun c => decide (c = '"' ∨ c = '\n')) s with
    hall | ⟨body, d, rest, rfl, hb, hd⟩
  · exact .inl (hbody s hall)
  · exact .inr ⟨body, d, rest, rfl, hbody body hb, of_decide_eq_true hd⟩

/-- A text is read a character, a comment or a string at a time. -/
@[elab_as_elim]
theorem textInduction {motive : List Char → Prop} (nil : motive [])
    (plain : ∀ c s, IsPlain c → motive s → motive (c :: s))
    (blank : ∀ c s, IsBlank c → motive s → motive (c :: s))
    (colon : ∀ s, motive s → motive (':' :: s))
    (comment : ∀ body s, '\n' ∉ body → motive s → motive (';' :: body ++ '\n' :: s))
    (lastComment : ∀ body, '\n' ∉ body → motive (';' :: body))
    (string : ∀ body s, InString body → motive s → motive ('"' :: body ++ '"' :: s))
    (brokenString : ∀ body s, InString body → motive ('"' :: body ++ '\n' :: s))
    (lastString : ∀ body, InString body → motive ('"' :: body)) (text : List Char) :
    motive text := by
  induction hn : text.length using Nat.strong_induction_on generalizing text with
  | _ n ih =>
    subst hn
    cases text with
    | nil => exact nil
    | cons c s =>
      have hs : motive s := ih s.length (Nat.lt_succ_self _) s rfl
      by_cases hcomment : c = ';'
      · subst hcomment
        rcases comment_split s with hend | ⟨body, rest, rfl, hbody⟩
        · exact lastComment s hend
        · refine comment body rest hbody (ih rest.length ?_ rest rfl)
          simp
          omega
      · by_cases hstring : c = '"'
        · subst hstring
          rcases string_split s with hend | ⟨body, d, rest, rfl, hbody, rfl | rfl⟩
          · exact lastString s hend
          · refine string body rest hbody (ih rest.length ?_ rest rfl)
            simp
            omega
          · exact brokenString body rest hbody
        · by_cases hcolon : c = ':'
          · subst hcolon
            exact colon s hs
          · by_cases hblank : IsBlank c
            · exact blank c s hblank hs
            · exact plain c s ⟨hblank, hcomment, hstring, hcolon⟩ hs

/-! ## Deleting, piece by piece -/

theorem next_code {c : Char} (hc : c ≠ ';') (hs : c ≠ '"') : Mode.next .code c = .code := by
  show (if c = ';' then Mode.comment else if c = '"' then .string else .code) = .code
  rw [if_neg hc, if_neg hs]

theorem IsBlank.next {c : Char} (h : IsBlank c) : Mode.next .code c = .code := by
  rcases h with rfl | rfl | rfl | rfl <;> rfl

/-- A character outside comments and strings. -/
theorem withoutComments_code {c : Char} (h : Mode.next .code c = .code) (s : List Char) :
    withoutComments .code (c :: s) = c :: withoutComments .code s := by
  rw [withoutComments, h]
  rfl

theorem apart_code {c p : Char} (h : Mode.next .code c = .code) (s : List Char) :
    Apart .code p (c :: s) ↔ Apart .code c s := by
  have hc : c ≠ ';' := by
    rintro rfl
    cases h
  rw [Apart, h]
  exact and_iff_right fun _ hc' => absurd hc' hc

/-- The characters leave the mode as it is. -/
def Stays (m : Mode) (body : List Char) : Prop := ∀ c ∈ body, m.next c = m

theorem stays_comment {body : List Char} (hb : '\n' ∉ body) : Stays .comment body := by
  intro c hc
  apply if_neg
  rintro rfl
  exact hb hc

theorem stays_string {body : List Char} (hb : InString body) : Stays .string body := by
  intro c hc
  apply if_neg
  rintro (rfl | rfl)
  · exact hb.1 hc
  · exact hb.2 hc

section
variable {m : Mode} {body : List Char}

/-- Comments go, strings stay. -/
theorem withoutComments_stays (h : Stays m body) (s : List Char) :
    withoutComments m (body ++ s) =
      (if m = .comment then [] else body) ++ withoutComments m s := by
  induction body with
  | nil => simp
  | cons c body ih =>
    obtain ⟨hc, hbody⟩ := List.forall_mem_cons.1 h
    rw [List.cons_append, withoutComments, hc, ih hbody]
    split <;> rfl

theorem apart_stays (h : Stays m body) (hm : m ≠ .code) (p : Char) : Apart m p body := by
  induction body generalizing p with
  | nil => trivial
  | cons c body ih =>
    obtain ⟨hc, hbody⟩ := List.forall_mem_cons.1 h
    rw [Apart, hc]
    exact ⟨fun hcode => absurd hcode hm, ih hbody c⟩

/-- Behind a comment or a string only the character that ends it counts. -/
theorem apart_behind (h : Stays m body) (hm : m ≠ .code) (p d : Char) (s : List Char) :
    Apart m p (body ++ d :: s) ↔ Apart (m.next d) d s := by
  induction body generalizing p with
  | nil => exact and_iff_right fun hcode => absurd hcode hm
  | cons c body ih =>
    obtain ⟨hc, hbody⟩ := List.forall_mem_cons.1 h
    rw [List.cons_append, Apart, hc, ih hbody]
    exact and_iff_right fun hcode => absurd hcode hm

end

/-! ## What `Tokenize` makes of both texts -/

/-- `ts` goes on from `tokens` with tokens of line `n` or a later one. -/
def GoesOn (n : Nat) (tokens ts : List Token) : Prop :=
  ∃ ts', ts = tokens ++ ts' ∧ ∀ t ∈ ts', n ≤ t.lineNumber

theorem GoesOn.refl (n : Nat) (tokens : List Token) : GoesOn n tokens tokens :=
  ⟨[], (List.append_nil _).symm, by simp⟩

theorem GoesOn.trans {n n' : Nat} {tokens ts us : List Token} (hn : n ≤ n')
    (h : GoesOn n tokens ts) (h' : GoesOn n' ts us) : GoesOn n tokens us := by
  obtain ⟨ts', rfl, hts⟩ := h
  obtain ⟨us', rfl, hus⟩ := h'
  refine ⟨ts' ++ us', List.append_assoc _ _ _, ?_⟩
  intro t ht
  rcases List.mem_append.1 ht with hmem | hmem
  · exact hts t hmem
  · exact hn.trans (hus t hmem)

theorem GoesOn.push (tokens : List Token) (value : List Char) (n : Nat) :
    GoesOn n tokens (tokens ++ [{ value, lineNumber := n }]) :=
  ⟨_, rfl, by simp⟩

theorem GoesOn.flush (tokens : List Token) (buffer : List Char) (n : Nat) :
    GoesOn n tokens (flushBuffer tokens buffer n) := by
  unfold flushBuffer
  split
  · exact GoesOn.refl n tokens
  · exact GoesOn.push tokens buffer n

/-- The tokens that are still to come stand on this line or a later one. -/
theorem tokenizeFrom_goesOn (text : List Char) :
    ∀ {tokens buffer n ts}, tokenizeFrom tokens buffer n text = .ok ts → GoesOn n tokens ts := by
  induction text using textInduction with
  | nil =>
    intro tokens buffer n ts h
    rw [tokenizeFrom_nil] at h
    cases h
    exact GoesOn.flush tokens buffer n
  | plain c s hc ih =>
    intro tokens buffer n ts h
    rw [tokenizeFrom_plain _ _ _ _ hc] at h
    exact ih h
  | blank c s hc ih =>
    intro tokens buffer n ts h
    rw [tokenizeFrom_blank _ _ _ _ hc] at h
    refine GoesOn.trans ?_ (GoesOn.flush tokens buffer n) (ih h)
    split <;> omega
  | colon s ih =>
    intro tokens buffer n ts h
    rw [tokenizeFrom_colon] at h
    have hcolon := GoesOn.push (flushBuffer tokens buffer n) [':'] n
    exact ((GoesOn.flush tokens buffer n).trans (Nat.le_refl n) hcolon).trans (Nat.le_refl n) (ih h)
  | comment body s hb ih =>
    intro tokens buffer n ts h
    rw [tokenizeFrom_comment _ _ _ _ hb] at h
    exact (GoesOn.refl n tokens).trans (Nat.le_succ n) (ih h)
  | lastComment body hb =>
    intro tokens buffer n ts h
    rw [tokenizeFrom_lastComment _ _ _ hb] at h
    cases h
    exact GoesOn.flush tokens buffer n
  | string body s hb ih =>
    intro tokens buffer n ts h
    rw [tokenizeFrom_string _ _ _ _ hb] at h
    exact (GoesOn.flush tokens _ n).trans (Nat.le_refl n) (ih h)
  | brokenString body s hb =>
    intro tokens buffer n ts h
    rw [tokenizeFrom_brokenString _ _ _ _ hb] at h
    cases h
  | lastString body hb =>
    intro tokens buffer n ts h
    rw [tokenizeFrom_lastString _ _ _ hb] at h
    cases h
    exact GoesOn.flush tokens _ n

/-- **A comment behind an open token moves it to the next line.** -/
theorem comment_moves {tokens ts : List Token} {buffer : List Char} {n : Nat} {s w : List Char}
    (hb : buffer ≠ []) (h : tokenizeFrom tokens buffer (n + 1) s = .ok ts) :
    tokenizeFrom tokens buffer n ('\n' :: w) ≠ .ok ts := by
  intro hw
  obtain ⟨ts₁, rfl, hlines⟩ := tokenizeFrom_goesOn s h
  rw [tokenizeFrom_blank _ _ _ _ (.inr (.inr (.inr rfl))), flushBuffer, if_neg hb] at hw
  obtain ⟨ts₂, heq, -⟩ := tokenizeFrom_goesOn w hw
  rw [List.append_assoc, List.append_cancel_left_eq] at heq
  have hline := hlines ⟨buffer, n, 0⟩ (by rw [heq]; exact List.mem_cons_self)
  exact absurd hline (by simp)

theorem tokenizeFrom_withoutComments (text : List Char) :
    ∀ {tokens buffer n ts p}, (IsPlain p ↔ buffer ≠ []) →
      tokenizeFrom tokens buffer n text = .ok ts →
        (tokenizeFrom tokens buffer n (withoutComments .code text) = .ok ts ↔
          Apart .code p text) := by
  have hblank : ∀ {c : Char}, IsBlank c → (IsPlain c ↔ ([] : List Char) ≠ []) := fun hc =>
    iff_of_false (fun h => h.1 hc) fun h => h rfl
  induction text using textInduction with
  | nil =>
    intro tokens buffer n ts p hp h
    exact iff_of_true h trivial
  | plain c s hc ih =>
    intro tokens buffer n ts p hp h
    have hnext := next_code hc.2.1 hc.2.2.1
    rw [tokenizeFrom_plain _ _ _ _ hc] at h
    rw [withoutComments_code hnext, tokenizeFrom_plain _ _ _ _ hc, apart_code hnext]
    exact ih (iff_of_true hc (by simp)) h
  | blank c s hc ih =>
    intro tokens buffer n ts p hp h
    rw [tokenizeFrom_blank _ _ _ _ hc] at h
    rw [withoutComments_code hc.next, tokenizeFrom_blank _ _ _ _ hc, apart_code hc.next]
    exact ih (hblank hc) h
  | colon s ih =>
    intro tokens buffer n ts p hp h
    rw [tokenizeFrom_colon] at h
    rw [withoutComments_code rfl, tokenizeFrom_colon, apart_code rfl]
    exact ih (by decide) h
  | comment body s hb ih =>
    intro tokens buffer n ts p hp h
    rw [tokenizeFrom_comment _ _ _ _ hb] at h
    have hdelete : withoutComments .code (';' :: body ++ '\n' :: s) =
        '\n' :: withoutComments .code s := withoutComments_stays (stays_comment hb) ('\n' :: s)
    have happart : Apart .code p (';' :: body ++ '\n' :: s) ↔ ¬ IsPlain p ∧ Apart .code '\n' s := by
      rw [List.cons_append, Apart, show Mode.next .code ';' = .comment from rfl,
        apart_behind (stays_comment hb) (by decide)]
      simp [Mode.next]
    rw [hdelete, happart, hp, not_not]
    by_cases hbuffer : buffer = []
    · subst hbuffer
      rw [tokenizeFrom_blank _ _ _ _ (.inr (.inr (.inr rfl)))]
      exact (ih (hblank (.inr (.inr (.inr rfl)))) h).trans (and_iff_right rfl).symm
    · exact iff_of_false (comment_moves hbuffer h) fun h => hbuffer h.1
  | lastComment body hb =>
    intro tokens buffer n ts p hp h
    rw [tokenizeFrom_lastComment _ _ _ hb] at h
    have hdelete : withoutComments .code (';' :: body) = [] := by
      have hbody := withoutComments_stays (stays_comment hb) []
      rwa [List.append_nil] at hbody
    rw [hdelete, tokenizeFrom_nil]
    exact iff_of_true h ⟨fun _ _ _ => hb, apart_stays (stays_comment hb) (by decide) ';'⟩
  | string body s hb ih =>
    intro tokens buffer n ts p hp h
    rw [tokenizeFrom_string _ _ _ _ hb] at h
    have hdelete : withoutComments .code ('"' :: body ++ '"' :: s) =
        '"' :: body ++ '"' :: withoutComments .code s :=
      congrArg ('"' :: ·) (withoutComments_stays (stays_string hb) ('"' :: s))
    have happart : Apart .code p ('"' :: body ++ '"' :: s) ↔ Apart .code '"' s := by
      rw [List.cons_append, Apart, show Mode.next .code '"' = .string from rfl,
        apart_behind (stays_string hb) (by decide)]
      exact and_iff_right fun _ hc => absurd hc (by decide)
    rw [hdelete, tokenizeFrom_string _ _ _ _ hb, happart]
    exact ih (by decide) h
  | brokenString body s hb =>
    intro tokens buffer n ts p hp h
    rw [tokenizeFrom_brokenString _ _ _ _ hb] at h
    cases h
  | lastString body hb =>
    intro tokens buffer n ts p hp h
    have hdelete : withoutComments .code ('"' :: body) = '"' :: body := by
      have hbody := withoutComments_stays (stays_string hb) []
      rw [List.append_nil] at hbody
      exact congrArg ('"' :: ·) (hbody.trans (List.append_nil body))
    rw [hdelete]
    exact iff_of_true h
      ⟨fun _ hc => absurd hc (by decide), apart_stays (stays_string hb) (by decide) '"'⟩

/-- **Deleting the comments keeps the tokens exactly when none that ends with a newline
begins behind a character of a token.** -/
theorem transparent_iff {text : List Char} {tokens : List Token} (h : tokenize text = .ok tokens) :
    tokenize (withoutComments .code text) = .ok tokens ↔ Apart .code '\n' text :=
  tokenizeFrom_withoutComments text (by decide) h

/-- A comment behind a blank, and one that a token touches at the end of the text. -/
theorem transparent_iff_blank :
    tokenize (withoutComments .code "ADD R1, R2, R3 ; sum\nHALT;".toList) =
        .ok [⟨"ADD".toList, 1, 0⟩, ⟨"R1".toList, 1, 0⟩, ⟨"R2".toList, 1, 0⟩, ⟨"R3".toList, 1, 0⟩,
          ⟨"HALT".toList, 2, 0⟩] ↔
      Apart .code '\n' "ADD R1, R2, R3 ; sum\nHALT;".toList :=
  transparent_iff (by decide +kernel)

/-- Behind the comment of `R3;sum` the next line goes on with the register. -/
theorem not_transparent :
    ¬ ∀ text tokens, tokenize text = .ok tokens →
      tokenize (withoutComments .code text) = .ok tokens := by
  intro h
  have htokens : tokenize "ADD R1, R2, R3;sum\nHALT\n".toList = .ok
      [⟨"ADD".toList, 1, 0⟩, ⟨"R1".toList, 1, 0⟩, ⟨"R2".toList, 1, 0⟩,
        ⟨"R3HALT".toList, 2, 0⟩] := by
    decide +kernel
  have hsame := h _ _ htokens
  revert hsame
  decide +kernel

end Tvm
