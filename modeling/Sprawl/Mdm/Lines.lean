import Sprawl.Mdm.Scan

/-!
# Line numbers (`Lexer::Process`, `mdm/lexer.cc`)

`Laid` lays tokens out in a text: each at its position, with white space between them.
`Numbered` does the same and counts lines on the way; the turns of `Process` follow its
rules (`process_numbered`), and what it says of every token is proved from the rules alone:

* a token that is no newline has the number of newlines in front of it
  (`Numbered.lineNumber`),
* the newline tokens have the numbers 1, 2, 3, ... and stand where the newlines of the
  text are (`Numbered.newlines`, `Numbered.newline_iff`).
-/

namespace Mdm

open Cxx Loop

/-- A token and the position of its first character. -/
abbrev Placed := Nat × Token

def Token.isNewline (t : Token) : Bool := t.type = .kNewline

/-! ## Tokens in a text -/

/-- How `token` may stand in front of `s`.  Two backticks give one, and at the end of the
text one or two are taken for three. -/
def Written (token w s : List Char) : Prop :=
  w = token ∨ (token = [tick] ∧ w = [tick, tick]) ∨ (s = [] ∧ w <+: token)

/-- From position `p` on the text consists of these tokens, with white space between them. -/
inductive Laid : Nat → List Char → List Placed → Prop
  | nil {p : Nat} : Laid p [] []
  | blank {p : Nat} {c : Char} {s : List Char} {ts : List Placed} :
      isWhitespace c = true → Laid (p + 1) s ts → Laid p (c :: s) ts
  | token {p : Nat} {t : Token} {w s : List Char} {ts : List Placed} :
      w ≠ [] → Written t.token w s → Laid (p + w.length) s ts → Laid p (w ++ s) ((p, t) :: ts)

/-- `Laid`, on the line `line`. -/
inductive Numbered : Nat → Nat → List Char → List Placed → Prop
  | nil {line p : Nat} : Numbered line p [] []
  | blank {line p : Nat} {c : Char} {s : List Char} {ts : List Placed} :
      isWhitespace c = true → Numbered line (p + 1) s ts → Numbered line p (c :: s) ts
  | newline {line p : Nat} {t : Token} {s : List Char} {ts : List Placed} :
      t.type = .kNewline → t.token = ['\n'] → t.lineNumber = line + 1 →
      Numbered (line + 1) (p + 1) s ts → Numbered line p ('\n' :: s) ((p, t) :: ts)
  | token {line p : Nat} {t : Token} {w s : List Char} {ts : List Placed} :
      t.type ≠ .kNewline → w ≠ [] → '\n' ∉ w → Written t.token w s → t.lineNumber = line →
      Numbered line (p + w.length) s ts → Numbered line p (w ++ s) ((p, t) :: ts)

theorem not_newline_of_blank {c : Char} (h : isWhitespace c = true) : c ≠ '\n' := by
  rintro rfl
  exact absurd h (by decide)

theorem Numbered.laid {line p : Nat} {s : List Char} {ts : List Placed} (h : Numbered line p s ts) :
    Laid p s ts := by
  induction h with
  | nil => exact .nil
  | blank hc _ ih => exact .blank hc ih
  | newline _ htoken _ _ ih => exact @Laid.token _ _ ['\n'] _ _ (by simp) (.inl htoken.symm) ih
  | token _ hw _ hwritten _ _ ih => exact .token hw hwritten ih

theorem Numbered.le {line p : Nat} {s : List Char} {ts : List Placed} (h : Numbered line p s ts)
    {e : Placed} (he : e ∈ ts) : p ≤ e.1 := by
  induction h with
  | nil => cases he
  | blank _ _ ih => exact Nat.le_of_succ_le (ih he)
  | newline _ _ _ _ ih =>
    rcases List.mem_cons.1 he with rfl | he
    · exact Nat.le_refl _
    · exact Nat.le_of_succ_le (ih he)
  | token _ _ _ _ _ _ ih =>
    rcases List.mem_cons.1 he with rfl | he
    · exact Nat.le_refl _
    · exact Nat.le_trans (Nat.le_add_right _ _) (ih he)

/-- A token that is no newline has the number of newlines in front of it. -/
theorem Numbered.lineNumber {line p : Nat} {s : List Char} {ts : List Placed}
    (h : Numbered line p s ts) {e : Placed} (he : e ∈ ts) (hne : e.2.type ≠ .kNewline) :
    e.2.lineNumber = line + (s.take (e.1 - p)).count '\n' := by
  induction h with
  | nil => cases he
  | @blank line p c s ts hc hrest ih =>
    have hle := hrest.le he
    obtain ⟨k, hk⟩ : ∃ k, e.1 - p = k + 1 := ⟨e.1 - p - 1, by omega⟩
    rw [ih he, hk, List.take_succ_cons, List.count_cons_of_ne (not_newline_of_blank hc)]
    congr 3
    omega
  | @newline line p t s ts htype _ hline hrest ih =>
    rcases List.mem_cons.1 he with rfl | he
    · exact absurd htype hne
    · have hle := hrest.le he
      obtain ⟨k, hk⟩ : ∃ k, e.1 - p = k + 1 := ⟨e.1 - p - 1, by omega⟩
      rw [ih he, hk, List.take_succ_cons, List.count_cons_self,
        show e.1 - (p + 1) = k by omega]
      omega
  | @token line p t w s ts _ _ hw _ hline hrest ih =>
    rcases List.mem_cons.1 he with rfl | he
    · simp [hline]
    · have hle := hrest.le he
      rw [ih he, List.take_append, List.count_append,
        List.take_of_length_le (show w.length ≤ e.1 - p by omega), List.count_eq_zero.2 hw,
        Nat.zero_add, Nat.sub_sub]

/-- The newline tokens are numbered in order, and there is one for every newline. -/
theorem Numbered.newlines {line p : Nat} {s : List Char} {ts : List Placed}
    (h : Numbered line p s ts) :
    ((ts.map Prod.snd).filter Token.isNewline).map Token.lineNumber =
      List.range' (line + 1) (s.count '\n') := by
  induction h with
  | nil => rfl
  | blank hc _ ih => rw [ih, List.count_cons_of_ne (not_newline_of_blank hc)]
  | @newline line p t s ts htype _ hline _ ih =>
    have hnewline : t.isNewline = true := decide_eq_true htype
    rw [List.map_cons, List.filter_cons_of_pos hnewline, List.map_cons, ih, hline,
      List.count_cons_self, List.range'_succ]
  | @token line p t w s ts htype _ hw _ _ _ ih =>
    have hother : ¬ t.isNewline = true := fun h => htype (of_decide_eq_true h)
    rw [List.map_cons, List.filter_cons_of_neg hother, ih, List.count_append,
      List.count_eq_zero.2 hw, Nat.zero_add]

theorem exists_newline_cons {e : Placed} {ts : List Placed} {q : Nat}
    (h : e.1 = q → e.2.type ≠ .kNewline) :
    (∃ t, (q, t) ∈ e :: ts ∧ t.type = .kNewline) ↔ ∃ t, (q, t) ∈ ts ∧ t.type = .kNewline := by
  constructor
  · rintro ⟨t, ht, htype⟩
    rcases List.mem_cons.1 ht with rfl | ht
    · exact absurd htype (h rfl)
    · exact ⟨t, ht, htype⟩
  · rintro ⟨t, ht, htype⟩
    exact ⟨t, List.mem_cons_of_mem _ ht, htype⟩

/-- The newline tokens stand where the newlines are. -/
theorem Numbered.newline_iff {line p : Nat} {s : List Char} {ts : List Placed}
    (h : Numbered line p s ts) (i : Nat) :
    s[i]? = some '\n' ↔ ∃ t, (p + i, t) ∈ ts ∧ t.type = .kNewline := by
  induction h generalizing i with
  | nil => simp
  | @blank line p c s ts hc hrest ih =>
    cases i with
    | zero =>
      rw [List.getElem?_cons_zero]
      constructor
      · intro heq
        exact absurd (Option.some.inj heq) (not_newline_of_blank hc)
      · rintro ⟨t, ht, -⟩
        exact absurd (hrest.le ht) (by simp)
    | succ i => rw [List.getElem?_cons_succ, ih, Nat.add_right_comm, Nat.add_assoc]
  | @newline line p t s ts htype _ _ hrest ih =>
    cases i with
    | zero => exact ⟨fun _ => ⟨t, List.mem_cons_self, htype⟩, fun _ => rfl⟩
    | succ i =>
      rw [List.getElem?_cons_succ, ih, Nat.add_right_comm, Nat.add_assoc]
      refine (exists_newline_cons ?_).symm
      intro heq
      simp at heq
  | @token line p t w s ts htype hne hw _ _ hrest ih =>
    rw [exists_newline_cons fun _ => htype]
    by_cases hi : i < w.length
    · rw [List.getElem?_append_left hi]
      constructor
      · intro hget
        exact absurd (List.mem_of_getElem? hget) hw
      · rintro ⟨u, hu, -⟩
        have hle := hrest.le hu
        simp only at hle
        omega
    · rw [List.getElem?_append_right (Nat.le_of_not_lt hi), ih]
      rw [show p + w.length + (i - w.length) = p + i by omega]

/-! ## What a turn adds -/

/-- A step that stays on its line. -/
structure Adds (s s' : State) (new : List Token) : Prop where
  linecount : s'.linecount = s.linecount
  tokens : s'.tokens = s.tokens ++ new
  onLine : ∀ t ∈ new, t.lineNumber = s.linecount ∧ t.type ≠ .kNewline

theorem Adds.same {s s' : State} (hline : s'.linecount = s.linecount)
    (htok : s'.tokens = s.tokens) :
    Adds s s' [] :=
  ⟨hline, by rw [htok, List.append_nil], fun t ht => by cases ht⟩

theorem Adds.pushed {s s' : State} {t : Token} (hline : s'.linecount = s.linecount)
    (htok : s'.tokens = s.tokens ++ [t]) (ht : t.lineNumber = s.linecount)
    (htype : t.type ≠ .kNewline) : Adds s s' [t] := by
  refine ⟨hline, htok, ?_⟩
  intro u hu
  rw [List.mem_singleton.1 hu]
  exact ⟨ht, htype⟩

theorem Adds.trans {s₁ s₂ s₃ : State} {new new' : List Token} (h : Adds s₁ s₂ new)
    (h' : Adds s₂ s₃ new') : Adds s₁ s₃ (new ++ new') := by
  refine ⟨h'.linecount.trans h.linecount, ?_, fun t ht => ?_⟩
  · rw [h'.tokens, h.tokens, List.append_assoc]
  · rcases List.mem_append.1 ht with ht | ht
    · exact h.onLine t ht
    · rw [← h.linecount]
      exact h'.onLine t ht

theorem flushWord_adds (s : State) : ∃ new, Adds s s.flushWord new := by
  unfold State.flushWord
  split
  · exact ⟨_, .pushed rfl rfl rfl (by simp)⟩
  · exact ⟨_, .same rfl rfl⟩

section
variable {text : List Char}

theorem backtick_adds {s s' : State} (h : s.backtick text = .ok s') : ∃ new, Adds s s' new := by
  unfold State.backtick at h
  dsimp only at h
  split at h
  · obtain rfl := Except.ok.inj h
    exact ⟨_, .pushed rfl rfl rfl Token.Type.noConfusion⟩
  · split at h
    · obtain ⟨p, -, hp⟩ := bind_eq_ok.1 h
      obtain rfl := Except.ok.inj hp
      exact ⟨_, .pushed rfl rfl rfl Token.Type.noConfusion⟩
    · obtain rfl := Except.ok.inj h
      exact ⟨_, .pushed rfl rfl rfl Token.Type.noConfusion⟩

theorem header_adds {s s' : State} (h : s.header text = .ok s') : ∃ new, Adds s s' new := by
  unfold State.header at h
  dsimp only at h
  split at h
  · obtain rfl := Except.ok.inj h
    exact ⟨_, .pushed rfl rfl rfl Token.Type.noConfusion⟩
  · split at h
    · obtain ⟨p, -, hp⟩ := bind_eq_ok.1 h
      obtain rfl := Except.ok.inj hp
      exact ⟨_, .pushed rfl rfl rfl Token.Type.noConfusion⟩
    · obtain rfl := Except.ok.inj h
      exact ⟨_, .pushed rfl rfl rfl Token.Type.noConfusion⟩

/-- A turn on any character but a newline. -/
theorem turn_adds {s s' : State} (h : s.turn text = .ok s') (hc : isNewline s.c = false) :
    ∃ new, Adds s s' new := by
  obtain ⟨new, hflush⟩ := flushWord_adds { s with colcount := s.colcount + 1 }
  have hstart : Adds s (State.flushWord { s with colcount := s.colcount + 1 }) new :=
    ⟨hflush.linecount, hflush.tokens, hflush.onLine⟩
  have hc₁ : (State.flushWord { s with colcount := s.colcount + 1 }).c = s.c := by
    unfold State.flushWord
    split <;> rfl
  unfold State.turn at h
  generalize State.flushWord { s with colcount := s.colcount + 1 } = s₁ at h hstart hc₁
  -- what the branch does behind the word it closes
  have hbranch : ∃ new', Adds s₁ s' new' := by
    simp only [hc₁, hc, Bool.false_eq_true, if_false] at h
    split at h
    · obtain rfl := Except.ok.inj h
      exact ⟨_, .same rfl rfl⟩
    · split at h
      · split at h
        · exact backtick_adds h
        · obtain rfl := Except.ok.inj h
          exact ⟨_, .pushed rfl rfl rfl Token.Type.noConfusion⟩
      · split at h
        · split at h
          · exact header_adds h
          · obtain rfl := Except.ok.inj h
            exact ⟨_, .pushed rfl rfl rfl Token.Type.noConfusion⟩
        · obtain rfl := Except.ok.inj h
          exact ⟨_, .same rfl rfl⟩
  obtain ⟨new', hnew'⟩ := hbranch
  exact ⟨new ++ new', hstart.trans hnew'⟩

/-- A turn on a newline: the word in front is on the old line, the newline on the new one. -/
theorem turn_newline {s s' : State} (h : s.turn text = .ok s') (hc : isNewline s.c = true) :
    s'.linecount = s.linecount + 1 ∧ ∃ (new : List Token) (t : Token),
      s'.tokens = s.tokens ++ new ++ [t] ∧
      (∀ u ∈ new, u.lineNumber = s.linecount ∧ u.type ≠ .kNewline) ∧
      t.type = .kNewline ∧ t.token = ['\n'] ∧ t.lineNumber = s.linecount + 1 := by
  obtain ⟨new, hflush⟩ := flushWord_adds { s with colcount := s.colcount + 1 }
  have hc₁ : (State.flushWord { s with colcount := s.colcount + 1 }).c = s.c := by
    unfold State.flushWord
    split <;> rfl
  have hblank : isWhitespace s.c = false := by
    rw [show s.c = '\n' from of_decide_eq_true hc]
    rfl
  unfold State.turn at h
  generalize State.flushWord { s with colcount := s.colcount + 1 } = s₁ at h hflush hc₁
  simp only [hc₁, hblank, hc, Bool.false_eq_true, if_false, if_true] at h
  obtain rfl := Except.ok.inj h
  have htokens : s₁.tokens = s.tokens ++ new := hflush.tokens
  have hline : s₁.linecount = s.linecount := hflush.linecount
  refine ⟨congrArg (· + 1) hline, new, _, congrArg (fun ts => ts ++ [_]) htokens, hflush.onLine,
    ?_, ?_, ?_⟩
  · rfl
  · rfl
  · exact congrArg (· + 1) hline

/-! ## What a turn consumes -/

theorem lookahead_cases (d : Char) (r : List Char) :
    lookahead d r = 1 ∨ (lookahead d r = 2 ∧ ∃ r', r = d :: r') ∨
      (lookahead d r = 3 ∧ ((∃ r', r = d :: d :: r') ∨ r = [d] ∨ r = [])) := by
  match r with
  | [] => exact .inr (.inr ⟨rfl, .inr (.inr rfl)⟩)
  | [x] =>
    by_cases hx : x = d
    · subst hx
      exact .inr (.inr ⟨if_pos rfl, .inr (.inl rfl)⟩)
    · exact .inl (if_neg hx)
  | x :: y :: r =>
    by_cases hx : x = d
    · subst hx
      by_cases hy : y = x
      · subst hy
        exact .inr (.inr ⟨by simp [lookahead], .inl ⟨r, rfl⟩⟩)
      · exact .inr (.inl ⟨by simp [lookahead, hy], y :: r, rfl⟩)
    · exact .inl (if_neg hx)

/-- Three of one kind, or what there is of them at the end of the text. -/
theorem three_written {d : Char} {r : List Char}
    (h : (∃ r', r = d :: d :: r') ∨ r = [d] ∨ r = []) :
    ∃ w, d :: r = w ++ r.drop 2 ∧ w ≠ [] ∧ (∀ x ∈ w, x = d) ∧ Written [d, d, d] w (r.drop 2) := by
  rcases h with ⟨r', rfl⟩ | rfl | rfl
  · exact ⟨[d, d, d], rfl, by simp, by simp, .inl rfl⟩
  · exact ⟨[d, d], rfl, by simp, by simp, .inr (.inr ⟨rfl, [d], rfl⟩)⟩
  · exact ⟨[d], rfl, by simp, by simp, .inr (.inr ⟨rfl, [d, d], rfl⟩)⟩

theorem not_mem_newline {d : Char} {w : List Char} (hd : d ≠ '\n') (h : ∀ x ∈ w, x = d) :
    '\n' ∉ w := fun hmem => hd (h _ hmem).symm

/-- The characters that a turn takes from the text, with the token it gives. -/
theorem take_consumed {c : Char} {r r' : List Char} {ls : List Lexeme}
    (h : take c r = some (ls, r')) :
    (isWhitespace c = true ∧ ls = [] ∧ r' = r) ∨
    (c = '\n' ∧ ls = [(.kNewline, ['\n'])] ∧ r' = r) ∨
    (c ≠ '\n' ∧ ∃ type token w, type ≠ .kNewline ∧ ls = [(type, token)] ∧ c :: r = w ++ r' ∧
      w ≠ [] ∧ '\n' ∉ w ∧ Written token w r') := by
  by_cases hnewline : c = '\n'
  · subst hnewline
    obtain ⟨rfl, rfl⟩ := Prod.mk.inj (Option.some.inj h)
    exact .inr (.inl ⟨rfl, rfl, rfl⟩)
  have hsingle : '\n' ∉ [c] := not_mem_newline hnewline (by simp)
  unfold take at h
  split_ifs at h with hw hn hp ht hs hh <;> cases h
  · exact .inl ⟨hw, rfl, rfl⟩
  · exact absurd (of_decide_eq_true hn) hnewline
  · subst ht
    refine .inr (.inr ⟨hnewline, ?_⟩)
    rcases lookahead_cases tick r with hl | ⟨hl, r', rfl⟩ | ⟨hl, hr⟩ <;> rw [hl]
    · exact ⟨_, _, [tick], Token.Type.noConfusion, rfl, rfl, by simp, hsingle, .inl rfl⟩
    · exact ⟨_, _, [tick, tick], Token.Type.noConfusion, rfl, rfl, by simp,
        not_mem_newline hnewline (by simp), .inr (.inl ⟨rfl, rfl⟩)⟩
    · obtain ⟨w, hsplit, hne, hw, hwritten⟩ := three_written hr
      exact ⟨_, _, w, Token.Type.noConfusion, rfl, hsplit, hne, not_mem_newline hnewline hw,
        hwritten⟩
  · exact .inr (.inr ⟨hnewline, _, _, [c], Token.Type.noConfusion, rfl, rfl, by simp, hsingle,
      .inl rfl⟩)
  · subst hh
    refine .inr (.inr ⟨hnewline, ?_⟩)
    rcases lookahead_cases '#' r with hl | ⟨hl, r', rfl⟩ | ⟨hl, hr⟩ <;> rw [hl]
    · exact ⟨_, _, ['#'], Token.Type.noConfusion, rfl, rfl, by simp, hsingle, .inl rfl⟩
    · exact ⟨_, _, ['#', '#'], Token.Type.noConfusion, rfl, rfl, by simp,
        not_mem_newline hnewline (by simp), .inl rfl⟩
    · obtain ⟨w, hsplit, hne, hw, hwritten⟩ := three_written hr
      exact ⟨_, _, w, Token.Type.noConfusion, rfl, hsplit, hne, not_mem_newline hnewline hw,
        hwritten⟩
  · exact .inr (.inr ⟨hnewline, _, _, [c], Token.Type.noConfusion, rfl, rfl, by simp, hsingle,
      .inl rfl⟩)

/-! ## The loop -/

theorem not_mem_of_isWord {ss : List Char} (h : IsWord ss) : '\n' ∉ ss := fun hmem =>
  h _ hmem (.inr (.inr (.inr rfl)))

/-- The word in front of what follows. -/
theorem Numbered.word {line q : Nat} {ss s : List Char} {new : List Token} {ts : List Placed}
    (hss : IsWord ss) (hnew : new.map Token.lexeme = flush ss)
    (hon : ∀ t ∈ new, t.lineNumber = line ∧ t.type ≠ .kNewline)
    (h : Numbered line (q + ss.length) s ts) :
    ∃ placed, placed.map Prod.snd = new ∧ Numbered line q (ss ++ s) (placed ++ ts) := by
  unfold flush at hnew
  by_cases hempty : ss = []
  · subst hempty
    rw [if_pos rfl, List.map_eq_nil_iff] at hnew
    exact ⟨[], hnew.symm, h⟩
  · rw [if_neg hempty] at hnew
    obtain ⟨t, rfl, hlexeme⟩ := List.map_eq_singleton_iff.1 hnew
    obtain ⟨hline, htype⟩ := hon t List.mem_cons_self
    have htoken : t.token = ss := congrArg Prod.snd hlexeme
    exact ⟨[(q, t)], rfl, .token htype hempty (not_mem_of_isWord hss) (.inl htoken.symm) hline h⟩

theorem last_adds {s : State} (h : IsWord s.ss) : ∃ new, s.last = s.tokens ++ new ∧
    ∀ t ∈ new, t.lineNumber = s.linecount ∧ t.type ≠ .kNewline := by
  unfold State.last
  cases hss : s.ss with
  | nil => exact ⟨[], (List.append_nil _).symm, fun t ht => by cases ht⟩
  | cons c ss =>
    have hc := h c (by rw [hss]; exact List.mem_cons_self)
    simp only [not_or, Bool.not_eq_true] at hc
    obtain ⟨hs, hp, -, hn⟩ := hc
    simp only [hp, hs, hn, Bool.false_eq_true, if_false]
    refine ⟨_, rfl, ?_⟩
    intro t ht
    rw [List.mem_singleton.1 ht]
    exact ⟨rfl, Token.Type.noConfusion⟩

/-- What a turn that ends words puts in front of what follows. -/
theorem turn_numbered {s s' : State} {r r' : List Char} {ls : List Lexeme}
    (htake : take s.c r = some (ls, r')) (hs' : s.turn text = .ok s')
    (hturn : TurnOf text s s' ls r') (hword : IsWord s.ss) (q : Nat) :
    ∃ new n, s'.tokens = s.tokens ++ new ∧ ∀ ts, Numbered s'.linecount (q + n) r' ts →
      ∃ placed, placed.map Prod.snd = new ∧
        Numbered s.linecount q (s.ss ++ s.c :: r) (placed ++ ts) := by
  have hlexemes := hturn.tokens
  rcases take_consumed htake with ⟨hblank, rfl, rfl⟩ | ⟨hc, rfl, rfl⟩ |
    ⟨hc, type, token, w, htype, rfl, hsplit, hne, hw, hwritten⟩
  · obtain ⟨new, hadds⟩ := turn_adds hs' (decide_eq_false (not_newline_of_blank hblank))
    rw [hadds.tokens, List.map_append, List.append_assoc, List.append_cancel_left_eq,
      List.append_nil] at hlexemes
    refine ⟨new, s.ss.length + 1, hadds.tokens, ?_⟩
    intro ts hts
    rw [hadds.linecount] at hts
    exact Numbered.word hword hlexemes hadds.onLine (.blank hblank hts)
  · obtain ⟨hline, new, t, htokens, hon, htype, htoken, hnumber⟩ :=
      turn_newline hs' (decide_eq_true hc)
    have hlexeme : t.lexeme = (.kNewline, ['\n']) := Prod.ext htype htoken
    rw [htokens, List.map_append, List.map_append, List.map_singleton, hlexeme,
      List.append_cancel_right_eq, List.append_cancel_left_eq] at hlexemes
    refine ⟨new ++ [t], s.ss.length + 1, by rw [htokens, List.append_assoc], ?_⟩
    intro ts hts
    rw [hline] at hts
    obtain ⟨placed, rfl, hplaced⟩ :=
      Numbered.word hword hlexemes hon (.newline htype htoken hnumber hts)
    refine ⟨placed ++ [(q + s.ss.length, t)], by rw [List.map_append]; rfl, ?_⟩
    rw [hc, List.append_assoc]
    exact hplaced
  · obtain ⟨new, hadds⟩ := turn_adds hs' (decide_eq_false hc)
    rw [hadds.tokens, List.map_append, List.append_assoc, List.append_cancel_left_eq] at hlexemes
    obtain ⟨new₁, new₂, rfl, hnew₁, hnew₂⟩ := List.map_eq_append_iff.1 hlexemes
    obtain ⟨t, rfl, hlexeme⟩ := List.map_eq_singleton_iff.1 hnew₂
    have htoken : t.token = token := congrArg Prod.snd hlexeme
    have htype' : t.type = type := congrArg Prod.fst hlexeme
    obtain ⟨hnumber, -⟩ := hadds.onLine t (by simp)
    refine ⟨new₁ ++ [t], s.ss.length + w.length, hadds.tokens, ?_⟩
    intro ts hts
    rw [hadds.linecount, ← Nat.add_assoc] at hts
    have hfront : Numbered s.linecount (q + s.ss.length) (w ++ r') ((q + s.ss.length, t) :: ts) :=
      .token (by rw [htype']; exact htype) hne hw (by rw [htoken]; exact hwritten) hnumber hts
    obtain ⟨placed, rfl, hplaced⟩ := Numbered.word hword hnew₁
      (fun u hu => hadds.onLine u (List.mem_append_left _ hu)) hfront
    refine ⟨placed ++ [(q + s.ss.length, t)], by rw [List.map_append]; rfl, ?_⟩
    rw [hsplit, List.append_assoc]
    exact hplaced

/-- From every state on the way, with the open word at `q`, `Process` numbers the rest. -/
theorem process_numbered_from {s : State} {rest : List Char} (q : Nat)
    (hstands : Stands text s.input rest) (hword : IsWord s.ss) (hnear : Near text.length rest) :
    ∃ placed : List Placed,
      Returns (processBody text) s (.ok (s.tokens ++ placed.map Prod.snd)) ∧
        Numbered s.linecount q (s.ss ++ rest) placed := by
  induction hlen : rest.length using Nat.strongRecOn generalizing s rest q with
  | ind k ih =>
    cases rest with
    | nil =>
      obtain ⟨new, hlast, hon⟩ := last_adds hword
      have hlexemes := last_lexemes hword
      rw [hlast, List.map_append, List.append_cancel_left_eq] at hlexemes
      obtain ⟨placed, rfl, hplaced⟩ :=
        @Numbered.word s.linecount q _ [] _ [] hword hlexemes hon .nil
      rw [List.append_nil placed] at hplaced
      exact ⟨placed, returns_of_done (by rw [body_nil hstands, hlast]), hplaced⟩
    | cons c r =>
      obtain ⟨t, rfl, htss, httok, htline, htgood, hle, hdrop, hpos, hbody⟩ := body_cons hstands
      rw [List.length_cons] at hlen
      cases htake : take t.c r with
      | none =>
        obtain ⟨s', hs', hss', htok', hin', hnot⟩ := @turn_word text t r htake
        obtain ⟨new, hadds⟩ :=
          turn_adds hs' (by simpa using (not_or.1 (not_or.1 (not_or.1 hnot).2).2).2)
        have hstands' : Stands text s'.input r := by
          rw [hin']
          exact stands_good htgood hle hdrop
        have hword' : IsWord s'.ss := by
          rw [hss', htss]
          intro d hd
          rcases List.mem_append.1 hd with hd | hd
          · exact hword d hd
          · rw [List.mem_singleton.1 hd]
            exact hnot
        obtain ⟨placed, hret, hplaced⟩ := ih r.length (by omega) q hstands' hword'
          (near_word htake hnear) rfl
        rw [htok', httok] at hret
        rw [hadds.linecount, htline, hss', htss, List.append_assoc] at hplaced
        exact ⟨placed, (returns_again_iff (hbody s' hs')).2 hret, hplaced⟩
      | some p =>
        obtain ⟨ls, r'⟩ := p
        obtain ⟨hfar, hnear'⟩ := near_take htake hnear
        obtain ⟨s', hs', hturn⟩ := @turn_take text t r r' ls htgood hle hdrop htake
          (by rw [hpos]; exact hfar)
        have hlt : r'.length < k := by
          have h := take_length htake
          omega
        obtain ⟨new, n, htokens, hfront⟩ := turn_numbered htake hs' hturn (htss ▸ hword) q
        obtain ⟨placed, hret, hplaced⟩ := ih r'.length hlt (q + n) hturn.input
          (by rw [hturn.ss]; simp [IsWord]) hnear' rfl
        rw [hturn.ss, List.nil_append] at hplaced
        obtain ⟨placed', rfl, hall⟩ := hfront placed hplaced
        refine ⟨placed' ++ placed, (returns_again_iff (hbody s' hs')).2 ?_, ?_⟩
        · rw [List.map_append, ← List.append_assoc, ← httok, ← htokens]
          exact hret
        · rw [← htline, ← htss]
          exact hall

end

/-- The tokens of `Process`, placed and numbered. -/
theorem process_numbered {text : List Char} (h : Near text.length text) :
    ∃ placed : List Placed, Process text (.ok (placed.map Prod.snd)) ∧ Numbered 0 0 text placed :=
  @process_numbered_from text {} text 0 (stands_good rfl (Nat.zero_le _) rfl) (by simp [IsWord]) h

/-- **Every token has the number of its line.** -/
theorem process_lineNumber {text : List Char} (h : text.length < 2 ^ 31) :
    ∃ placed : List Placed, Process text (.ok (placed.map Prod.snd)) ∧ Laid 0 text placed ∧
      (∀ e ∈ placed, e.2.type ≠ .kNewline → e.2.lineNumber = (text.take e.1).count '\n') ∧
      ((placed.map Prod.snd).filter Token.isNewline).map Token.lineNumber =
        List.range' 1 (text.count '\n') ∧
      ∀ i : Nat, text[i]? = some '\n' ↔ ∃ t, (i, t) ∈ placed ∧ t.type = .kNewline := by
  obtain ⟨placed, hprocess, hnumbered⟩ := process_numbered (near_of_length h (Nat.le_refl _))
  refine ⟨placed, hprocess, hnumbered.laid, fun e he htype => ?_, hnumbered.newlines, fun i => ?_⟩
  · have hline := hnumbered.lineNumber he htype
    rwa [Nat.zero_add, Nat.sub_zero] at hline
  · have hiff := hnumbered.newline_iff i
    rwa [Nat.zero_add] at hiff

theorem process_lineNumber_header :
    ∃ placed : List Placed, Process "## a\n`` b\n".toList (.ok (placed.map Prod.snd)) ∧
      Laid 0 "## a\n`` b\n".toList placed ∧
      (∀ e ∈ placed, e.2.type ≠ .kNewline →
        e.2.lineNumber = ("## a\n`` b\n".toList.take e.1).count '\n') ∧
      ((placed.map Prod.snd).filter Token.isNewline).map Token.lineNumber =
        List.range' 1 ("## a\n`` b\n".toList.count '\n') ∧
      ∀ i : Nat, "## a\n`` b\n".toList[i]? = some '\n' ↔
        ∃ t, (i, t) ∈ placed ∧ t.type = .kNewline :=
  process_lineNumber (by decide)

end Mdm
