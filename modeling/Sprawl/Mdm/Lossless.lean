import Sprawl.Lib.Runs
import Sprawl.Mdm.Scan

/-!
# What the lexer loses

The texts of the tokens, one behind the other, are the text without its blanks up to
two things `Process` does with runs of backticks and of `#`.  A run of two backticks
(or five, eight, ...) with something behind it is read as one backtick less, because
the stream is put back in front of the third character and not of the second.  A run
at the end of the text is rounded up to a multiple of three, because there `get` leaves
its argument alone.

`scan_text` says this run by run, and `lossless_iff` when the two cancel: only if
nothing is lost and nothing rounded up, or as many backticks are added at the end as
were lost before, with nothing but backticks and blanks in between.
-/

namespace Mdm

open Cxx Loop Runs

/-! ## One run at a time -/

/-- How long the run of `n` characters `c` is in the tokens. -/
def kept (c : Char) (n : Nat) (last : Bool) : Nat :=
  if isWhitespace c then 0
  else if c = tick ∨ c = '#' then
    if last then n + (3 - n % 3) % 3
    else if c = tick ∧ n % 3 = 2 then n - 1
    else n
  else n

/-- The tokens of a text, given by its runs, one behind the other. -/
def keptText : List (Char × Nat) → List Char
  | [] => []
  | (c, n) :: rs => List.replicate (kept c n rs.isEmpty) c ++ keptText rs

/-- The text without its blanks, given by its runs. -/
def visibleText : List (Char × Nat) → List Char
  | [] => []
  | (c, n) :: rs => List.replicate (if isWhitespace c then 0 else n) c ++ visibleText rs

/-- A run of backticks that loses one. -/
def Loses (c : Char) (n : Nat) (rs : List (Char × Nat)) : Prop :=
  c = tick ∧ n % 3 = 2 ∧ rs ≠ []

instance (c : Char) (n : Nat) (rs : List (Char × Nat)) : Decidable (Loses c n rs) :=
  inferInstanceAs (Decidable (_ ∧ _ ∧ _))

/-- How many backticks are lost. -/
def losses : List (Char × Nat) → Nat
  | [] => 0
  | (c, n) :: rs => (if Loses c n rs then 1 else 0) + losses rs

/-- How many characters are added at the end. -/
def tailGain : List (Char × Nat) → Nat
  | [] => 0
  | [(c, n)] => if c = tick ∨ c = '#' then (3 - n % 3) % 3 else 0
  | _ :: rs => tailGain rs

/-- Backticks and blanks only. -/
def OnlyTicks (rs : List (Char × Nat)) : Prop := ∀ r ∈ rs, r.1 = tick ∨ isWhitespace r.1

/-- Behind a run that loses a backtick there are backticks and blanks only. -/
def TicksAfterLoss : List (Char × Nat) → Prop
  | [] => True
  | (c, n) :: rs => (Loses c n rs → OnlyTicks rs) ∧ TicksAfterLoss rs

/-- Where `Process` puts the stream back through an `int`, in front of `pos` and more
characters, the position fits. -/
def NoFarSeek (pos : Nat) : List (Char × Nat) → Prop
  | [] => True
  | (c, n) :: rs =>
    ((c = tick ∨ c = '#') → n % 3 = 2 → rs ≠ [] → pos + n < 2 ^ 31) ∧ NoFarSeek (pos + n) rs

/-! ## The texts of the tokens -/

/-- The tokens of a text one behind the other. -/
abbrev scanText (rest : List Char) : List Char := (scan [] rest).flatMap Prod.snd

theorem flush_text (ss : List Char) : (flush ss).flatMap Prod.snd = ss := by
  unfold flush
  by_cases h : ss = []
  · simp [h]
  · simp [h]

theorem scan_open (ss rest : List Char) :
    (scan ss rest).flatMap Prod.snd = ss ++ scanText rest := by
  induction rest generalizing ss with
  | nil => simp [scanText, scan_nil, flush_text]
  | cons c r ih =>
    cases htake : take c r with
    | none =>
      rw [scanText, scan_word htake, scan_word htake, ih, ih]
      simp only [List.append_assoc, List.nil_append]
    | some p =>
      rw [scanText, scan_take htake, scan_take htake]
      simp only [List.flatMap_append, flush_text, List.append_assoc, List.nil_append]

theorem scanText_take {c : Char} {r r' : List Char} {ls : List Lexeme}
    (h : take c r = some (ls, r')) :
    scanText (c :: r) = ls.flatMap Prod.snd ++ scanText r' := by
  rw [scanText, scan_take h]
  simp only [List.flatMap_append, flush_text, List.nil_append]

/-- A character other than a backtick or `#`. -/
theorem scanText_plain {c : Char} (ht : c ≠ tick) (hh : c ≠ '#') (r : List Char) :
    scanText (c :: r) = (if isWhitespace c then [] else [c]) ++ scanText r := by
  cases htake : take c r with
  | none =>
    have hword := isWordChar_of_take htake
    have hw : ¬ isWhitespace c := fun hw => hword (.inr (.inr (.inl hw)))
    rw [scanText, scan_word htake, scan_open, if_neg hw]
    rfl
  | some p =>
    obtain ⟨ls, r'⟩ := p
    rw [scanText_take htake]
    unfold take at htake
    split_ifs at htake with hw hn hp hs <;> cases htake
    · rw [if_pos hw]
      rfl
    · have hc : c = '\n' := by simpa [isNewline] using hn
      rw [if_neg hw, hc]
      rfl
    · rw [if_neg hw]
      rfl
    · rw [if_neg hw]
      rfl

/-- How many characters the token at a `d` has, when the lexer sees `k` of them. -/
def markLength (d : Char) (k : Nat) : Nat := if k = 3 then 3 else if k = 2 ∧ d = '#' then 2 else 1

theorem take_mark {d : Char} (hd : d = tick ∨ d = '#') (r : List Char) :
    ∃ l : Lexeme, take d r = some ([l], r.drop (lookahead d r - 1)) ∧
      l.2 = List.replicate (markLength d (lookahead d r)) d := by
  rcases hd with rfl | rfl
  · refine ⟨tickLexeme (lookahead tick r), rfl, ?_⟩
    unfold tickLexeme markLength
    by_cases h3 : lookahead tick r = 3
    · rw [if_pos h3, if_pos h3]
      rfl
    · rw [if_neg h3, if_neg h3, if_neg fun h => absurd h.2 (by decide)]
      rfl
  · refine ⟨headerLexeme (lookahead '#' r), rfl, ?_⟩
    unfold headerLexeme markLength
    by_cases h3 : lookahead '#' r = 3
    · rw [if_pos h3, if_pos h3]
      rfl
    · by_cases h2 : lookahead '#' r = 2
      · rw [if_neg h3, if_pos h2, if_neg h3, if_pos ⟨h2, rfl⟩]
        rfl
      · rw [if_neg h3, if_neg h2, if_neg h3, if_neg (fun h => h2 h.1)]
        rfl

theorem scanText_mark {d : Char} (hd : d = tick ∨ d = '#') (r : List Char) :
    scanText (d :: r) = List.replicate (markLength d (lookahead d r)) d ++
      scanText (r.drop (lookahead d r - 1)) := by
  obtain ⟨l, htake, hl⟩ := take_mark hd r
  rw [scanText_take htake, ← hl]
  simp

theorem kept_add_three {d : Char} (hd : d = tick ∨ d = '#') (n : Nat) (last : Bool) :
    kept d (n + 3) last = 3 + kept d n last := by
  have hw : ¬ isWhitespace d := by rcases hd with rfl | rfl <;> decide
  unfold kept
  rw [if_neg hw, if_neg hw, if_pos hd, if_pos hd, Nat.add_mod_right]
  split_ifs <;> omega

/-- A run of backticks or of `#`. -/
theorem scanText_marks {d : Char} (hd : d = tick ∨ d = '#') (n : Nat) {ys : List Char}
    (hys : ys.head? ≠ some d) :
    scanText (List.replicate n d ++ ys) =
      List.replicate (kept d n ys.isEmpty) d ++ scanText ys := by
  -- three are a token wherever they stand; one or two are left in front of `ys`
  induction n using Nat.strongRecOn with
  | ind n ih =>
    match n with
    | 0 => rcases hd with rfl | rfl <;> cases ys <;> rfl
    | 1 =>
      rw [List.replicate_one, List.singleton_append, scanText_mark hd]
      cases ys with
      | nil => rcases hd with rfl | rfl <;> rfl
      | cons y ys =>
        have hy : y ≠ d := fun h => hys (by rw [h]; rfl)
        have hlook : lookahead d (y :: ys) = 1 := by cases ys <;> simp [lookahead, hy]
        rw [hlook]
        rcases hd with rfl | rfl <;> rfl
    | 2 =>
      show scanText (d :: d :: ys) = _
      rw [scanText_mark hd]
      cases ys with
      | nil => rcases hd with rfl | rfl <;> rfl
      | cons y ys =>
        have hy : y ≠ d := fun h => hys (by rw [h]; rfl)
        have hlook : lookahead d (d :: y :: ys) = 2 := by simp [lookahead, hy]
        rw [hlook]
        rcases hd with rfl | rfl <;> rfl
    | n + 3 =>
      show scanText (d :: d :: d :: (List.replicate n d ++ ys)) = _
      have hlook : lookahead d (d :: d :: (List.replicate n d ++ ys)) = 3 := by simp [lookahead]
      rw [scanText_mark hd, hlook, kept_add_three hd, List.replicate_add, List.append_assoc]
      show _ ++ scanText (List.replicate n d ++ ys) = _
      rw [ih n (by omega)]
      rfl

theorem scanText_run {c : Char} (n : Nat) {ys : List Char} (hys : ys.head? ≠ some c) :
    scanText (List.replicate n c ++ ys) =
      List.replicate (kept c n ys.isEmpty) c ++ scanText ys := by
  by_cases hc : c = tick ∨ c = '#'
  · exact scanText_marks hc n hys
  · have hkept : ∀ m, kept c m ys.isEmpty = if isWhitespace c then 0 else m := by
      intro m
      rw [kept, if_neg hc]
    rw [not_or] at hc
    obtain ⟨ht, hh⟩ := hc
    induction n with
    | zero => rw [hkept]; simp
    | succ n ih =>
      rw [List.replicate_succ, List.cons_append, scanText_plain ht hh, ih, hkept, hkept]
      by_cases hw : isWhitespace c
      · simp [hw]
      · simp [hw, List.replicate_succ]

/-- **The tokens of a text, run by run.** -/
theorem scan_text (text : List Char) : scanText text = keptText (runs text) := by
  induction text using run_induction with
  | nil => rw [scanText, scan_nil]; rfl
  | run c n ys hn hys ih =>
    have hempty : (runs ys).isEmpty = ys.isEmpty := by
      rw [Bool.eq_iff_iff, List.isEmpty_iff, List.isEmpty_iff, runs_eq_nil]
    rw [scanText_run n hys, runs_replicate_append hn hys, keptText, ih, hempty]

theorem filter_text (text : List Char) :
    text.filter (fun c => !isWhitespace c) = visibleText (runs text) := by
  induction text using run_induction with
  | nil => rfl
  | run c n ys hn hys ih =>
    rw [runs_replicate_append hn hys, visibleText, List.filter_append, ih]
    by_cases hw : isWhitespace c
    · simp [hw]
    · simp [hw]

/-! ## When it is the text -/

theorem not_blank_of_mark {c : Char} (hc : c = tick ∨ c = '#') : ¬ isWhitespace c := by
  rcases hc with rfl | rfl <;> decide

theorem kept_last {c : Char} (hc : c = tick ∨ c = '#') (n : Nat) :
    kept c n true = n + (3 - n % 3) % 3 := by
  rw [kept, if_neg (not_blank_of_mark hc), if_pos hc, if_pos rfl]

theorem kept_loses {c : Char} {n : Nat} {rs : List (Char × Nat)} (h : Loses c n rs) :
    kept c n rs.isEmpty = n - 1 := by
  obtain ⟨rfl, hn, hrs⟩ := h
  rw [kept, if_neg (not_blank_of_mark (.inl rfl)), if_pos (.inl rfl),
    if_neg (by simpa using hrs), if_pos ⟨rfl, hn⟩]

/-- Every other run is kept as it is. -/
theorem kept_same {c : Char} {n : Nat} {rs : List (Char × Nat)} (hw : ¬ isWhitespace c)
    (hl : ¬ Loses c n rs) (hrs : (c = tick ∨ c = '#') → rs ≠ []) : kept c n rs.isEmpty = n := by
  rw [kept, if_neg hw]
  by_cases hc : c = tick ∨ c = '#'
  · rw [if_pos hc, if_neg (by simpa using hrs hc), if_neg fun h => hl ⟨h.1, h.2, hrs hc⟩]
  · rw [if_neg hc]

theorem le_kept {c : Char} {n : Nat} {rs : List (Char × Nat)} (hw : ¬ isWhitespace c)
    (hl : ¬ Loses c n rs) : n ≤ kept c n rs.isEmpty := by
  by_cases hrs : (c = tick ∨ c = '#') → rs ≠ []
  · exact Nat.le_of_eq (kept_same hw hl hrs).symm
  · rw [Classical.not_imp, not_not] at hrs
    obtain ⟨hc, rfl⟩ := hrs
    show n ≤ kept c n true
    rw [kept_last hc]
    omega

theorem tailGain_cons (r : Char × Nat) {rs : List (Char × Nat)} (h : rs ≠ []) :
    tailGain (r :: rs) = tailGain rs := by
  cases rs with
  | nil => exact absurd rfl h
  | cons _ _ => rfl

theorem tailGain_plain {c : Char} (hc : ¬ (c = tick ∨ c = '#')) (n : Nat)
    (rs : List (Char × Nat)) : tailGain ((c, n) :: rs) = tailGain rs := by
  cases rs with
  | nil => exact if_neg hc
  | cons _ _ => rfl

/-- Only a last run of backticks or `#` gains. -/
theorem tailGain_not_last {c : Char} (n : Nat) {rs : List (Char × Nat)}
    (h : (c = tick ∨ c = '#') → rs ≠ []) : tailGain ((c, n) :: rs) = tailGain rs := by
  by_cases hrs : rs = []
  · exact tailGain_plain (fun hc => h hc hrs) n rs
  · exact tailGain_cons _ hrs

theorem onlyTicks_cons {c : Char} {n : Nat} {rs : List (Char × Nat)} :
    OnlyTicks ((c, n) :: rs) ↔ (c = tick ∨ isWhitespace c) ∧ OnlyTicks rs :=
  List.forall_mem_cons

/-- The backticks that are owed do not start another run. -/
theorem replicate_append_ne {c : Char} (hc : c ≠ tick) {m k : Nat} (hm : 0 < m) (hk : 0 < k)
    (xs ys : List Char) : List.replicate m c ++ xs ≠ List.replicate k tick ++ ys := by
  obtain ⟨m, rfl⟩ : ∃ i, m = i + 1 := ⟨m - 1, by omega⟩
  obtain ⟨k, rfl⟩ : ∃ i, k = i + 1 := ⟨k - 1, by omega⟩
  intro h
  rw [List.replicate_succ, List.replicate_succ] at h
  exact hc (List.cons.inj h).1

/-- With `k` backticks owed in front of `rs`, nothing is lost and nothing invented. -/
def Balanced (rs : List (Char × Nat)) (k : Nat) : Prop :=
  losses rs + k = tailGain rs ∧ (0 < k → OnlyTicks rs) ∧ TicksAfterLoss rs

theorem balanced_blank {c : Char} (hw : isWhitespace c = true) (n : Nat)
    (rs : List (Char × Nat)) (k : Nat) : Balanced ((c, n) :: rs) k ↔ Balanced rs k := by
  have hmark : ¬ (c = tick ∨ c = '#') := fun hc => not_blank_of_mark hc hw
  have hl : ¬ Loses c n rs := fun h => hmark (.inl h.1)
  unfold Balanced
  rw [losses, if_neg hl, Nat.zero_add, tailGain_plain hmark, onlyTicks_cons, TicksAfterLoss]
  simp [hw, hl]

theorem balanced_loses {c : Char} {n : Nat} {rs : List (Char × Nat)} (hl : Loses c n rs)
    (k : Nat) : Balanced ((c, n) :: rs) k ↔ Balanced rs (k + 1) := by
  unfold Balanced
  rw [losses, if_pos hl, tailGain_cons _ hl.2.2, onlyTicks_cons, TicksAfterLoss]
  have hsum : 1 + losses rs + k = losses rs + (k + 1) := by omega
  rw [hsum]
  constructor
  · rintro ⟨heq, -, honly, hafter⟩
    exact ⟨heq, fun _ => honly hl, hafter⟩
  · rintro ⟨heq, honly, hafter⟩
    have h := honly (Nat.succ_pos k)
    exact ⟨heq, fun _ => ⟨.inl hl.1, h⟩, fun _ => h, hafter⟩

theorem balanced_tick {n : Nat} {rs : List (Char × Nat)} (hrs : rs ≠ [])
    (hl : ¬ Loses tick n rs) (k : Nat) : Balanced ((tick, n) :: rs) k ↔ Balanced rs k := by
  unfold Balanced
  rw [losses, if_neg hl, Nat.zero_add, tailGain_cons _ hrs, onlyTicks_cons, TicksAfterLoss]
  simp [hl]

theorem balanced_lastTick (n k : Nat) :
    Balanced [(tick, n)] k ↔ k = (3 - n % 3) % 3 := by
  have hl : ¬ Loses tick n [] := fun h => h.2.2 rfl
  have hgain : tailGain [(tick, n)] = (3 - n % 3) % 3 := if_pos (.inl rfl)
  unfold Balanced
  rw [losses, if_neg hl, hgain, onlyTicks_cons, TicksAfterLoss]
  simp [losses, OnlyTicks, TicksAfterLoss, hl]

theorem balanced_other {c : Char} (ht : c ≠ tick) (hw : ¬ isWhitespace c) (n : Nat)
    (rs : List (Char × Nat)) (k : Nat) : Balanced ((c, n) :: rs) k ↔
      k = 0 ∧ losses rs = tailGain ((c, n) :: rs) ∧ TicksAfterLoss rs := by
  have hl : ¬ Loses c n rs := fun h => ht h.1
  unfold Balanced
  rw [losses, if_neg hl, Nat.zero_add, onlyTicks_cons, TicksAfterLoss]
  constructor
  · rintro ⟨heq, honly, -, hafter⟩
    have hk : k = 0 := by
      by_contra hk
      rcases (honly (Nat.pos_of_ne_zero hk)).1 with h | h
      · exact ht h
      · exact hw h
    subst hk
    exact ⟨rfl, heq, hafter⟩
  · rintro ⟨rfl, heq, hafter⟩
    exact ⟨heq, fun h => absurd h (Nat.lt_irrefl 0), fun h => absurd h hl, hafter⟩

/-- The tokens of `rs` spell `k` backticks and the visible text exactly if they make up for
these `k` and for what is lost on the way. -/
theorem keptText_eq_iff {rs : List (Char × Nat)} (hpos : ∀ r ∈ rs, 0 < r.2) (k : Nat) :
    keptText rs = List.replicate k tick ++ visibleText rs ↔ Balanced rs k := by
  -- the runs are compared from the front, with the backticks lost so far in `k`
  induction rs generalizing k with
  | nil =>
    unfold Balanced
    simp only [keptText, visibleText, losses, tailGain, TicksAfterLoss, List.append_nil]
    constructor
    · intro h
      have hk : k = 0 := by simpa using (congrArg List.length h).symm
      subst hk
      exact ⟨rfl, fun h => absurd h (Nat.lt_irrefl 0), trivial⟩
    · rintro ⟨hk, -⟩
      have hk : k = 0 := by omega
      subst hk
      rfl
  | cons r rs ih =>
    obtain ⟨c, n⟩ := r
    have hn : 0 < n := hpos (c, n) List.mem_cons_self
    have ih := ih fun r hr => hpos r (List.mem_cons_of_mem _ hr)
    rw [keptText, visibleText]
    by_cases hw : isWhitespace c = true
    · rw [kept, if_pos hw, if_pos hw, balanced_blank hw]
      exact ih k
    rw [if_neg hw]
    by_cases hl : Loses c n rs
    · rw [kept_loses hl, balanced_loses hl, ← ih, hl.1]
      have hsplit : k + n = n - 1 + (k + 1) := by omega
      rw [← List.append_assoc, List.replicate_append_replicate, hsplit,
        ← List.replicate_append_replicate, List.append_assoc, List.append_cancel_left_eq]
    by_cases ht : c = tick
    · subst ht
      by_cases hrs : rs = []
      · subst hrs
        show List.replicate (kept tick n true) tick ++ [] = _ ++ (_ ++ []) ↔ _
        rw [kept_last (.inl rfl), balanced_lastTick, List.append_nil, List.append_nil,
          List.replicate_append_replicate, List.replicate_inj]
        simp only [Nat.add_comm k n, Nat.add_left_cancel_iff, or_true, and_true]
        exact eq_comm
      · rw [kept_same hw hl fun _ => hrs, balanced_tick hrs hl, ← ih, ← List.append_assoc,
          List.replicate_append_replicate, Nat.add_comm, ← List.replicate_append_replicate,
          List.append_assoc, List.append_cancel_left_eq]
    · rw [balanced_other ht hw]
      by_cases hk : k = 0
      · subst hk
        rw [List.replicate_zero, List.nil_append]
        by_cases hlast : c = '#' ∧ rs = []
        · obtain ⟨rfl, rfl⟩ := hlast
          show List.replicate (kept '#' n true) '#' ++ [] = _ ++ [] ↔ _
          have hgain : tailGain [('#', n)] = (3 - n % 3) % 3 := if_pos (.inr rfl)
          rw [kept_last (.inr rfl), hgain, List.append_nil, List.append_nil, List.replicate_inj]
          simp only [losses, TicksAfterLoss, or_true, and_true, true_and]
          omega
        · have hmark : (c = tick ∨ c = '#') → rs ≠ [] := by
            rintro (h | h) hrs
            · exact ht h
            · exact hlast ⟨h, hrs⟩
          rw [kept_same hw hl hmark, List.append_cancel_left_eq, tailGain_not_last n hmark]
          refine (ih 0).trans ?_
          simp [Balanced]
      · constructor
        · intro h
          have hle := le_kept hw hl
          exact absurd h (replicate_append_ne ht (by omega) (Nat.pos_of_ne_zero hk) _ _)
        · rintro ⟨h, -⟩
          exact absurd h hk

/-! ## Positions -/

theorem near_plain {n : Nat} {c : Char} (hc : ¬ (c = tick ∨ c = '#')) {r : List Char}
    (h : Near n r) : Near n (c :: r) := by
  have hfar : (c = tick ∨ c = '#') → lookahead c r = 2 → n - r.length + 1 < 2 ^ 31 :=
    fun h => absurd h hc
  cases htake : take c r with
  | none => exact near_of_word htake hfar h
  | some p =>
    obtain ⟨ls, r'⟩ := p
    have hr : r' = r := by
      rw [not_or] at hc
      unfold take at htake
      split_ifs at htake with hw hn hp ht hs hh <;> cases htake
      · rfl
      · rfl
      · exact absurd ht hc.1
      · rfl
      · exact absurd hh hc.2
      · rfl
    subst hr
    exact near_of_take htake hfar h

theorem near_mark {n : Nat} {d : Char} (hd : d = tick ∨ d = '#') {r : List Char}
    (hfar : lookahead d r = 2 → n - r.length + 1 < 2 ^ 31)
    (h : Near n (r.drop (lookahead d r - 1))) : Near n (d :: r) := by
  obtain ⟨l, htake, -⟩ := take_mark hd r
  exact near_of_take htake (fun _ => hfar) h

/-- No position is written down at the first and at the third of three marks. -/
theorem near_mark_of_ne {n l : Nat} {d : Char} {r : List Char} (hd : d = tick ∨ d = '#')
    (hlook : lookahead d r = l) (hl : l ≠ 2) (h : Near n (r.drop (l - 1))) : Near n (d :: r) := by
  subst hlook
  exact near_mark hd (fun h2 => absurd h2 hl) h

/-- A run in front of a text whose positions fit. -/
theorem near_run {n : Nat} {c : Char} (m : Nat) {ys : List Char} (hys : ys.head? ≠ some c)
    (hle : m + ys.length ≤ n)
    (hfar : (c = tick ∨ c = '#') → m % 3 = 2 → ys ≠ [] → n - ys.length < 2 ^ 31)
    (h : Near n ys) : Near n (List.replicate m c ++ ys) := by
  by_cases hc : c = tick ∨ c = '#'
  · induction m using Nat.strongRecOn with
    | ind m ih =>
      match m with
      | 0 => exact h
      | 1 =>
        rw [List.replicate_one, List.singleton_append]
        cases ys with
        | nil => exact @near_mark_of_ne n 3 c [] hc rfl (by decide) h
        | cons y ys =>
          have hy : y ≠ c := fun h => hys (by rw [h]; rfl)
          have hlook : lookahead c (y :: ys) = 1 := by cases ys <;> simp [lookahead, hy]
          exact near_mark_of_ne hc hlook (by decide) h
      | 2 =>
        show Near n (c :: c :: ys)
        cases ys with
        | nil =>
          have hlook : lookahead c [c] = 3 := by simp [lookahead]
          exact near_mark_of_ne hc hlook (by decide) h
        | cons y ys =>
          have hy : y ≠ c := fun h => hys (by rw [h]; rfl)
          have hlook : lookahead c (c :: y :: ys) = 2 := by simp [lookahead, hy]
          refine near_mark hc ?_ ?_
          · intro _
            have hend := hfar hc rfl (by simp)
            rw [List.length_cons] at hend hle
            simp only [List.length_cons]
            omega
          · rw [hlook]
            exact h
      | m + 3 =>
        show Near n (c :: c :: c :: (List.replicate m c ++ ys))
        have hlook : lookahead c (c :: c :: (List.replicate m c ++ ys)) = 3 := by
          simp [lookahead]
        refine near_mark_of_ne hc hlook (by decide) ?_
        show Near n (List.replicate m c ++ ys)
        refine ih m (by omega) (by omega) ?_
        intro hc hm hne
        exact hfar hc (by omega) hne
  · clear hfar hle
    induction m with
    | zero => exact h
    | succ m ih =>
      rw [List.replicate_succ, List.cons_append]
      exact near_plain hc ih

theorem near_of_noFarSeek {n : Nat} (ys : List Char) :
    ∀ {pos : Nat}, pos + ys.length = n → NoFarSeek pos (runs ys) → Near n ys := by
  induction ys using run_induction with
  | nil =>
    intro pos _ _
    rw [Near]
    trivial
  | run c m ys hm hys ih =>
    intro pos hlen h
    rw [runs_replicate_append hm hys] at h
    obtain ⟨hfar, h⟩ := h
    rw [List.length_append, List.length_replicate] at hlen
    refine near_run m hys (by omega) ?_ (ih (by omega) h)
    intro hc hmod hne
    have hend := hfar hc hmod (by rwa [Ne, runs_eq_nil])
    omega

/-! ## The lexer -/

theorem process_text {text : List Char} (h : Near text.length text) {T : List Token}
    (hT : Process text (.ok T)) : T.flatMap Token.token = keptText (runs text) := by
  obtain ⟨T₀, hT₀, hscan⟩ := process_scan h
  have hsame : T = T₀ := Except.ok.inj (Loop.Returns.unique hT hT₀)
  rw [hsame, ← scan_text, scanText, ← hscan, List.flatMap_map]
  rfl

/-- **When the lexer loses nothing and invents nothing.** -/
theorem lossless_iff (text : List Char) (h : NoFarSeek 0 (runs text)) :
    (∃ T, Process text (.ok T) ∧
        T.flatMap Token.token = text.filter fun c => !isWhitespace c) ↔
      losses (runs text) = tailGain (runs text) ∧ TicksAfterLoss (runs text) := by
  have hnear := near_of_noFarSeek text (Nat.zero_add _) h
  have hiff := keptText_eq_iff (runs_pos text) 0
  simp only [Balanced, List.replicate_zero, List.nil_append, Nat.add_zero, Nat.lt_irrefl,
    false_implies, true_and] at hiff
  rw [← hiff, filter_text]
  constructor
  · rintro ⟨T, hT, hsame⟩
    rw [← hsame, process_text hnear hT]
  · intro hsame
    obtain ⟨T, hT, -⟩ := process_scan hnear
    exact ⟨T, hT, by rw [process_text hnear hT, hsame]⟩

theorem lossless_iff_code : (∃ T, Process "\x60\x60 \x60\x60".toList (.ok T) ∧
      T.flatMap Token.token = "\x60\x60 \x60\x60".toList.filter fun c => !isWhitespace c) ↔
    losses (runs "\x60\x60 \x60\x60".toList) = tailGain (runs "\x60\x60 \x60\x60".toList) ∧
      TicksAfterLoss (runs "\x60\x60 \x60\x60".toList) := by
  refine lossless_iff _ ?_
  have hruns : runs "\x60\x60 \x60\x60".toList = [(tick, 2), (' ', 1), (tick, 2)] := by decide
  rw [hruns]
  simp [NoFarSeek]

/-- Two backticks in front of a word: one of them is lost. -/
theorem backticks_lost : ¬ ∃ T, Process "\x60\x60x".toList (.ok T) ∧
    T.flatMap Token.token = "\x60\x60x".toList.filter fun c => !isWhitespace c := by
  rintro ⟨T, hT, hsame⟩
  have hnear : Near 3 "\x60\x60x".toList := near_of_length (by decide) (by decide)
  rw [@process_text "\x60\x60x".toList hnear T hT] at hsame
  exact absurd hsame (by decide)

end Mdm
