import Sprawl.Brainfuck.Logic

/-!
# Texts that may stand for one another

Two nested texts are interchangeable when no program around them can tell them apart: every
text with the one in it leaves the same cells, the same cursor and the same written text as
with the other in its place.

    Interchangeable mode x y
      ↔ from every configuration, x and y leave the same to be seen     (interchangeable_iff)

From right to left the difference would have to get past the text around it
(`Programs.Simulates`); from left to right every configuration is reached by some text
(`exec_setup`), and a program does not see what was written before (`exec_frame`).
-/

namespace Bfi

open Cxx Loop Programs

/-! ## What is left to be seen -/

section
variable {n : Nat}

def Brainfuck.seen (bf : Brainfuck n) : Vector UInt8 n × Nat × List Char :=
  (bf.mCells, bf.mCellPos, bf.mOutputStream)

def Config.seen (mode : OutputMode) (t : Config n) : Vector UInt8 n × Nat × List Char :=
  (Vector.ofFn t.cells, t.cursor, t.output.flatMap (render mode))

/-- The two configurations look the same. -/
def Same (mode : OutputMode) (t u : Config n) : Prop := t.seen mode = u.seen mode

variable {mode : OutputMode} {t u : Config n}

theorem same_iff : Same mode t u ↔ t.cells = u.cells ∧ t.cursor = u.cursor ∧
    t.output.flatMap (render mode) = u.output.flatMap (render mode) := by
  unfold Same Config.seen
  rw [Prod.mk.injEq, Prod.mk.injEq, Fin.val_inj]
  refine and_congr_left fun _ => ⟨fun h => ?_, fun h => by rw [h]⟩
  funext i
  have hi := congrArg (fun v => v[i]) h
  simpa using hi

theorem respects_same [NeZero n] (mode : OutputMode) : Respects (machine n) (Same mode) where
  act a t u h := by
    obtain ⟨hcells, hcursor, hout⟩ := same_iff.1 h
    have hcell : t.cell = u.cell := by
      unfold Config.cell
      rw [hcells, hcursor]
    refine same_iff.2 ?_
    cases a with
    | incr | decr => exact ⟨by simp [machine, Config.apply, Config.setCell, *], hcursor, hout⟩
    | output =>
      refine ⟨hcells, hcursor, ?_⟩
      show (t.output ++ [t.cell]).flatMap _ = (u.output ++ [u.cell]).flatMap _
      rw [List.flatMap_append, List.flatMap_append, hout, hcell]
    | right | left => exact ⟨hcells, by simp [machine, Config.apply, hcursor], hout⟩
  guard {t u} h := by
    obtain ⟨hcells, hcursor, -⟩ := same_iff.1 h
    show t.cells t.cursor ≠ 0 ↔ u.cells u.cursor ≠ 0
    rw [hcells, hcursor]

end

/-- `Run` of the text ends, and leaves `o` to be seen. -/
def Leaves (mode : OutputMode) (str : Sized Char)
    (o : Vector UInt8 kMaxCells × Nat × List Char) : Prop :=
  ∃ bf, Run ((fresh mode []).fromString str) (.ok bf) ∧ bf.seen = o

/-- No text around them tells `x` from `y`. -/
def Interchangeable (mode : OutputMode) (x y : List Char) : Prop :=
  ∀ (pre post : List Char) (hx : (pre ++ (x ++ post)).length < 2 ^ 63)
    (hy : (pre ++ (y ++ post)).length < 2 ^ 63), ',' ∉ pre → ',' ∉ post →
    nested 0 (pre ++ (x ++ post)) = true →
    ∀ o, Leaves mode ⟨pre ++ (x ++ post), hx⟩ o ↔ Leaves mode ⟨pre ++ (y ++ post), hy⟩ o

theorem leaves_iff {mode : OutputMode} {str : Sized Char} {p : Prog}
    (hp : parse str.elems = some p) (hcomma : ',' ∉ str.elems)
    (o : Vector UInt8 kMaxCells × Nat × List Char) :
    Leaves mode str o ↔ ∃ t, Exec p .fresh t ∧ t.seen mode = o := by
  have hseen : ∀ t, (((fresh mode []).fromString str).finished t).seen = t.seen mode :=
    fun t => congrArg (fun out => (Vector.ofFn t.cells, (t.cursor : Nat), out)) (List.nil_append _)
  constructor
  · rintro ⟨bf, hrun, ho⟩
    obtain ⟨t, hexec, heq⟩ := (run_fresh_iff mode [] hp hcomma _).1 hrun
    cases heq
    exact ⟨t, hexec, by rw [← hseen, ho]⟩
  · rintro ⟨t, hexec, ho⟩
    exact ⟨_, (run_fresh_iff mode [] hp hcomma _).2 ⟨t, hexec, rfl⟩, by rw [hseen, ho]⟩

/-! ## A text inside another -/

def Prog.append : Prog → Prog → Prog
  | .nil, q => q
  | .atom a rest, q => .atom a (rest.append q)
  | .loop body rest, q => .loop body (rest.append q)

theorem append_nil (p : Prog) : p.append .nil = p := by
  induction p with
  | nil => rfl
  | atom a rest ih => rw [Prog.append, ih]
  | loop body rest _ ih => rw [Prog.append, ih]

theorem code_append (p q : Prog) : (p.append q).code = p.code.append q.code := by
  induction p with
  | nil => rfl
  | atom a rest ih => rw [Prog.append, Prog.code, ih]; rfl
  | loop body rest _ ih => rw [Prog.append, Prog.code, ih]; rfl

theorem exec_append {n : Nat} [NeZero n] {p q : Prog} {t t' : Config n} :
    Exec (p.append q) t t' ↔ ∃ u, Exec p t u ∧ Exec q u t' := by
  simp only [exec_iff_runs, code_append, runs_append]

/-- A program in front of a text is in front of its first program. -/
theorem parseStack_spells {s : List Char} {p : Prog} (hs : Spells s p) :
    ∀ {post : List Char} {q : Prog} {stack : List Prog}, parseStack post = some (q :: stack) →
      parseStack (s ++ post) = some (p.append q :: stack) := by
  induction hs with
  | nil => exact fun h => h
  | @comment c s p hno hopen hclose _ ih =>
    intro post q stack h
    rw [List.cons_append, parseStack, ih h]
    simp only [Option.bind_eq_bind, Option.bind_some, if_neg hopen, if_neg hclose, hno]
  | @atom c a s p ha _ ih =>
    intro post q stack h
    have hopen : c ≠ '[' := by rintro rfl; cases ha
    have hclose : c ≠ ']' := by rintro rfl; cases ha
    rw [List.cons_append, parseStack, ih h]
    simp only [Option.bind_eq_bind, Option.bind_some, if_neg hopen, if_neg hclose, ha]
    rfl
  | @loop b s body rest _ _ ihb ihs =>
    intro post q stack h
    have hclose : parseStack (']' :: (s ++ post)) = some (.nil :: rest.append q :: stack) := by
      rw [parseStack, ihs h]
      rfl
    rw [List.cons_append, List.append_assoc, List.cons_append, parseStack, ihb hclose, append_nil]
    rfl

theorem parseStack_suffix {pre post : List Char} {stack : List Prog}
    (h : parseStack (pre ++ post) = some stack) : ∃ stack', parseStack post = some stack' := by
  induction pre generalizing stack with
  | nil => exact ⟨stack, h⟩
  | cons c pre ih =>
    rw [List.cons_append, parseStack, Option.bind_eq_bind, Option.bind_eq_some_iff] at h
    obtain ⟨stack', h', -⟩ := h
    exact ih h'

/-- The relation is kept by everything a program is made with. -/
structure Compatible (R : Prog → Prog → Prop) : Prop where
  nil : R .nil .nil
  atom : ∀ a {p q}, R p q → R (.atom a p) (.atom a q)
  loop : ∀ {b b' p q}, R b b' → R p q → R (.loop b p) (.loop b' q)
  append : ∀ {p q} r, R p q → R (p.append r) (q.append r)

section
variable {R : Prog → Prog → Prop} (hR : Compatible R)
include hR

theorem Compatible.refl (p : Prog) : R p p := by
  induction p with
  | nil => exact hR.nil
  | atom a rest ih => exact hR.atom a ih
  | loop body rest ihb ihr => exact hR.loop ihb ihr

/-- Whatever is written in front keeps the relation. -/
theorem Compatible.parseStack {s s' : List Char} {st st' : List Prog}
    (hs : parseStack s = some st) (hs' : parseStack s' = some st') (h : List.Forall₂ R st st')
    (pre : List Char) {S : List Prog} (hS : parseStack (pre ++ s) = some S) :
    ∃ S', parseStack (pre ++ s') = some S' ∧ List.Forall₂ R S S' := by
  induction pre generalizing S with
  | nil =>
    rw [List.nil_append, hs] at hS
    cases hS
    exact ⟨st', hs', h⟩
  | cons c pre ih =>
    rw [List.cons_append, Bfi.parseStack, Option.bind_eq_bind, Option.bind_eq_some_iff] at hS
    obtain ⟨T, hT, hS⟩ := hS
    obtain ⟨T', hT', hTT'⟩ := ih hT
    rw [List.cons_append, Bfi.parseStack, hT', Option.bind_eq_bind, Option.bind_some]
    by_cases hopen : c = '['
    · rw [if_pos hopen] at hS ⊢
      cases hTT' with
      | nil => cases hS
      | cons hbody hrest =>
        cases hrest with
        | nil => cases hS
        | cons hrest hstack =>
          cases hS
          exact ⟨_, rfl, .cons (hR.loop hbody hrest) hstack⟩
    · rw [if_neg hopen] at hS ⊢
      by_cases hclose : c = ']'
      · rw [if_pos hclose] at hS ⊢
        cases hS
        exact ⟨_, rfl, .cons hR.nil hTT'⟩
      · rw [if_neg hclose] at hS ⊢
        cases ha : atomOf c with
        | none =>
          rw [ha] at hS
          cases hS
          exact ⟨_, rfl, hTT'⟩
        | some a =>
          rw [ha] at hS
          cases hTT' with
          | nil => cases hS
          | cons hp hstack =>
            cases hS
            exact ⟨_, rfl, .cons (hR.atom a hp) hstack⟩

/-- A program with `x` in it is related to the program with `y` in its place. -/
theorem Compatible.parse {x y : List Char} {p q : Prog} (hx : parse x = some p)
    (hy : parse y = some q) (hpq : R p q) {pre post : List Char} {P : Prog}
    (hP : parse (pre ++ (x ++ post)) = some P) :
    ∃ Q, parse (pre ++ (y ++ post)) = some Q ∧ R P Q := by
  unfold Bfi.parse at hP
  split at hP
  · next P' hS =>
    cases hP
    obtain ⟨stx, hstx⟩ := parseStack_suffix hS
    obtain ⟨st, hst⟩ := parseStack_suffix hstx
    obtain ⟨r, rest, rfl⟩ := (spellsStack_of_parse hst).exists_cons
    have hpx := parseStack_spells (spells_of_parse hx) hst
    have hpy := parseStack_spells (spells_of_parse hy) hst
    have hpost : List.Forall₂ R (p.append r :: rest) (q.append r :: rest) :=
      .cons (hR.append r hpq) (List.forall₂_same.2 fun s _ => hR.refl s)
    obtain ⟨S', hS', hSS'⟩ := hR.parseStack hpx hpy hpost pre hS
    cases hSS' with
    | cons hQ hnil =>
      cases hnil
      exact ⟨_, by unfold Bfi.parse; rw [hS'], hQ⟩
  · cases hP

end

theorem nested_context {x y pre post : List Char} {p q : Prog} (hx : parse x = some p)
    (hy : parse y = some q) (h : nested 0 (pre ++ (x ++ post)) = true) :
    nested 0 (pre ++ (y ++ post)) = true := by
  have hany : Compatible fun _ _ => True :=
    ⟨trivial, fun _ _ _ _ => trivial, fun _ _ => trivial, fun _ _ => trivial⟩
  obtain ⟨P, hP⟩ := (parse_isSome_iff _).1 h
  obtain ⟨Q, hQ, -⟩ := hany.parse hx hy trivial hP
  exact (parse_isSome_iff _).2 ⟨Q, hQ⟩

/-- Each run of `p` has one of `q` beside it that looks the same. -/
def Sims (mode : OutputMode) (p q : Prog) : Prop :=
  Simulates (machine kMaxCells) (Same mode) p.code q.code

theorem compatible_sims (mode : OutputMode) : Compatible (Sims mode) where
  nil := Simulates.nil
  atom a _ _ h := Simulates.atom (respects_same mode) a h
  loop hb h := Simulates.loop (respects_same mode) hb h
  append r h := by
    unfold Sims
    rw [code_append, code_append]
    exact Simulates.append h (Simulates.refl (respects_same mode) r.code)

/-! ## Every configuration is reached -/

section
variable {n : Nat} [NeZero n]

def Atom.char : Atom → Char
  | .incr => '+'
  | .decr => '-'
  | .output => '.'
  | .right => '>'
  | .left => '<'

theorem atomOf_char (a : Atom) : atomOf a.char = some a := by
  cases a <;> rfl

def straight (as : List Atom) : Prog := as.foldr .atom .nil

theorem spells_straight (as : List Atom) : Spells (as.map Atom.char) (straight as) := by
  induction as with
  | nil => exact .nil
  | cons a as ih => exact .atom (atomOf_char a) ih

theorem code_straight (as : List Atom) : (straight as).code = .straight as := by
  induction as with
  | nil => rfl
  | cons a as ih => exact congrArg (Code.atom a) ih

theorem exec_straight (as : List Atom) (t : Config n) :
    Exec (straight as) t (as.foldl Config.apply t) := by
  rw [exec_iff_runs, code_straight]
  exact runs_straight as t

theorem foldl_incr (k : Nat) (t : Config n) :
    (List.replicate k Atom.incr).foldl Config.apply t = t.setCell (t.cell + UInt8.ofNat k) := by
  induction k generalizing t with
  | zero =>
    unfold Config.setCell Config.cell
    simp
  | succ k ih =>
    rw [List.replicate_succ, List.foldl_cons, ih]
    unfold Config.apply Config.setCell Config.cell
    simp only [Function.update_self, Function.update_idem, UInt8.ofNat_add, UInt8.add_assoc,
      UInt8.add_comm (UInt8.ofNat k)]
    rfl

theorem foldl_right (k : Nat) (t : Config n) :
    (List.replicate k Atom.right).foldl Config.apply t =
      { t with cursor := t.cursor + Fin.ofNat n k } := by
  induction k generalizing t with
  | zero => simp
  | succ k ih =>
    rw [List.replicate_succ, List.foldl_cons, ih]
    unfold Config.apply
    congr 1
    rw [add_assoc]
    congr 1
    ext
    simp [Fin.val_add, Nat.add_comm]

/-- The first `k` cells, from left to right. -/
def rows (cells : Fin n → UInt8) (k : Nat) : List Atom :=
  (List.range k).flatMap fun i =>
    List.replicate (cells (Fin.ofNat n i)).toNat Atom.incr ++ [Atom.right]

theorem rows_succ (cells : Fin n → UInt8) (k : Nat) : rows cells (k + 1) = rows cells k ++
    (List.replicate (cells (Fin.ofNat n k)).toNat Atom.incr ++ [Atom.right]) := by
  unfold rows
  rw [List.range_succ, List.flatMap_append, List.flatMap_singleton]

theorem foldl_rows (cells : Fin n → UInt8) {k : Nat} (hk : k ≤ n) :
    (rows cells k).foldl Config.apply { cursor := 0 } =
      { cells := fun i => if (i : Nat) < k then cells i else 0, cursor := Fin.ofNat n k } := by
  induction k with
  | zero =>
    simp only [Nat.not_lt_zero, if_false]
    rfl
  | succ k ih =>
    have hval : ((Fin.ofNat n k : Fin n) : Nat) = k := Nat.mod_eq_of_lt hk
    rw [rows_succ, List.foldl_append, ih (by omega), List.foldl_append, foldl_incr]
    unfold Config.setCell Config.cell
    simp only [hval, lt_irrefl, if_false, UInt8.zero_add, UInt8.ofNat_toNat]
    show Config.mk _ _ _ = Config.mk _ _ _
    congr 1
    · funext i
      change Function.update (fun i : Fin n => if (i : Nat) < k then cells i else 0) (Fin.ofNat n k)
        (cells (Fin.ofNat n k)) i = _
      rw [Function.update_apply]
      by_cases hi : i = Fin.ofNat n k
      · have hlt : (i : Nat) < k + 1 := by rw [hi, hval]; omega
        rw [if_pos hi, if_pos hlt, hi]
      · have hne : (i : Nat) ≠ k := fun h => hi (Fin.ext (by rw [hval, h]))
        rw [if_neg hi]
        by_cases hlt : (i : Nat) < k
        · rw [if_pos hlt, if_pos (by omega)]
        · rw [if_neg hlt, if_neg (by omega)]
    · ext
      simp [Fin.val_add]

/-- What brings the fresh tape to `t`, nothing written. -/
def setup (t : Config n) : List Atom := rows t.cells n ++ List.replicate t.cursor Atom.right

theorem exec_setup (t : Config n) :
    Exec (straight (setup t)) { cursor := 0 } { t with output := [] } := by
  have hfold : (setup t).foldl Config.apply { cursor := 0 } = { t with output := [] } := by
    unfold setup
    rw [List.foldl_append, foldl_rows t.cells (Nat.le_refl n), foldl_right]
    simp only [Fin.is_lt, if_true]
    congr 1
    ext
    simp
  rw [← hfold]
  exact exec_straight _ _

theorem length_rows_le (cells : Fin n → UInt8) (k : Nat) : (rows cells k).length ≤ k * 256 := by
  induction k with
  | zero => exact Nat.le_refl 0
  | succ k ih =>
    have hlt := (cells (Fin.ofNat n k)).toNat_lt
    simp only [rows_succ, List.length_append, List.length_replicate, List.length_singleton]
    omega

theorem length_setup_le (t : Config n) : (setup t).length ≤ n * 256 + n := by
  have hrows := length_rows_le t.cells n
  have hlt := t.cursor.isLt
  unfold setup
  rw [List.length_append, List.length_replicate]
  omega

/-- A program does not see what was written before it. -/
theorem exec_frame {p : Prog} {t t' : Config n} (h : Exec p t t') :
    ∃ out, t'.output = t.output ++ out ∧
      ∀ o, Exec p { t with output := o } { t' with output := o ++ out } := by
  induction h with
  | nil t => exact ⟨[], (List.append_nil _).symm, fun o => by rw [List.append_nil]; exact .nil _⟩
  | @atom a rest t t' _ ih =>
    obtain ⟨out, hout, hexec⟩ := ih
    cases a with
    | output =>
      refine ⟨t.cell :: out, by rw [hout]; exact List.append_assoc _ [_] _, fun o => .atom ?_⟩
      have := hexec (o ++ [t.cell])
      rwa [List.append_assoc] at this
    | incr | decr | right | left => exact ⟨out, hout, fun o => .atom (hexec o)⟩
  | loopDone hzero _ ih =>
    obtain ⟨out, hout, hexec⟩ := ih
    exact ⟨out, hout, fun o => .loopDone hzero (hexec o)⟩
  | loopAgain hne _ _ ihb ihl =>
    obtain ⟨out₁, hout₁, hexec₁⟩ := ihb
    obtain ⟨out₂, hout₂, hexec₂⟩ := ihl
    refine ⟨out₁ ++ out₂, by rw [hout₂, hout₁, List.append_assoc], fun o => ?_⟩
    have h₂ := hexec₂ (o ++ out₁)
    rw [List.append_assoc] at h₂
    exact .loopAgain hne (hexec₁ o) h₂

end

/-! ## Interchangeable texts -/

section
variable {mode : OutputMode} {x y : List Char} {p q : Prog}

/-- From every configuration, what `p` leaves `q` leaves too. -/
def Covers (mode : OutputMode) (p q : Prog) : Prop :=
  ∀ (t : Config kMaxCells) o, (∃ t', Exec p t t' ∧ t'.seen mode = o) →
    ∃ t', Exec q t t' ∧ t'.seen mode = o

theorem Covers.sims (h : Covers mode p q) : Sims mode p q := by
  intro s u s' hsu hrun
  obtain ⟨u₁, hu₁, hs'⟩ := (compatible_sims mode).refl p s u s' hsu hrun
  obtain ⟨u', hu', hseen⟩ := h u (u₁.seen mode) ⟨u₁, exec_iff_runs.2 hu₁, rfl⟩
  exact ⟨u', exec_iff_runs.1 hu', hs'.trans hseen.symm⟩

/-- No context notices when the program covered is replaced by the one that covers it. -/
theorem Sims.leaves (h : Sims mode p q) (hx : parse x = some p) (hy : parse y = some q)
    (hcx : ',' ∉ x) (hcy : ',' ∉ y) {pre post : List Char}
    (hlx : (pre ++ (x ++ post)).length < 2 ^ 63) (hly : (pre ++ (y ++ post)).length < 2 ^ 63)
    (hpre : ',' ∉ pre) (hpost : ',' ∉ post) (hnest : nested 0 (pre ++ (x ++ post)) = true)
    {o : Vector UInt8 kMaxCells × Nat × List Char}
    (hleaves : Leaves mode ⟨pre ++ (x ++ post), hlx⟩ o) :
    Leaves mode ⟨pre ++ (y ++ post), hly⟩ o := by
  have hcomma : ∀ {s : List Char}, ',' ∉ s → ',' ∉ pre ++ (s ++ post) := by
    intro s hs
    simp only [List.mem_append, not_or]
    exact ⟨hpre, hs, hpost⟩
  obtain ⟨P, hP⟩ := (parse_isSome_iff _).1 hnest
  obtain ⟨Q, hQ, hsims⟩ := (compatible_sims mode).parse hx hy h hP
  obtain ⟨t, hexec, ho⟩ := (leaves_iff hP (hcomma hcx) o).1 hleaves
  obtain ⟨u, hu, hseen⟩ := hsims .fresh .fresh t rfl (exec_iff_runs.1 hexec)
  exact (leaves_iff hQ (hcomma hcy) o).2 ⟨u, exec_iff_runs.2 hu, by rw [← ho]; exact hseen.symm⟩

theorem parse_behind (as : List Atom) (hx : parse x = some p) :
    parse (as.map Atom.char ++ (x ++ [])) = some ((straight as).append (p.append .nil)) := by
  have hnil : parseStack [] = some [.nil] := rfl
  unfold parse
  rw [parseStack_spells (spells_straight as) (parseStack_spells (spells_of_parse hx) hnil)]

theorem leaves_behind (as : List Atom) (hx : parse x = some p) (hcx : ',' ∉ x)
    (hlx : (as.map Atom.char ++ (x ++ [])).length < 2 ^ 63) {t₀ : Config kMaxCells}
    (hset : Exec (straight as) .fresh t₀) (o : Vector UInt8 kMaxCells × Nat × List Char) :
    Leaves mode ⟨as.map Atom.char ++ (x ++ []), hlx⟩ o ↔ ∃ t, Exec p t₀ t ∧ t.seen mode = o := by
  have hcomma : ',' ∉ as.map Atom.char ++ (x ++ []) := by
    simp only [List.mem_append, List.mem_map, List.not_mem_nil, or_false, not_or]
    refine ⟨?_, hcx⟩
    rintro ⟨a, -, ha⟩
    cases a <;> cases ha
  rw [leaves_iff (parse_behind as hx) hcomma, append_nil]
  refine exists_congr fun t => and_congr_left fun _ => ?_
  rw [exec_append]
  constructor
  · rintro ⟨u, hu, hexec⟩
    have heq := (exec_iff_runs.1 hu).unique (exec_iff_runs.1 hset)
    subst heq
    exact hexec
  · exact fun hexec => ⟨t₀, hset, hexec⟩

/-- Behind the right text every difference is seen. -/
theorem covers_of_leaves (hx : parse x = some p) (hy : parse y = some q) (hcx : ',' ∉ x)
    (hcy : ',' ∉ y) (hlx : x.length < 2 ^ 62) (hly : y.length < 2 ^ 62)
    (h : Interchangeable mode x y) : Covers mode p q := by
  rintro t o ⟨t', hexec, rfl⟩
  obtain ⟨out, hout, hframe⟩ := exec_frame hexec
  have hlen := length_setup_le t
  have hsize : kMaxCells * 256 + kMaxCells < 2 ^ 62 := by decide
  have hset : Exec (straight (setup t)) .fresh { t with output := [] } := exec_setup t
  have hfit : ∀ {s : List Char}, s.length < 2 ^ 62 →
      ((setup t).map Atom.char ++ (s ++ [])).length < 2 ^ 63 := by
    intro s hs
    simp only [List.length_append, List.length_map, List.length_nil]
    omega
  have hnest : nested 0 ((setup t).map Atom.char ++ (x ++ [])) = true :=
    (parse_isSome_iff _).2 ⟨_, parse_behind (setup t) hx⟩
  have hcomma : ',' ∉ (setup t).map Atom.char := by
    simp only [List.mem_map, not_exists, not_and]
    intro a _
    cases a <;> decide
  obtain ⟨u, hu, hseen⟩ := (leaves_behind (setup t) hy hcy (hfit hly) hset _).1
    ((h _ _ (hfit hlx) (hfit hly) hcomma List.not_mem_nil hnest _).1
      ((leaves_behind (setup t) hx hcx (hfit hlx) hset _).2 ⟨_, hframe [], rfl⟩))
  -- what was written before `t` comes back in front
  obtain ⟨hcells, hcursor, hwritten⟩ := same_iff.1 hseen
  obtain ⟨out', hout', hframe'⟩ := exec_frame hu
  refine ⟨_, hframe' t.output, same_iff.2 ⟨hcells, hcursor, ?_⟩⟩
  rw [hout'] at hwritten
  show (t.output ++ out').flatMap _ = t'.output.flatMap _
  rw [hout, List.flatMap_append, List.flatMap_append]
  congr 1

/-- **Two texts are interchangeable exactly when they leave the same from everywhere.** -/
theorem interchangeable_iff (mode : OutputMode) {x y : List Char} {p q : Prog}
    (hx : parse x = some p) (hy : parse y = some q) (hcx : ',' ∉ x) (hcy : ',' ∉ y)
    (hlx : x.length < 2 ^ 62) (hly : y.length < 2 ^ 62) :
    Interchangeable mode x y ↔ ∀ (t : Config kMaxCells) o,
      (∃ t', Exec p t t' ∧ t'.seen mode = o) ↔ ∃ t', Exec q t t' ∧ t'.seen mode = o := by
  constructor
  · intro h t o
    have hsymm : Interchangeable mode y x := fun pre post hly' hlx' hpre hpost hnest o =>
      (h pre post hlx' hly' hpre hpost (nested_context hy hx hnest) o).symm
    exact ⟨covers_of_leaves hx hy hcx hcy hlx hly h t o,
      covers_of_leaves hy hx hcy hcx hly hlx hsymm t o⟩
  · intro h pre post hlx' hly' hpre hpost hnest o
    have hxy : Sims mode p q := Covers.sims fun t o => (h t o).1
    have hyx : Sims mode q p := Covers.sims fun t o => (h t o).2
    exact ⟨hxy.leaves hx hy hcx hcy hlx' hly' hpre hpost hnest,
      hyx.leaves hy hx hcy hcx hly' hlx' hpre hpost (nested_context hx hy hnest)⟩

end

/-! ## Clearing a cell -/

section
variable {n : Nat} [NeZero n]

/-- A loop whose body counts the cell down, by one or the other end, clears it. -/
theorem exec_clear {a : Atom} {f : Nat → UInt8} (hzero : ∀ k, f k = 0 → k % 256 = 0)
    (hzero' : f 0 = 0) (hact : ∀ (t : Config n) k, t.cell = f (k + 1) → t.apply a = t.setCell (f k))
    (t : Config n) {k : Nat} (hk : k < 256) (hcell : t.cell = f k) :
    Exec (.loop (.atom a .nil) .nil) t (t.setCell 0) := by
  induction k generalizing t with
  | zero =>
    have hset : t.setCell 0 = t := by
      unfold Config.setCell
      rw [← hzero', ← hcell]
      unfold Config.cell
      rw [Function.update_eq_self]
    rw [hset]
    exact .loopDone (by rw [hcell, hzero']) (.nil t)
  | succ k ih =>
    have hne : t.cell ≠ 0 := by
      intro h
      have := hzero (k + 1) (by rw [← hcell, h])
      omega
    have hset : (t.setCell (f k)).setCell 0 = t.setCell 0 := by
      unfold Config.setCell
      rw [Function.update_idem]
    have hself : (t.setCell (f k)).cell = f k := Function.update_self _ _ _
    refine .loopAgain hne (.atom (.nil _)) ?_
    rw [hact t k hcell, ← hset]
    exact ih (t.setCell (f k)) (by omega) hself

theorem ofNat_eq_zero {k : Nat} (h : UInt8.ofNat k = 0) : k % 256 = 0 := by
  have := congrArg UInt8.toNat h
  rwa [UInt8.toNat_ofNat'] at this

theorem exec_clear_decr (t : Config n) : Exec (.loop (.atom .decr .nil) .nil) t (t.setCell 0) := by
  refine exec_clear (f := UInt8.ofNat) (fun _ => ofNat_eq_zero) rfl (fun u k hu => ?_) t
    t.cell.toNat_lt UInt8.ofNat_toNat.symm
  show u.setCell (u.cell - 1) = _
  rw [hu, UInt8.ofNat_add]
  congr 1
  exact UInt8.add_sub_cancel _ _

theorem exec_clear_incr (t : Config n) : Exec (.loop (.atom .incr .nil) .nil) t (t.setCell 0) := by
  refine exec_clear (f := fun k => -UInt8.ofNat k) (fun k hk => ofNat_eq_zero ?_) rfl
    (fun u k hu => ?_) t (-t.cell).toNat_lt ?_
  · exact UInt8.neg_inj.1 hk
  · show u.setCell (u.cell + 1) = _
    rw [hu, UInt8.ofNat_add, UInt8.neg_add]
    congr 1
    exact UInt8.sub_add_cancel _ _
  · show t.cell = -UInt8.ofNat (-t.cell).toNat
    rw [UInt8.ofNat_toNat, UInt8.neg_neg]

end

/-- `[-]` and `[+]` both clear the cell. -/
theorem interchangeable_iff_clear : Interchangeable .text "[-]".toList "[+]".toList := by
  have hdecr : parse "[-]".toList = some (.loop (.atom .decr .nil) .nil) := by decide
  have hincr : parse "[+]".toList = some (.loop (.atom .incr .nil) .nil) := by decide
  refine (interchangeable_iff .text hdecr hincr (by decide) (by decide) (by decide)
    (by decide)).2 ?_
  have hclear : ∀ {p : Prog} (t : Config kMaxCells) o, Exec p t (t.setCell 0) →
      ((∃ t', Exec p t t' ∧ t'.seen .text = o) ↔ (t.setCell 0).seen .text = o) := by
    intro p t o h
    constructor
    · rintro ⟨t', h', ho⟩
      rwa [(exec_iff_runs.1 h').unique (exec_iff_runs.1 h)] at ho
    · exact fun ho => ⟨_, h, ho⟩
  intro t o
  rw [hclear t o (exec_clear_decr t), hclear t o (exec_clear_incr t)]

end Bfi
