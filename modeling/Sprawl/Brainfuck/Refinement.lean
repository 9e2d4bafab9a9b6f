import Sprawl.Brainfuck.Machine
import Sprawl.Brainfuck.Structured

/-!
# The interpreter refines the reference semantics

`bf.on t pos` is the object on the configuration `t`, about to execute the character
at `pos`.  Over a text that spells a program the scans of the brackets land on the
partner (`scanRight_spells`, `scanLeft_spells`), and

    reach_exec      : Exec p t t' → bf.on t pos runs to bf.on t' (pos + |s|)
    exec_of_iterate : when the run from bf.on t pos ends, Exec p t t' for some t',
                      and the run passes bf.on t' (pos + |s|)

for a text `s` at `pos` of the code that spells `p`.
-/

namespace Bfi

open Cxx Loop

/-! ## Texts at a position of the code -/

/-- The text stands in the code at `pos`. -/
def At (code : List Char) : Nat → List Char → Prop
  | _, [] => True
  | pos, c :: s => code[pos]? = some c ∧ At code (pos + 1) s

theorem at_append {code s t : List Char} {pos : Nat} :
    At code pos (s ++ t) ↔ At code pos s ∧ At code (pos + s.length) t := by
  induction s generalizing pos with
  | nil => simp [At]
  | cons c s ih =>
    rw [List.cons_append, At, At, ih, List.length_cons, and_assoc]
    have hlen : pos + 1 + s.length = pos + (s.length + 1) := by omega
    rw [hlen]

theorem at_zero (pre code : List Char) : At (pre ++ code) pre.length code := by
  induction code generalizing pre with
  | nil => trivial
  | cons c s ih =>
    refine ⟨by simp, ?_⟩
    have h := ih (pre ++ [c])
    rwa [List.append_assoc, List.length_append, List.length_singleton] at h

theorem incr_of_lt {i : Nat} (h : i < 2 ^ 63) : incr i = i + 1 := Nat.mod_eq_of_lt (by omega)

theorem decr_succ {i : Nat} (h : i < 2 ^ 63) : decr (i + 1) = i := by
  unfold decr
  omega

theorem incr_decr {i : Nat} (h : i < 2 ^ 63) : incr (decr i) = i := by
  unfold incr decr
  omega

section
variable {code : Sized Char}

theorem pos_lt {i : Nat} {c : Char} (h : code.elems[i]? = some c) :
    i < code.elems.length ∧ i < 2 ^ 63 := by
  obtain ⟨hlt, -⟩ := List.getElem?_eq_some_iff.1 h
  have hsize := code.size_lt
  omega

theorem readCode_of {i : Nat} {c : Char} (h : code.elems[i]? = some c) :
    readCode code i = .ok c := by
  unfold readCode
  rw [readAt_eq_ok, List.getElem?_append_left (pos_lt h).1, h]

theorem readCode_end (code : Sized Char) : readCode code code.elems.length = .ok '\x00' := by
  unfold readCode
  rw [readAt_eq_ok, List.getElem?_append_right (Nat.le_refl _), Nat.sub_self]
  rfl

/-! ## The scans -/

theorem scanRight_zero (pos : Nat) : scanRight code 0 pos = .ok pos := by
  rw [scanRight, if_pos rfl]

theorem scanRight_eq {k : Nat} (hk : k ≠ 0) (pos : Nat) : scanRight code k pos =
    readCode code (incr pos) >>= fun c => scanRight code (skipRight c k) (incr pos) := by
  rw [scanRight, if_neg hk]
  split
  · next e he => rw [he]; rfl
  · next c hc => rw [hc, ok_bind]

theorem scanRight_step {k pos : Nat} {d : Char} (h : code.elems[pos + 1]? = some d) (hk : k ≠ 0) :
    scanRight code k pos = scanRight code (skipRight d k) (pos + 1) := by
  obtain ⟨-, hlt⟩ := pos_lt h
  have hpos : incr pos = pos + 1 := incr_of_lt (by omega)
  rw [scanRight_eq hk, hpos, readCode_of h, ok_bind]

/-- The forward scan passes over a program. -/
theorem scanRight_spells {s : List Char} {p : Prog} (hs : Spells s p) :
    ∀ {k pos : Nat}, At code.elems (pos + 1) s → k ≠ 0 →
      scanRight code k pos = scanRight code k (pos + s.length) := by
  induction hs with
  | nil => intros; rfl
  | @comment d s p hno hopen hclose _ ih =>
    intro k pos ⟨hd, hat⟩ hk
    rw [scanRight_step hd hk, skipRight, if_neg hopen, if_neg hclose, ih hat hk, List.length_cons]
    congr 1
    omega
  | @atom d a s p ha _ ih =>
    intro k pos ⟨hd, hat⟩ hk
    have hopen : d ≠ '[' := by rintro rfl; cases ha
    have hclose : d ≠ ']' := by rintro rfl; cases ha
    rw [scanRight_step hd hk, skipRight, if_neg hopen, if_neg hclose, ih hat hk, List.length_cons]
    congr 1
    omega
  | @loop b s body rest _ _ ihb ihs =>
    intro k pos ⟨hd, hat⟩ hk
    obtain ⟨hb, hc, hs⟩ := at_append.1 hat
    have hc' : code.elems[pos + 1 + b.length + 1]? = some ']' := by
      rw [← hc]
      congr 1
      omega
    have hs' : At code.elems (pos + 1 + b.length + 1 + 1) s := by
      have hpos : pos + 1 + b.length + 1 + 1 = pos + 1 + 1 + b.length + 1 := by omega
      rwa [hpos]
    rw [scanRight_step hd hk, skipRight, if_pos rfl, ihb hb (Nat.succ_ne_zero k),
      scanRight_step hc' (Nat.succ_ne_zero k), skipRight, if_neg (by decide), if_pos rfl,
      Nat.succ_sub_one, ihs hs' hk]
    congr 1
    simp only [List.length_cons, List.length_append]
    omega

theorem scanLeft_zero (pos : Nat) : scanLeft code 0 pos = .ok pos := by
  rw [scanLeft, if_pos rfl]

theorem scanLeft_eq {k : Nat} (hk : k ≠ 0) (pos : Nat) : scanLeft code k pos =
    readCode code pos >>= fun c => scanLeft code (skipLeft c k) (decr pos) := by
  rw [scanLeft, if_neg hk]
  split
  · next e he => rw [he]; rfl
  · next c hc => rw [hc, ok_bind]

theorem scanLeft_step {k pos : Nat} {d : Char} (h : code.elems[pos]? = some d) (hk : k ≠ 0) :
    scanLeft code k pos = scanLeft code (skipLeft d k) (decr pos) := by
  rw [scanLeft_eq hk, readCode_of h, ok_bind]

/-- The backward scan passes over a program. -/
theorem scanLeft_spells {s : List Char} {p : Prog} (hs : Spells s p) :
    ∀ {k pos : Nat}, At code.elems pos s → k ≠ 0 →
      scanLeft code k (decr (pos + s.length)) = scanLeft code k (decr pos) := by
  have hplain : ∀ {s : List Char} {d : Char} {k pos : Nat}, d ≠ '[' → d ≠ ']' →
      code.elems[pos]? = some d → k ≠ 0 →
      scanLeft code k (decr (pos + 1 + s.length)) = scanLeft code k (decr (pos + 1)) →
      scanLeft code k (decr (pos + (d :: s).length)) = scanLeft code k (decr pos) := by
    intro s d k pos hopen hclose hd hk h
    have hlen : pos + (d :: s).length = pos + 1 + s.length := by rw [List.length_cons]; omega
    rw [hlen, h, decr_succ (pos_lt hd).2, scanLeft_step hd hk, skipLeft, if_neg hclose,
      if_neg hopen]
  induction hs with
  | nil => intros; rfl
  | @comment d s p hno hopen hclose _ ih =>
    intro k pos ⟨hd, hat⟩ hk
    exact hplain hopen hclose hd hk (ih hat hk)
  | @atom d a s p ha _ ih =>
    intro k pos ⟨hd, hat⟩ hk
    have hopen : d ≠ '[' := by rintro rfl; cases ha
    have hclose : d ≠ ']' := by rintro rfl; cases ha
    exact hplain hopen hclose hd hk (ih hat hk)
  | @loop b s body rest _ _ ihb ihs =>
    intro k pos ⟨hd, hat⟩ hk
    obtain ⟨hb, hc, hs⟩ := at_append.1 hat
    have hlen : pos + ('[' :: (b ++ ']' :: s)).length = pos + 1 + b.length + 1 + s.length := by
      simp only [List.length_cons, List.length_append]
      omega
    rw [hlen, ihs hs hk, decr_succ (pos_lt hc).2, scanLeft_step hc hk, skipLeft, if_pos rfl,
      ihb hb (Nat.succ_ne_zero k), decr_succ (pos_lt hd).2, scanLeft_step hd (Nat.succ_ne_zero k),
      skipLeft, if_neg (by decide), if_pos rfl, Nat.succ_sub_one]

end

/-! ## The object on a configuration -/

section
variable {n : Nat} [NeZero n] (bf : Brainfuck n)

/-- The object on the configuration `t`, about to execute the character at `pos`. -/
def Brainfuck.on (t : Config n) (pos : Nat) : Brainfuck n :=
  { bf with
    mStatus := .executing
    mCellPos := t.cursor
    mCodePos := pos
    mCells := Vector.ofFn t.cells
    mOutputStream := bf.mOutputStream ++ t.output.flatMap (render bf.mOutputMode) }

/-- The object that has run to the end of its code and left `t`. -/
def Brainfuck.finished (t : Config n) : Brainfuck n :=
  { bf.on t (bf.mCode.elems.length + 1) with mStatus := .success }

variable {bf} {t : Config n} {pos : Nat}

omit [NeZero n] in
theorem cell_on : (bf.on t pos).cell = .ok t.cell := by
  unfold Brainfuck.cell Brainfuck.on
  rw [readAt_eq_ok]
  simp [Config.cell]

omit [NeZero n] in
theorem setCell_on (v : UInt8) : (bf.on t pos).setCell v = .ok (bf.on (t.setCell v) pos) := by
  have hcells : (Vector.ofFn t.cells).set t.cursor v t.cursor.isLt =
      Vector.ofFn (t.setCell v).cells := by
    ext i hi : 1
    rw [Vector.getElem_set, Vector.getElem_ofFn, Vector.getElem_ofFn]
    show _ = Function.update t.cells t.cursor v ⟨i, hi⟩
    rw [Function.update_apply]
    by_cases h : (t.cursor : Nat) = i
    · rw [if_pos h, if_pos (Fin.ext h.symm)]
    · rw [if_neg h, if_neg (fun e => h (congrArg Fin.val e).symm)]
  unfold Brainfuck.setCell
  rw [dif_pos (show (bf.on t pos).mCellPos < n from t.cursor.isLt)]
  show Except.ok { bf.on t pos with
    mCells := (Vector.ofFn t.cells).set t.cursor v t.cursor.isLt } = _
  rw [hcells]
  rfl

theorem val_succ (i : Fin n) : ((i + 1 : Fin n) : Nat) = (i + 1) % n := by
  rw [Fin.val_add, Fin.val_one', Nat.add_mod_mod]

theorem val_pred (i : Fin n) : ((i - 1 : Fin n) : Nat) = (n - 1 % n + i) % n := by
  rw [Fin.val_sub, Fin.val_one']

theorem moveRight_on (hn : n < 2 ^ 63) :
    (bf.on t pos).moveCursor .right = bf.on (t.apply .right) pos := by
  have hlt := t.cursor.isLt
  unfold Brainfuck.moveCursor
  show (if (t.cursor : Nat) = n - 1 then _ else _) = _
  by_cases hlast : (t.cursor : Nat) = n - 1
  · rw [if_pos hlast]
    have hzero : ((t.cursor + 1 : Fin n) : Nat) = 0 := by
      have hn : (t.cursor : Nat) + 1 = n := by omega
      rw [val_succ, hn, Nat.mod_self]
    simp [Brainfuck.on, Config.apply, hzero]
  · rw [if_neg hlast]
    have hsucc : ((t.cursor + 1 : Fin n) : Nat) = t.cursor + 1 := by
      rw [val_succ, Nat.mod_eq_of_lt (by omega)]
    have hincr : incr (t.cursor : Nat) = t.cursor + 1 := incr_of_lt (by omega)
    simp [Brainfuck.on, Config.apply, hsucc, hincr]

theorem moveLeft_on (hn : n < 2 ^ 63) :
    (bf.on t pos).moveCursor .left = bf.on (t.apply .left) pos := by
  have hlt := t.cursor.isLt
  unfold Brainfuck.moveCursor
  show (if (t.cursor : Nat) = 0 then _ else _) = _
  by_cases hfirst : (t.cursor : Nat) = 0
  · rw [if_pos hfirst]
    have hlast : ((t.cursor - 1 : Fin n) : Nat) = n - 1 := by
      rw [val_pred, hfirst, Nat.add_zero]
      by_cases h1 : n = 1
      · rw [h1]
      · rw [Nat.mod_eq_of_lt (show 1 < n by omega), Nat.mod_eq_of_lt (by omega)]
    simp [Brainfuck.on, Config.apply, hlast]
  · rw [if_neg hfirst]
    have hpred : ((t.cursor - 1 : Fin n) : Nat) = t.cursor - 1 := by
      have hsum : n - 1 + (t.cursor : Nat) = (t.cursor - 1) + n := by omega
      rw [val_pred, Nat.mod_eq_of_lt (show 1 < n by omega), hsum, Nat.add_mod_right,
        Nat.mod_eq_of_lt (by omega)]
    have hdecr : decr (t.cursor : Nat) = t.cursor - 1 := by
      obtain ⟨i, hi⟩ : ∃ i, (t.cursor : Nat) = i + 1 := ⟨t.cursor - 1, by omega⟩
      rw [hi, decr_succ (by omega), Nat.add_sub_cancel]
    simp [Brainfuck.on, Config.apply, hpred, hdecr]

/-! ## One turn of `Run` -/

theorem dispatch_atom (hn : n < 2 ^ 63) {c : Char} {a : Atom} (ha : atomOf c = some a) :
    (bf.on t pos).dispatch c = .ok (bf.on (t.apply a) pos) := by
  unfold atomOf at ha
  split at ha <;> cases ha
  · show (bf.on t pos).cell >>= _ = _
    rw [cell_on, ok_bind]
    exact setCell_on _
  · show (bf.on t pos).cell >>= _ = _
    rw [cell_on, ok_bind]
    exact setCell_on _
  · show (bf.on t pos).cell >>= _ = _
    rw [cell_on, ok_bind]
    simp [Brainfuck.on, Config.apply]
    rfl
  · exact congrArg Except.ok (moveRight_on hn)
  · exact congrArg Except.ok (moveLeft_on hn)

/-- The characters `Run` does nothing on. -/
def IsComment (c : Char) : Prop := atomOf c = none ∧ c ≠ '[' ∧ c ≠ ']' ∧ c ≠ ','

omit [NeZero n] in
theorem dispatch_comment {c : Char} (hc : IsComment c) :
    (bf.on t pos).dispatch c = .ok (bf.on t pos) := by
  obtain ⟨hatom, hopen, hclose, hcomma⟩ := hc
  unfold Brainfuck.dispatch
  split
  · cases hatom
  · cases hatom
  · cases hatom
  · exact absurd rfl hcomma
  · exact absurd rfl hopen
  · exact absurd rfl hclose
  · cases hatom
  · cases hatom
  · rfl

omit [NeZero n] in
theorem dispatch_open_nonzero (h : t.cell ≠ 0) :
    (bf.on t pos).dispatch '[' = .ok (bf.on t pos) := by
  show (bf.on t pos).cell >>= _ = _
  rw [cell_on, ok_bind]
  simp only [if_pos h]
  rfl

omit [NeZero n] in
theorem dispatch_open_zero (h : t.cell = 0) {pos' : Nat}
    (hs : scanRight bf.mCode 1 pos = .ok pos') :
    (bf.on t pos).dispatch '[' = .ok (bf.on t pos') := by
  show (bf.on t pos).cell >>= _ = _
  rw [cell_on, ok_bind]
  simp only [h, ne_eq, not_true_eq_false, if_false]
  show (scanRight bf.mCode 1 pos >>= _) = _
  rw [hs]
  rfl

omit [NeZero n] in
theorem dispatch_close {pos' : Nat} (hs : scanLeft bf.mCode 1 (decr pos) = .ok pos') :
    (bf.on t pos).dispatch ']' = .ok (bf.on t pos') := by
  show (scanLeft bf.mCode 1 (decr pos) >>= _) = _
  rw [hs]
  rfl

omit [NeZero n] in
theorem runBody_of_step {bf' : Brainfuck n} (h : (bf.on t pos).step = .ok bf') :
    runBody (bf.on t pos) = .again bf' := by
  unfold runBody
  rw [if_pos (show (bf.on t pos).mStatus = .executing from rfl), h]

omit [NeZero n] in
/-- A turn that ends inside the code or right behind it. -/
theorem runBody_on {c : Char} {t' : Config n} {pos' q : Nat} (hc : bf.mCode.elems[pos]? = some c)
    (hd : (bf.on t pos).dispatch c = .ok (bf.on t' pos')) (hq : incr pos' = q)
    (hle : q ≤ bf.mCode.elems.length) : runBody (bf.on t pos) = .again (bf.on t' q) := by
  have hstep : (bf.on t pos).step = .ok (bf.on t' q) := by
    show (readCode bf.mCode pos >>= _) = _
    rw [readCode_of hc, ok_bind, hd, ok_bind]
    subst hq
    exact congrArg Except.ok (if_neg (Nat.not_lt.2 hle))
  exact runBody_of_step hstep

omit [NeZero n] in
/-- The last turns, behind the code. -/
theorem returns_end {r : Except Stop (Brainfuck n)} :
    Returns runBody (bf.on t bf.mCode.elems.length) r ↔ r = .ok (bf.finished t) := by
  have hd : (bf.on t bf.mCode.elems.length).dispatch '\x00' = .ok (bf.on t bf.mCode.elems.length) :=
    dispatch_comment (by unfold IsComment; decide)
  have hstep : (bf.on t bf.mCode.elems.length).step = .ok (bf.finished t) := by
    show (readCode bf.mCode bf.mCode.elems.length >>= _) = _
    rw [readCode_end, ok_bind, hd, ok_bind]
    have hincr := incr_of_lt bf.mCode.size_lt
    refine congrArg Except.ok ?_
    unfold Brainfuck.advance Brainfuck.finished Brainfuck.on
    simp [hincr]
  have hlast : runBody (bf.on t bf.mCode.elems.length) = .again (bf.finished t) :=
    runBody_of_step hstep
  rw [returns_again_iff hlast, returns_done_iff]
  rfl

/-! ## Forward: a derivation is a run -/

omit [NeZero n] in
theorem runBody_comment {c : Char} (hc : bf.mCode.elems[pos]? = some c) (hcom : IsComment c) :
    runBody (bf.on t pos) = .again (bf.on t (pos + 1)) := by
  obtain ⟨hlt, hlt'⟩ := pos_lt hc
  exact runBody_on hc (dispatch_comment hcom) (incr_of_lt hlt') hlt

theorem runBody_atom (hn : n < 2 ^ 63) {c : Char} {a : Atom} (hc : bf.mCode.elems[pos]? = some c)
    (ha : atomOf c = some a) : runBody (bf.on t pos) = .again (bf.on (t.apply a) (pos + 1)) := by
  obtain ⟨hlt, hlt'⟩ := pos_lt hc
  exact runBody_on hc (dispatch_atom hn ha) (incr_of_lt hlt') hlt

section
variable {b s : List Char} {body rest : Prog}
  (hat : At bf.mCode.elems pos ('[' :: (b ++ ']' :: s)))
include hat

omit [NeZero n] in
theorem runBody_enter (h : t.cell ≠ 0) :
    runBody (bf.on t pos) = .again (bf.on t (pos + 1)) := by
  obtain ⟨hlt, hlt'⟩ := pos_lt hat.1
  exact runBody_on hat.1 (dispatch_open_nonzero h) (incr_of_lt hlt') hlt

omit [NeZero n] in
theorem runBody_skip (hb : Spells b body) (h : t.cell = 0) :
    runBody (bf.on t pos) = .again (bf.on t (pos + 1 + b.length + 1)) := by
  obtain ⟨hopen, hrest⟩ := hat
  obtain ⟨hbody, hclose, -⟩ := at_append.1 hrest
  obtain ⟨hlt, hlt'⟩ := pos_lt hclose
  have hclose' : bf.mCode.elems[pos + b.length + 1]? = some ']' := by
    rw [← hclose]
    congr 1
    omega
  have hscan : scanRight bf.mCode 1 pos = .ok (pos + 1 + b.length) := by
    have hpos : pos + b.length + 1 = pos + 1 + b.length := by omega
    rw [scanRight_spells hb hbody Nat.one_ne_zero, scanRight_step hclose' Nat.one_ne_zero, hpos]
    exact scanRight_zero _
  exact runBody_on hopen (dispatch_open_zero h hscan) (incr_of_lt hlt') hlt

omit [NeZero n] in
theorem runBody_back (hb : Spells b body) :
    runBody (bf.on t (pos + 1 + b.length)) = .again (bf.on t pos) := by
  obtain ⟨hopen, hrest⟩ := hat
  obtain ⟨hbody, hclose, -⟩ := at_append.1 hrest
  obtain ⟨hlt, hlt'⟩ := pos_lt hopen
  have hscan : scanLeft bf.mCode 1 (decr (pos + 1 + b.length)) = .ok (decr pos) := by
    rw [scanLeft_spells hb hbody Nat.one_ne_zero, decr_succ hlt',
      scanLeft_step hopen Nat.one_ne_zero]
    exact scanLeft_zero _
  exact runBody_on hclose (dispatch_close hscan) (incr_decr hlt') (Nat.le_of_lt hlt)

end

/-- What the text of a program starts with, behind the comments. -/
def Head (s : List Char) : Prog → Prop
  | .nil => s = []
  | .atom a rest => ∃ c s', s = c :: s' ∧ atomOf c = some a ∧ Spells s' rest
  | .loop body rest => ∃ b s', s = '[' :: (b ++ ']' :: s') ∧ Spells b body ∧ Spells s' rest

omit [NeZero n] in
/-- The run passes the comments in front of a program. -/
theorem reach_head (hcomma : ',' ∉ bf.mCode.elems) {s : List Char} {p : Prog} (hs : Spells s p) :
    ∀ {pos : Nat}, At bf.mCode.elems pos s → ∃ s' pos', Reach runBody (bf.on t pos) (bf.on t pos') ∧
      Head s' p ∧ At bf.mCode.elems pos' s' ∧ pos' + s'.length = pos + s.length := by
  induction hs with
  | nil => exact fun hat => ⟨[], _, .refl _, rfl, hat, rfl⟩
  | @comment c s p hno hopen hclose _ ih =>
    intro pos hat
    have hne : c ≠ ',' := by
      rintro rfl
      exact hcomma (List.mem_of_getElem? hat.1)
    obtain ⟨s', pos', hreach, hhead, hat', hlen⟩ := ih hat.2
    have hturn := @runBody_comment _ bf t pos c hat.1 ⟨hno, hopen, hclose, hne⟩
    exact ⟨s', pos', .head hturn hreach, hhead, hat', by rw [hlen, List.length_cons]; omega⟩
  | atom ha hs => exact fun hat => ⟨_, _, .refl _, ⟨_, _, rfl, ha, hs⟩, hat, rfl⟩
  | loop hb hs => exact fun hat => ⟨_, _, .refl _, ⟨_, _, rfl, hb, hs⟩, hat, rfl⟩

theorem loop_length (pos : Nat) (b s : List Char) :
    pos + ('[' :: (b ++ ']' :: s)).length = pos + 1 + b.length + 1 + s.length := by
  simp only [List.length_cons, List.length_append]
  omega

/-- **A derivation is a run of the interpreter.** -/
theorem reach_exec (hn : n < 2 ^ 63) (hcomma : ',' ∉ bf.mCode.elems) {p : Prog} {t t' : Config n}
    (h : Exec p t t') : ∀ {s : List Char} {pos : Nat}, Spells s p → At bf.mCode.elems pos s →
      Reach runBody (bf.on t pos) (bf.on t' (pos + s.length)) := by
  induction h with
  | nil t =>
    intro s pos hs hat
    obtain ⟨s', pos', hreach, hhead, -, hlen⟩ := @reach_head _ bf t hcomma s _ hs pos hat
    subst hhead
    rw [← hlen]
    exact hreach
  | @atom a rest t t' _ ih =>
    intro s pos hs hat
    obtain ⟨s', pos', hreach, hhead, hat', hlen⟩ := @reach_head _ bf t hcomma s _ hs pos hat
    obtain ⟨c, u, rfl, ha, hu⟩ := hhead
    have hend : pos' + 1 + u.length = pos + s.length := by
      rw [← hlen, List.length_cons]
      omega
    rw [← hend]
    exact hreach.trans (.head (runBody_atom hn hat'.1 ha) (ih hu hat'.2))
  | @loopDone body rest t t' hzero _ ih =>
    intro s pos hs hat
    obtain ⟨s', pos', hreach, hhead, hat', hlen⟩ := @reach_head _ bf t hcomma s _ hs pos hat
    obtain ⟨b, u, rfl, hb, hu⟩ := hhead
    have hatu := (at_append.1 hat'.2).2.2
    rw [← hlen, loop_length]
    exact hreach.trans (.head (runBody_skip hat' hb hzero) (ih hu hatu))
  | @loopAgain body rest t t₁ t' hne _ _ ihb ihr =>
    intro s pos hs hat
    obtain ⟨s', pos', hreach, hhead, hat', hlen⟩ := @reach_head _ bf t hcomma s _ hs pos hat
    obtain ⟨b, u, rfl, hb, hu⟩ := hhead
    have hatb := (at_append.1 hat'.2).1
    rw [← hlen]
    calc Reach runBody (bf.on t pos) (bf.on t pos') := hreach
      Reach runBody _ (bf.on t (pos' + 1)) := .single (runBody_enter hat' hne)
      Reach runBody _ (bf.on t₁ (pos' + 1 + b.length)) := ihb hb hatb
      Reach runBody _ (bf.on t₁ pos') := .single (runBody_back hat' hb)
      Reach runBody _ _ := ihr (.loop hb hu) hat'

/-! ## Backward: a run that ends has a derivation -/

/-- **A run that ends passes the end of every program it enters, and has a
derivation of it.** -/
theorem exec_of_iterate (hn : n < 2 ^ 63) (hcomma : ',' ∉ bf.mCode.elems)
    {r : Except Stop (Brainfuck n)} (k : Nat) :
    ∀ {p : Prog} {s : List Char} {pos : Nat} {t : Config n}, Spells s p →
      At bf.mCode.elems pos s → iterate runBody k (bf.on t pos) = some r →
      ∃ t' k', Exec p t t' ∧ k' ≤ k ∧ iterate runBody k' (bf.on t' (pos + s.length)) = some r := by
  -- on the fuel: every turn but the last ones leaves less of it
  induction k using Nat.strongRecOn with
  | ind k ih =>
    intro p s pos t hs hat hrun
    obtain ⟨s', pos', hreach, hhead, hat', hlen⟩ := @reach_head _ bf t hcomma s _ hs pos hat
    obtain ⟨k₁, hk₁, hrun₁⟩ := hreach.iterate hrun
    rw [← hlen]
    cases p with
    | nil =>
      subst hhead
      exact ⟨t, k₁, .nil t, hk₁, hrun₁⟩
    | atom a rest =>
      obtain ⟨c, u, rfl, ha, hu⟩ := hhead
      obtain ⟨k₂, hk₂, hrun₂⟩ := iterate_again (runBody_atom hn hat'.1 ha) hrun₁
      obtain ⟨t', k', hexec, hk', hrun'⟩ := ih k₂ (by omega) hu hat'.2 hrun₂
      have hend : pos' + (c :: u).length = pos' + 1 + u.length := by
        rw [List.length_cons]
        omega
      exact ⟨t', k', .atom hexec, by omega, by rwa [hend]⟩
    | loop body rest =>
      obtain ⟨b, u, rfl, hb, hu⟩ := hhead
      obtain ⟨hatb, -, hatu⟩ := at_append.1 hat'.2
      by_cases hzero : t.cell = 0
      · obtain ⟨k₂, hk₂, hrun₂⟩ := iterate_again (runBody_skip hat' hb hzero) hrun₁
        obtain ⟨t', k', hexec, hk', hrun'⟩ := ih k₂ (by omega) hu hatu hrun₂
        exact ⟨t', k', .loopDone hzero hexec, by omega, by rwa [loop_length]⟩
      · obtain ⟨k₂, hk₂, hrun₂⟩ := iterate_again (runBody_enter hat' hzero) hrun₁
        obtain ⟨t₁, k₃, hbody, hk₃, hrun₃⟩ := ih k₂ (by omega) hb hatb hrun₂
        obtain ⟨k₄, hk₄, hrun₄⟩ := iterate_again (runBody_back hat' hb) hrun₃
        obtain ⟨t', k', hexec, hk', hrun'⟩ := ih k₄ (by omega) (.loop hb hu) hat' hrun₄
        exact ⟨t', k', .loopAgain hzero hbody hexec, by omega, hrun'⟩

end

/-! ## A fresh object -/

instance : NeZero kMaxCells := ⟨by decide⟩

/-- The tape of a fresh object. -/
def Config.fresh : Config kMaxCells := { cursor := 0 }

/-- The object the constructor makes, with `str` for its code. -/
def load (str : Sized Char) : Brainfuck kMaxCells := Brainfuck.fromString {} str

theorem cells_fresh : Vector.ofFn Config.fresh.cells = Vector.replicate kMaxCells 0 := by
  ext i hi : 1
  rw [Vector.getElem_ofFn, Vector.getElem_replicate]
  rfl

theorem on_fresh (str : Sized Char) :
    { load str with mStatus := .executing } = (load str).on .fresh 0 := by
  unfold Brainfuck.on
  rw [cells_fresh]
  rfl

/-- **`Run` is the reference semantics.**  On a properly nested text without `,`, `Run`
ends exactly when the parsed program does, and then in the state the program leaves;
no turn on the way reads `mCode` out of bounds or stops otherwise. -/
theorem run_iff_exec (str : Sized Char) (hnest : nested 0 str.elems = true)
    (hcomma : ',' ∉ str.elems) :
    ∃ p, parse str.elems = some p ∧
      (∀ r, Run (load str) r ↔ ∃ t, Exec p .fresh t ∧ r = .ok ((load str).finished t)) ∧
      ∀ bf e, Reach runBody { load str with mStatus := .executing } bf →
        runBody bf ≠ .done (.error e) := by
  obtain ⟨p, hp⟩ := (parse_isSome_iff _).1 hnest
  have hspells := spells_of_parse hp
  have hat : At (load str).mCode.elems 0 str.elems := at_zero [] str.elems
  have hn : kMaxCells < 2 ^ 63 := by decide
  have hiff : ∀ r, Run (load str) r ↔ ∃ t, Exec p .fresh t ∧ r = .ok ((load str).finished t) := by
    intro r
    unfold Run
    rw [on_fresh]
    constructor
    · rintro ⟨k, hk⟩
      obtain ⟨t, k', hexec, -, hrun⟩ := exec_of_iterate hn hcomma k hspells hat hk
      rw [Nat.zero_add] at hrun
      exact ⟨t, hexec, returns_end.1 ⟨k', hrun⟩⟩
    · rintro ⟨t, hexec, rfl⟩
      have hreach := reach_exec hn hcomma hexec hspells hat
      rw [Nat.zero_add] at hreach
      exact hreach.returns_iff.2 (returns_end.2 rfl)
  refine ⟨p, hp, hiff, fun bf e hreach hdone => ?_⟩
  have hrun : Run (load str) (.error e) := hreach.returns_iff.2 (returns_of_done hdone)
  obtain ⟨t, -, h⟩ := (hiff _).1 hrun
  cases h

/-- `+[-]` with a comment: one turn of the loop. -/
theorem run_iff_exec_loop : ∃ t, t.cell = 0 ∧ Run (load ⟨"a+[-]".toList, by decide⟩)
    (.ok ((load ⟨"a+[-]".toList, by decide⟩).finished t)) := by
  obtain ⟨p, hp, hiff, -⟩ := run_iff_exec ⟨"a+[-]".toList, by decide⟩ (by decide) (by decide)
  have hparse : parse "a+[-]".toList = some (.atom .incr (.loop (.atom .decr .nil) .nil)) := by
    decide
  rw [hparse] at hp
  cases hp
  have hexec : Exec (.atom .incr (.loop (.atom .decr .nil) .nil)) .fresh
      ((Config.fresh.apply .incr).apply .decr) :=
    .atom (.loopAgain (by decide) (.atom (.nil _)) (.loopDone (by decide) (.nil _)))
  exact ⟨_, by decide, (hiff _).2 ⟨_, hexec, rfl⟩⟩

end Bfi
