import Sprawl.Brainfuck.Validate

/-!
# The two scans agree

`JumpLBrack` counts forward from a `[` and stops on a `]`; `JumpRBrack` counts backward from
a `]` and stops one place in front of a `[`, which `Run` makes good.  Both find their partner
exactly when the text between the two is nested, whatever stands around it:

    scanRight from i stops on j ↔ Balanced between ↔ scanLeft from j stops in front of i
                                                        (scanRight_iff, scanLeft_iff)
-/

namespace Bfi

open Cxx Loop Brackets

/-- The text strictly between two positions. -/
def between (code : Sized Char) (i j : Nat) : List Char := (code.elems.take j).drop (i + 1)

section
variable {n : Nat} (bf : Brainfuck n)

/-- `JumpLBrack` ends on `j`. -/
def Brainfuck.StopsOn (j : Nat) : Prop := ∃ bf', bf.jumpLBrack = .ok bf' ∧ bf'.mCodePos = j

/-- `JumpRBrack` ends so that the next turn of `Run` executes `i`. -/
def Brainfuck.ReturnsTo (i : Nat) : Prop :=
  ∃ bf', bf.jumpRBrack = .ok bf' ∧ bf'.advance.mStatus = .executing ∧ bf'.advance.mCodePos = i

end

/-! ## The scans -/

section
variable {code : Sized Char} {k : Nat}

/-- Forward, with `k` more brackets open than the one the scan started on. -/
theorem scanRight_iff {pre b post : List Char} (hcode : code.elems = pre ++ (b ++ ']' :: post))
    {pos : Nat} (hpos : pos + 1 = pre.length) :
    scanRight code (k + 1) pos = .ok (pos + 1 + b.length) ↔
      Above bracket k b ∧ k + depth bracket b = 0 := by
  induction b generalizing pre pos k with
  | nil =>
    have hread : code.elems[pos + 1]? = some ']' := by
      rw [hcode, hpos]
      simp
    rw [scanRight_step hread (Nat.succ_ne_zero k), above_nil, depth_nil]
    show scanRight code k (pos + 1) = .ok (pos + 1) ↔ _
    cases k with
    | zero => exact iff_of_true (scanRight_zero _) ⟨Int.le_refl _, rfl⟩
    | succ k =>
      refine iff_of_false (fun h => ?_) (fun h => by omega)
      -- the scan goes on, and only forward
      rcases @scanRight_cases code k (pre ++ [']']) post (by rw [hcode]; simp) (pos + 1)
        (by rw [List.length_append, hpos, List.length_singleton]) with
        ⟨-, hout⟩ | ⟨-, j, hj, hlt, -⟩
      · rw [hout] at h
        cases h
      · rw [hj] at h
        cases h
        exact Nat.lt_irrefl _ hlt
  | cons c b ih =>
    have hread : code.elems[pos + 1]? = some c := by
      rw [hcode, hpos]
      simp
    have hskip := skipRight_eq c k
    rw [scanRight_step hread (Nat.succ_ne_zero k), above_cons,
      and_iff_right (Int.natCast_nonneg k), depth_cons, List.length_cons]
    cases hk : skipRight c (k + 1) with
    | zero =>
      refine iff_of_false (fun h => ?_) (fun h => ?_)
      · rw [scanRight_zero] at h
        have hend := Except.ok.inj h
        omega
      · have hnonneg := above_nonneg h.1
        omega
    | succ k' =>
      have hnext : (k : Int) + bracket c = k' := by omega
      have hlen : pos + 1 + 1 = (pre ++ [c]).length := by
        rw [List.length_append, hpos, List.length_singleton]
      have hend : pos + 1 + (b.length + 1) = pos + 1 + 1 + b.length := by omega
      rw [← Int.add_assoc, hnext, hend]
      exact ih (show code.elems = (pre ++ [c]) ++ (b ++ ']' :: post) by rw [hcode]; simp) hlen

theorem decr_inj {i j : Nat} (hi : i < 2 ^ 64) (hj : j < 2 ^ 64) (h : decr i = decr j) : i = j := by
  unfold decr at h
  omega

/-- Backward; `r` is the text between, from its end. -/
theorem scanLeft_iff {pre r post : List Char}
    (hcode : code.elems = pre ++ '[' :: (r.reverse ++ post)) :
    scanLeft code (k + 1) (decr (pre.length + 1 + r.length)) = .ok (decr pre.length) ↔
      Above (fun c => -bracket c) k r ∧ k + depth (fun c => -bracket c) r = 0 := by
  have hsize := code.size_lt
  have hcount : code.elems.length = pre.length + (r.length + post.length + 1) := by
    rw [hcode]
    simp
  induction r generalizing post k with
  | nil =>
    have hread : code.elems[pre.length]? = some '[' := by
      rw [hcode]
      simp
    rw [List.length_nil, Nat.add_zero, decr_succ (pos_lt hread).2,
      scanLeft_step hread (Nat.succ_ne_zero k), above_nil, depth_nil]
    show scanLeft code k (decr pre.length) = .ok (decr pre.length) ↔ _
    cases k with
    | zero => exact iff_of_true (scanLeft_zero _) ⟨Int.le_refl _, rfl⟩
    | succ k =>
      refine iff_of_false (fun h => ?_) (fun h => by omega)
      rcases @scanLeft_cases code k pre.reverse ('[' :: post) (by rw [hcode]; simp) with
        ⟨-, hout⟩ | ⟨-, i, hi, hlt⟩
      · rw [List.length_reverse] at hout
        rw [hout] at h
        cases h
      · rw [List.length_reverse] at hi hlt
        rw [hi] at h
        have hsame := decr_inj (by omega) (by omega) (Except.ok.inj h)
        omega
  | cons c r ih =>
    have hread : code.elems[pre.length + 1 + r.length]? = some c := by
      have hfront : code.elems = (pre ++ '[' :: r.reverse) ++ c :: post := by
        rw [hcode]
        simp
      have hlen : pre.length + 1 + r.length = (pre ++ '[' :: r.reverse).length := by
        simp
        omega
      rw [hfront, hlen]
      simp
    have hskip := skipLeft_eq c k
    rw [List.length_cons] at hcount
    rw [List.length_cons, ← Nat.add_assoc, decr_succ (pos_lt hread).2,
      scanLeft_step hread (Nat.succ_ne_zero k), above_cons,
      and_iff_right (Int.natCast_nonneg k), depth_cons]
    cases hk : skipLeft c (k + 1) with
    | zero =>
      refine iff_of_false (fun h => ?_) (fun h => ?_)
      · rw [scanLeft_zero] at h
        have hsame := decr_inj (by omega) (by omega) (Except.ok.inj h)
        omega
      · have hnonneg := above_nonneg h.1
        omega
    | succ k' =>
      have hnext : (k : Int) + -bracket c = k' := by omega
      rw [← Int.add_assoc, hnext]
      refine ih (show code.elems = pre ++ '[' :: (r.reverse ++ c :: post) by rw [hcode]; simp) ?_
      rw [hcode]
      simp

end

/-! ## The jumps -/

theorem between_split {code : Sized Char} {i j : Nat} (hlt : i < j)
    (hopen : code.elems[i]? = some '[') (hclose : code.elems[j]? = some ']') :
    ∃ pre post, code.elems = pre ++ '[' :: (between code i j ++ ']' :: post) ∧
      pre.length = i ∧ i + 1 + (between code i j).length = j := by
  have hi := (List.getElem?_eq_some_iff.1 hopen).1
  have hj := (List.getElem?_eq_some_iff.1 hclose).1
  have hfront : (code.elems.take j)[i]? = some '[' := by rw [List.getElem?_take_of_lt hlt, hopen]
  refine ⟨code.elems.take i, code.elems.drop (j + 1), ?_, ?_, ?_⟩
  · conv_lhs => rw [split_at hclose, split_at hfront]
    rw [List.take_take, Nat.min_eq_left (Nat.le_of_lt hlt)]
    simp [between]
  · rw [List.length_take]
    omega
  · rw [between, List.length_drop, List.length_take]
    omega

section
variable {n : Nat} {bf : Brainfuck n}

theorem stopsOn_iff (hzero : bf.cell = .ok 0) (j : Nat) :
    bf.StopsOn j ↔ scanRight bf.mCode 1 bf.mCodePos = .ok j := by
  unfold Brainfuck.StopsOn
  rw [jumpLBrack_zero hzero]
  cases scanRight bf.mCode 1 bf.mCodePos with
  | error e => simp [Except.map]
  | ok pos => simp [Except.map]

theorem advance_decr {j : Nat} (hj : j < bf.mCode.elems.length) :
    ({ bf with mCodePos := decr j } : Brainfuck n).advance = { bf with mCodePos := j } := by
  have hsize := bf.mCode.size_lt
  have hback : incr (decr j) = j := incr_decr (by omega)
  unfold Brainfuck.advance
  simp only [hback]
  exact if_neg (by omega)

theorem returnsTo_iff (hrun : bf.mStatus = .executing)
    (hclose : bf.mCode.elems[bf.mCodePos]? = some ']') {i : Nat} (hi : i < 2 ^ 64) :
    bf.ReturnsTo i ↔ scanLeft bf.mCode 1 (decr bf.mCodePos) = .ok (decr i) := by
  have hsize := bf.mCode.size_lt
  unfold Brainfuck.ReturnsTo
  rw [jumpRBrack_eq]
  rcases scanLeft_at (pos_lt hclose).1 with ⟨-, j, hj, hlt⟩ | ⟨-, hout⟩
  · rw [hj]
    constructor
    · rintro ⟨bf', hjump, -, hpos⟩
      obtain rfl := Except.ok.inj hjump
      rw [advance_decr hlt] at hpos
      rw [← hpos]
    · intro h
      obtain rfl := decr_inj (by omega) hi (Except.ok.inj h)
      refine ⟨_, rfl, ?_⟩
      rw [advance_decr hlt]
      exact ⟨hrun, rfl⟩
  · rw [hout]
    refine iff_of_false ?_ (fun h => by cases h)
    rintro ⟨bf', hjump, -⟩
    cases hjump

end

/-- **A jump and the one back are partners exactly when the text between them is nested.** -/
theorem partners_iff {n : Nat} (l r : Brainfuck n) (hcode : r.mCode = l.mCode)
    (hlt : l.mCodePos < r.mCodePos) (hopen : l.mCode.elems[l.mCodePos]? = some '[')
    (hclose : r.mCode.elems[r.mCodePos]? = some ']') (hzero : l.cell = .ok 0)
    (hrun : r.mStatus = .executing) :
    (l.StopsOn r.mCodePos ↔ r.ReturnsTo l.mCodePos) ∧
      (l.StopsOn r.mCodePos ↔ nested 0 (between l.mCode l.mCodePos r.mCodePos) = true) := by
  have hi := (pos_lt hopen).2
  rw [stopsOn_iff hzero, returnsTo_iff hrun hclose (by omega), nested_iff_balanced, hcode]
  rw [hcode] at hclose
  obtain ⟨pre, post, hsplit, hpre, hend⟩ := between_split hlt hopen hclose
  have hright : scanRight l.mCode 1 l.mCodePos = .ok r.mCodePos ↔
      Balanced bracket (between l.mCode l.mCodePos r.mCodePos) := by
    have hfront : l.mCode.elems =
        (pre ++ ['[']) ++ (between l.mCode l.mCodePos r.mCodePos ++ ']' :: post) := by
      rw [List.append_assoc]
      exact hsplit
    have h := @scanRight_iff l.mCode 0 _ _ _ hfront l.mCodePos
      (by rw [List.length_append, hpre, List.length_singleton])
    rw [hend, above_zero_iff] at h
    exact h
  have hleft : scanLeft l.mCode 1 (decr r.mCodePos) = .ok (decr l.mCodePos) ↔
      Balanced (fun c => -bracket c) (between l.mCode l.mCodePos r.mCodePos).reverse := by
    have h := @scanLeft_iff l.mCode 0 pre (between l.mCode l.mCodePos r.mCodePos).reverse
      (']' :: post) (by rw [hsplit, List.reverse_reverse])
    rw [hpre, List.length_reverse, hend, above_zero_iff] at h
    exact h
  rw [hright, hleft, balanced_reverse_iff]
  exact ⟨Iff.rfl, Iff.rfl⟩

/-- Two loops, one in the other. -/
def loops : Sized Char := ⟨"[[]+]".toList, by decide⟩

/-- The outer brackets of the two are partners. -/
theorem partners_iff_loops :
    ((loadAt loops 0).StopsOn 4 ↔ { loadAt loops 4 with mStatus := .executing }.ReturnsTo 0) ∧
      ((loadAt loops 0).StopsOn 4 ↔ nested 0 (between loops 0 4) = true) :=
  partners_iff (loadAt loops 0) { loadAt loops 4 with mStatus := .executing } rfl (by decide)
    rfl rfl (loadAt_cell loops 0) rfl

end Bfi
