import Mathlib.Data.List.Induction
import Mathlib.Data.List.Perm.Basic
import Mathlib.Tactic.Common

/-!
# The rendezvous (`section_3_3` of `misc/lbos.cc`)

Two threads print a statement, tell the other one through its semaphore, wait for their own
and print a second statement; the one signals before it waits and the other behind.  In every
interleaving both first statements come before both second ones, neither thread waits for
ever, and what is printed in the end is any of the four texts that this allows
(`rendez_vous_prints_iff`).  A statement and its `std::endl` are printed in one step here; in
the code they are two writes.
-/

namespace Lbos

namespace Rendezvous

/-! ## The code -/

/-- The statements of the threads `a` and `b`. -/
inductive Statement
  | a1
  | a2
  | b1
  | b2
deriving DecidableEq

/-- What a thread does next. -/
inductive Next
  | first
  | signal
  | wait
  | second
  | nothing
deriving DecidableEq

/-- The semaphores, the threads and what they have printed. -/
structure Meeting where
  sa : Int64
  sb : Int64
  a : Next
  b : Next
  printed : List Statement
deriving DecidableEq

def start : Meeting := { sa := 0, sb := 0, a := .first, b := .first, printed := [] }

/-- `ta`; `cout << text << endl` is one step. -/
def stepA (s : Meeting) : Meeting :=
  match s.a with
  | .first => { s with a := .signal, printed := s.printed ++ [.a1] }
  | .signal => { s with a := .wait, sb := s.sb + 1 }
  | .wait => if s.sa ≤ 0 then s else { s with a := .second }
  | .second => { s with a := .nothing, printed := s.printed ++ [.a2] }
  | .nothing => s

/-- `tb`; `cout << text << endl` is one step. -/
def stepB (s : Meeting) : Meeting :=
  match s.b with
  | .first => { s with b := .wait, printed := s.printed ++ [.b1] }
  | .wait => if s.sb ≤ 0 then s else { s with b := .signal }
  | .signal => { s with b := .second, sa := s.sa + 1 }
  | .second => { s with b := .nothing, printed := s.printed ++ [.b2] }
  | .nothing => s

/-- The next step is one of `ta`, or one of `tb`. -/
inductive Thread
  | ta
  | tb
deriving DecidableEq

def step (s : Meeting) : Thread → Meeting
  | .ta => stepA s
  | .tb => stepB s

def run (schedule : List Thread) : Meeting := schedule.foldl step start

/-! ## What a step keeps -/

/-- The first statements that a thread in front of its second part has printed. -/
def firsts (s : Meeting) : List Statement :=
  (if s.a = .first then [] else [.a1]) ++ if s.b = .first then [] else [.b1]

/-- The second statements of the threads that are through. -/
def seconds (s : Meeting) : List Statement :=
  (if s.a = .nothing then [.a2] else []) ++ if s.b = .nothing then [.b2] else []

/-- The semaphores say how far the threads are, and the first statements come first. -/
structure Invariant (s : Meeting) : Prop where
  sb_eq : s.sb = if s.a = .first ∨ s.a = .signal then 0 else 1
  sa_eq : s.sa = if s.b = .second ∨ s.b = .nothing then 1 else 0
  behind_a : s.a = .second ∨ s.a = .nothing → s.b = .second ∨ s.b = .nothing
  behind_b : s.b = .signal ∨ s.b = .second ∨ s.b = .nothing → s.a ≠ .first ∧ s.a ≠ .signal
  printed : ∃ early late, s.printed = early ++ late ∧ early.Perm (firsts s) ∧
    late.Perm (seconds s)

theorem invariant_start : Invariant start where
  sb_eq := rfl
  sa_eq := rfl
  behind_a := by decide
  behind_b := by decide
  printed := ⟨[], [], rfl, .nil, .nil⟩

/-- A first statement is printed while there is no second one. -/
theorem printed_first {printed early late : List Statement} {s s' : Meeting} {x : Statement}
    (hprinted : printed = early ++ late) (hearly : early.Perm (firsts s))
    (hlate : late.Perm (seconds s)) (hnone : seconds s = []) (hnone' : seconds s' = [])
    (hfirst : (firsts s').Perm (x :: firsts s)) :
    ∃ early' late', printed ++ [x] = early' ++ late' ∧ early'.Perm (firsts s') ∧
      late'.Perm (seconds s') := by
  rw [hnone] at hlate
  rw [hlate.eq_nil, List.append_nil] at hprinted
  refine ⟨early ++ [x], [], ?_, ?_, ?_⟩
  · rw [hprinted, List.append_nil]
  · exact (List.perm_append_singleton x early).trans ((hearly.cons x).trans hfirst.symm)
  · rw [hnone']

/-- A second one is printed behind all others. -/
theorem printed_second {printed early late : List Statement} {s s' : Meeting} {x : Statement}
    (hprinted : printed = early ++ late) (hearly : early.Perm (firsts s))
    (hlate : late.Perm (seconds s)) (hfirst : firsts s' = firsts s)
    (hsecond : (seconds s').Perm (x :: seconds s)) :
    ∃ early' late', printed ++ [x] = early' ++ late' ∧ early'.Perm (firsts s') ∧
      late'.Perm (seconds s') := by
  refine ⟨early, late ++ [x], ?_, ?_, ?_⟩
  · rw [hprinted, List.append_assoc]
  · rw [hfirst]
    exact hearly
  · exact (List.perm_append_singleton x late).trans ((hlate.cons x).trans hsecond.symm)

theorem Invariant.stepA {s : Meeting} (h : Invariant s) : Invariant (stepA s) := by
  obtain ⟨hsb, hsa, ha, hb, early, late, hprinted, hearly, hlate⟩ := h
  unfold Rendezvous.stepA
  cases hplace : s.a with
  | first =>
    have hbehind : ¬ (s.b = .signal ∨ s.b = .second ∨ s.b = .nothing) := by
      intro h
      exact (hb h).1 hplace
    push Not at hbehind
    obtain ⟨hb1, hb2, hb3⟩ := hbehind
    refine ⟨?_, ?_, ?_, ?_, ?_⟩
    · simpa [hplace] using hsb
    · simpa [hb2, hb3] using hsa
    · intro h
      simp at h
    · intro h
      simp [hb1, hb2, hb3] at h
    · apply printed_first hprinted hearly hlate
      · simp [seconds, hplace, hb3]
      · simp [seconds, hb3]
      · simp [firsts, hplace]
  | signal =>
    have hbehind : ¬ (s.b = .signal ∨ s.b = .second ∨ s.b = .nothing) := by
      intro h
      exact (hb h).2 hplace
    push Not at hbehind
    obtain ⟨hb1, hb2, hb3⟩ := hbehind
    refine ⟨?_, ?_, ?_, ?_, early, late, hprinted, ?_, ?_⟩
    · simp [hsb, hplace]
    · simpa [hb2, hb3] using hsa
    · intro h
      simp at h
    · intro h
      simp [hb1, hb2, hb3] at h
    · simpa [firsts, hplace] using hearly
    · simpa [seconds, hplace] using hlate
  | wait =>
    show Invariant (if s.sa ≤ 0 then s else _)
    split
    · exact ⟨hsb, hsa, ha, hb, early, late, hprinted, hearly, hlate⟩
    · next hpos =>
      have hbehind : s.b = .second ∨ s.b = .nothing := by
        by_contra hno
        rw [if_neg hno] at hsa
        rw [hsa] at hpos
        exact hpos (by decide)
      refine ⟨?_, ?_, ?_, ?_, early, late, hprinted, ?_, ?_⟩
      · simpa [hplace] using hsb
      · simpa using hsa
      · exact fun _ => hbehind
      · intro _
        simp
      · simpa [firsts, hplace] using hearly
      · simpa [seconds, hplace] using hlate
  | second =>
    have hbehind := ha (.inl hplace)
    refine ⟨?_, ?_, ?_, ?_, ?_⟩
    · simpa [hplace] using hsb
    · simpa using hsa
    · exact fun _ => hbehind
    · intro _
      simp
    · apply printed_second hprinted hearly hlate
      · simp [firsts, hplace]
      · simp [seconds, hplace]
  | nothing => exact ⟨hsb, hsa, ha, hb, early, late, hprinted, hearly, hlate⟩

theorem Invariant.stepB {s : Meeting} (h : Invariant s) : Invariant (stepB s) := by
  obtain ⟨hsb, hsa, ha, hb, early, late, hprinted, hearly, hlate⟩ := h
  unfold Rendezvous.stepB
  -- `ta` is not in its second part while `tb` is in front of its own
  have hfront : s.b ≠ .second → s.b ≠ .nothing → s.a ≠ .second ∧ s.a ≠ .nothing := by
    intro h1 h2
    refine ⟨fun h => ?_, fun h => ?_⟩
    · exact (ha (.inl h)).elim h1 h2
    · exact (ha (.inr h)).elim h1 h2
  cases hplace : s.b with
  | first =>
    obtain ⟨ha1, ha2⟩ := hfront (by simp [hplace]) (by simp [hplace])
    refine ⟨?_, ?_, ?_, ?_, ?_⟩
    · simpa using hsb
    · simpa [hplace] using hsa
    · intro h
      simp [ha1, ha2] at h
    · intro h
      simp at h
    · apply printed_first hprinted hearly hlate
      · simp [seconds, hplace, ha2]
      · simp [seconds, ha2]
      · simp only [firsts, hplace, if_true, List.append_nil]
        split
        · exact .refl _
        · exact .swap _ _ _
  | wait =>
    obtain ⟨ha1, ha2⟩ := hfront (by simp [hplace]) (by simp [hplace])
    show Invariant (if s.sb ≤ 0 then s else _)
    split
    · exact ⟨hsb, hsa, ha, hb, early, late, hprinted, hearly, hlate⟩
    · next hpos =>
      have hbehind : ¬ (s.a = .first ∨ s.a = .signal) := by
        intro h
        rw [if_pos h] at hsb
        rw [hsb] at hpos
        exact hpos (by decide)
      refine ⟨?_, ?_, ?_, ?_, early, late, hprinted, ?_, ?_⟩
      · simpa using hsb
      · simpa [hplace] using hsa
      · intro h
        simp [ha1, ha2] at h
      · intro _
        push Not at hbehind
        exact hbehind
      · simpa [firsts, hplace] using hearly
      · simpa [seconds, hplace] using hlate
  | signal =>
    refine ⟨?_, ?_, ?_, ?_, early, late, hprinted, ?_, ?_⟩
    · simpa using hsb
    · simp [hsa, hplace]
    · exact fun _ => .inl rfl
    · exact fun _ => hb (.inl hplace)
    · simpa [firsts, hplace] using hearly
    · simpa [seconds, hplace] using hlate
  | second =>
    refine ⟨?_, ?_, ?_, ?_, ?_⟩
    · simpa using hsb
    · simpa [hplace] using hsa
    · exact fun _ => .inr rfl
    · exact fun _ => hb (.inr (.inl hplace))
    · apply printed_second hprinted hearly hlate
      · simp [firsts, hplace]
      · simp only [seconds, hplace, if_true]
        split
        · exact .swap _ _ _
        · exact .refl _
  | nothing => exact ⟨hsb, hsa, ha, hb, early, late, hprinted, hearly, hlate⟩

theorem invariant_run (schedule : List Thread) : Invariant (run schedule) := by
  unfold run
  induction schedule using List.reverseRecOn with
  | nil => exact invariant_start
  | append_singleton schedule t ih =>
    rw [List.foldl_append, List.foldl_cons, List.foldl_nil]
    cases t with
    | ta => exact ih.stepA
    | tb => exact ih.stepB

/-! ## Runs -/

/-- Both threads are through. -/
def Met (s : Meeting) : Prop := s.a = .nothing ∧ s.b = .nothing

/-- The first statements in either order, and behind them the second ones. -/
def Text (printed : List Statement) : Prop :=
  ∃ early late, printed = early ++ late ∧ early.Perm [.a1, .b1] ∧ late.Perm [.a2, .b2]

/-- In front of a second statement are both first ones. -/
theorem Invariant.order {s : Meeting} (h : Invariant s) {pre post : List Statement}
    {x : Statement} (hprinted : s.printed = pre ++ x :: post) (hx : x = .a2 ∨ x = .b2) :
    .a1 ∈ pre ∧ .b1 ∈ pre := by
  obtain ⟨early, late, hsplit, hearly, hlate⟩ := h.printed
  -- a second statement is none of the early ones
  have hnot : x ∉ early := by
    intro hmem
    have hfirst := hearly.subset hmem
    simp only [firsts, List.mem_append] at hfirst
    rcases hx with rfl | rfl <;> split at hfirst <;> split at hfirst <;> simp at hfirst
  have hearlier : early <+: pre := by
    rw [hsplit] at hprinted
    rcases List.append_eq_append_iff.1 hprinted with ⟨t, rfl, -⟩ | ⟨t, ht, hrest⟩
    · exact List.prefix_append early t
    · cases t with
      | nil =>
        rw [List.append_nil] at ht
        subst ht
        exact List.prefix_refl early
      | cons y t =>
        obtain ⟨rfl, -⟩ := List.cons.inj hrest
        exact absurd (by rw [ht]; simp) hnot
  -- and there is one only when both threads are behind their first
  have hlater : s.a = .nothing ∨ s.b = .nothing := by
    by_contra hno
    push Not at hno
    have hnil : seconds s = [] := by simp [seconds, hno.1, hno.2]
    rw [hnil] at hlate
    rw [hlate.eq_nil, List.append_nil] at hsplit
    have hmem : x ∈ early := by
      rw [← hsplit, hprinted]
      simp
    exact hnot hmem
  have hboth : s.a ≠ .first ∧ s.b ≠ .first := by
    rcases hlater with ha | hb
    · have hb := h.behind_a (.inr ha)
      refine ⟨by simp [ha], ?_⟩
      rcases hb with hb | hb <;> simp [hb]
    · exact ⟨(h.behind_b (.inr (.inr hb))).1, by simp [hb]⟩
  have hall : firsts s = [.a1, .b1] := by simp [firsts, hboth.1, hboth.2]
  rw [hall] at hearly
  exact ⟨hearlier.subset (hearly.symm.subset (by simp)),
    hearlier.subset (hearly.symm.subset (by simp))⟩

/-- Eight more steps are enough, from anywhere. -/
theorem Invariant.finish {s : Meeting} (h : Invariant s) :
    Met ([Thread.ta, .ta, .tb, .tb, .tb, .tb, .ta, .ta].foldl step s) := by
  obtain ⟨sa, sb, a, b, printed⟩ := s
  have hsb : sb = if a = .first ∨ a = .signal then 0 else 1 := h.sb_eq
  have hsa : sa = if b = .second ∨ b = .nothing then 1 else 0 := h.sa_eq
  clear h
  subst hsa hsb
  have hzero : ¬ (1 : Int64) ≤ 0 := by decide
  cases a <;> cases b <;> simp [Met, step, Rendezvous.stepA, Rendezvous.stepB, hzero]

theorem perm_pair {x y : Statement} {xs : List Statement} (h : xs.Perm [x, y]) :
    xs = [x, y] ∨ xs = [y, x] := by
  have hlen := h.length_eq
  obtain ⟨u, v, rfl⟩ := List.length_eq_two.1 hlen
  have hu : u ∈ [x, y] := h.subset List.mem_cons_self
  rcases List.mem_cons.1 hu with rfl | hu
  · have hv := (List.perm_cons u).1 h
    rw [List.perm_singleton.1 hv]
    exact .inl rfl
  · obtain rfl := List.mem_singleton.1 hu
    have hv := (List.perm_cons u).1 (h.trans (.swap u x []))
    rw [List.perm_singleton.1 hv]
    exact .inr rfl

/-- **Both first statements are in front of both second ones**, no thread waits for ever, and
the texts printed in the end are those four. -/
theorem rendez_vous_prints_iff :
    (∀ schedule : List Thread,
      (∀ pre x post, (run schedule).printed = pre ++ x :: post → x = .a2 ∨ x = .b2 →
        .a1 ∈ pre ∧ .b1 ∈ pre) ∧
      ∃ more, Met (run (schedule ++ more))) ∧
    ∀ printed, (∃ schedule, Met (run schedule) ∧ (run schedule).printed = printed) ↔
      Text printed := by
  refine ⟨fun schedule => ⟨?_, ?_⟩, fun printed => ⟨?_, ?_⟩⟩
  · intro pre x post
    exact (invariant_run schedule).order
  · refine ⟨[.ta, .ta, .tb, .tb, .tb, .tb, .ta, .ta], ?_⟩
    unfold run
    rw [List.foldl_append]
    exact (invariant_run schedule).finish
  · rintro ⟨schedule, ⟨ha, hb⟩, rfl⟩
    obtain ⟨early, late, hprinted, hearly, hlate⟩ := (invariant_run schedule).printed
    refine ⟨early, late, hprinted, ?_, ?_⟩
    · simpa [firsts, ha, hb] using hearly
    · simpa [seconds, ha, hb] using hlate
  · rintro ⟨early, late, rfl, hearly, hlate⟩
    rcases perm_pair hearly with rfl | rfl <;> rcases perm_pair hlate with rfl | rfl
    · exact ⟨[.ta, .tb, .ta, .tb, .tb, .ta, .ta, .tb], ⟨rfl, rfl⟩, rfl⟩
    · exact ⟨[.ta, .tb, .ta, .tb, .tb, .ta, .tb, .ta], ⟨rfl, rfl⟩, rfl⟩
    · exact ⟨[.tb, .ta, .ta, .tb, .tb, .ta, .ta, .tb], ⟨rfl, rfl⟩, rfl⟩
    · exact ⟨[.tb, .ta, .ta, .tb, .tb, .ta, .tb, .ta], ⟨rfl, rfl⟩, rfl⟩

end Rendezvous

end Lbos
