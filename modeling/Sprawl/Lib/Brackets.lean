import Mathlib

/-!
# Brackets

A text over any alphabet with a weight for each letter: 1 for an opening bracket, -1 for a
closing one, 0 for the rest.  It is `Balanced` when no prefix has more closing brackets than
opening ones, and the whole text has as many.  Read from its end, with the weights the other
way, it is balanced again (`Balanced.reverse`), so that every fact about the partner ahead is
one about the partner behind:

    Balanced w s ↔ every opening bracket is closed behind it and every closing one in
    front of it      (balanced_iff_matched)
-/

namespace Brackets

variable {α : Type*}

/-- Opening brackets minus closing ones. -/
def depth (w : α → Int) (s : List α) : Int := (s.map w).sum

/-- With `k` brackets open, no prefix closes more than there are. -/
def Above (w : α → Int) (k : Int) (s : List α) : Prop := ∀ p, p <+: s → 0 ≤ k + depth w p

structure Balanced (w : α → Int) (s : List α) : Prop where
  above : Above w 0 s
  depth_eq : depth w s = 0

/-- The bracket that stands in front of the text is closed in it. -/
def Closed (w : α → Int) (s : List α) : Prop :=
  ∃ b c post, s = b ++ c :: post ∧ Balanced w b ∧ w c = -1

section
variable {w : α → Int} {k : Int} {s : List α}

@[simp] theorem depth_nil : depth w [] = 0 := rfl

@[simp] theorem depth_cons (a : α) (s : List α) : depth w (a :: s) = w a + depth w s := by
  unfold depth
  rw [List.map_cons, List.sum_cons]

@[simp] theorem depth_append (s t : List α) : depth w (s ++ t) = depth w s + depth w t := by
  unfold depth
  rw [List.map_append, List.sum_append]

theorem depth_reverse (s : List α) : depth (fun a => -w a) s.reverse = -depth w s := by
  induction s with
  | nil => rfl
  | cons a s ih =>
    rw [List.reverse_cons, depth_append, ih, depth_cons, depth_cons, depth_nil]
    omega

theorem above_nil : Above w k [] ↔ 0 ≤ k := by
  constructor
  · intro h
    simpa using h [] List.nil_prefix
  · intro h p hp
    obtain rfl := List.prefix_nil.1 hp
    simpa using h

theorem above_cons (a : α) (s : List α) :
    Above w k (a :: s) ↔ 0 ≤ k ∧ Above w (k + w a) s := by
  constructor
  · intro h
    refine ⟨by simpa using h [] List.nil_prefix, fun p hp => ?_⟩
    have hcons := h (a :: p) (List.prefix_cons_iff.2 (.inr ⟨p, rfl, hp⟩))
    rw [depth_cons] at hcons
    omega
  · rintro ⟨hk, h⟩ p hp
    rcases List.prefix_cons_iff.1 hp with rfl | ⟨q, rfl, hq⟩
    · simpa using hk
    · have hrest := h q hq
      rw [depth_cons]
      omega

theorem Above.depth (h : Above w k s) : 0 ≤ k + depth w s := h s List.prefix_rfl

theorem Above.left {t : List α} (h : Above w k (s ++ t)) : Above w k s :=
  fun p hp => h p (hp.trans (List.prefix_append s t))

/-- The letter that falls below zero is the first that does. -/
theorem exists_fall (hw : ∀ a, -1 ≤ w a) (hk : 0 ≤ k) (h : ¬ Above w k s) :
    ∃ b c post, s = b ++ c :: post ∧ Above w k b ∧ k + depth w b = 0 ∧ w c = -1 := by
  induction s generalizing k with
  | nil => exact absurd (above_nil.2 hk) h
  | cons a s ih =>
    by_cases hfall : k + w a < 0
    · have ha := hw a
      refine ⟨[], a, s, rfl, above_nil.2 hk, ?_, ?_⟩
      · rw [depth_nil]
        omega
      · omega
    · have hrest : ¬ Above w (k + w a) s := fun hs => h ((above_cons a s).2 ⟨hk, hs⟩)
      obtain ⟨b, c, post, rfl, hb, hdepth, hc⟩ := ih (by omega) hrest
      refine ⟨a :: b, c, post, rfl, (above_cons a b).2 ⟨hk, hb⟩, ?_, hc⟩
      rw [depth_cons]
      omega

/-- A bracket is closed exactly when the text behind it falls below zero. -/
theorem closed_iff (hw : ∀ a, -1 ≤ w a) : Closed w s ↔ ¬ Above w 0 s := by
  constructor
  · rintro ⟨b, c, post, rfl, hb, hc⟩ h
    have hfall := h (b ++ [c]) ⟨post, by simp⟩
    rw [depth_append, depth_cons, depth_nil, hb.depth_eq, hc] at hfall
    omega
  · intro h
    obtain ⟨b, c, post, rfl, hb, hdepth, hc⟩ := exists_fall hw (Int.le_refl 0) h
    exact ⟨b, c, post, rfl, ⟨hb, by omega⟩, hc⟩

/-- **The text from its end.** -/
theorem Balanced.reverse (h : Balanced w s) : Balanced (fun a => -w a) s.reverse := by
  refine ⟨fun p hp => ?_, ?_⟩
  · obtain ⟨q, hq⟩ := hp
    have hs : s = q.reverse ++ p.reverse := by
      rw [← List.reverse_append, hq, List.reverse_reverse]
    have hprefix := h.above q.reverse ⟨p.reverse, hs.symm⟩
    have htotal := h.depth_eq
    rw [hs, depth_append] at htotal
    have hp := @depth_reverse _ w p.reverse
    rw [List.reverse_reverse] at hp
    omega
  · rw [depth_reverse, h.depth_eq]
    rfl

theorem balanced_reverse_iff : Balanced (fun a => -w a) s.reverse ↔ Balanced w s := by
  refine ⟨fun h => ?_, Balanced.reverse⟩
  have hback := h.reverse
  simp only [List.reverse_reverse, Int.neg_neg] at hback
  exact hback

/-- The text has as many brackets open as are closed behind it. -/
theorem closed_of_balanced (hw : ∀ a, -1 ≤ w a) {pre post : List α} {a : α}
    (h : Balanced w (pre ++ a :: post)) (ha : w a = 1) : Closed w post := by
  rw [closed_iff hw]
  intro habove
  have hpre := h.above.left.depth
  have hpost := habove.depth
  have htotal := h.depth_eq
  rw [depth_append, depth_cons] at htotal
  omega

/-- Where every closing bracket is opened before, the text stays above zero. -/
theorem above_of_closed (hw : ∀ a, -1 ≤ w a ∧ w a ≤ 1)
    (h : ∀ pre a post, s = pre ++ a :: post → w a = -1 → Closed (fun a => -w a) pre.reverse) :
    Above w 0 s := by
  by_contra hnot
  obtain ⟨b, c, post, rfl, hb, hdepth, hc⟩ := exists_fall (fun a => (hw a).1) (Int.le_refl 0) hnot
  -- what comes before the first fall is balanced, so its bracket is not opened there
  have hbalanced : Balanced w b := ⟨hb, by omega⟩
  have hneg : ∀ a, -1 ≤ -w a := fun a => by have ha := hw a; omega
  exact (closed_iff hneg).1 (h b c post rfl hc) hbalanced.reverse.above

/-- **A text is balanced exactly when every bracket in it has its partner.** -/
theorem balanced_iff_matched (hw : ∀ a, -1 ≤ w a ∧ w a ≤ 1) :
    Balanced w s ↔
      (∀ pre a post, s = pre ++ a :: post → w a = 1 → Closed w post) ∧
      ∀ pre a post, s = pre ++ a :: post → w a = -1 → Closed (fun a => -w a) pre.reverse := by
  have hneg : ∀ a, -1 ≤ -w a ∧ -w a ≤ 1 := fun a => by have ha := hw a; omega
  constructor
  · intro h
    refine ⟨?_, ?_⟩
    · rintro pre a post rfl ha
      exact closed_of_balanced (fun a => (hw a).1) h ha
    · rintro pre a post rfl ha
      have hreverse := h.reverse
      rw [List.reverse_append, List.reverse_cons, List.append_assoc] at hreverse
      exact closed_of_balanced (fun a => (hneg a).1) hreverse (show -w a = 1 by omega)
  · rintro ⟨hopen, hclose⟩
    have habove := above_of_closed hw hclose
    -- the same for the text from its end, where the opening brackets are the closing ones
    have hback : Above (fun a => -w a) 0 s.reverse := by
      refine above_of_closed hneg fun pre a post hs ha => ?_
      have hs' : s = post.reverse ++ a :: pre.reverse := by
        rw [← List.reverse_reverse s, hs]
        simp
      have hclosed := hopen _ a _ hs' (by omega)
      simpa using hclosed
    refine ⟨habove, ?_⟩
    have hle := habove.depth
    have hge := hback.depth
    rw [depth_reverse] at hge
    omega

end

end Brackets
