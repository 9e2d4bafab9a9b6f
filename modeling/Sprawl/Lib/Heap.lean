import Mathlib.Data.List.Nodup
import Mathlib.Data.List.Perm.Basic
import Mathlib.Logic.Function.Basic
import Mathlib.Tactic.Common

/-!
# Heaps

A heap has an object at each of finitely many addresses.  An address is given once, so that
a pointer to what was freed never comes to life again.

`Owns h₀ h own` says that `h` is `h₀` and apart from it the objects `own`: what a call that
started on `h₀` has to give back.  `Owns.alloc`, `Owns.set`, `Owns.free` and `Owns.get` are
the rules of the four accesses, and `Owns.trans` puts calls one behind the other.
-/

namespace Heaps

variable {α : Type}

/-- The objects at the addresses given so far, as far as they were not freed. -/
structure Heap (α : Type) where
  next : Nat
  cell : Nat → Option α
  fresh : ∀ p, next ≤ p → cell p = none

namespace Heap

def empty : Heap α := { next := 0, cell := fun _ => none, fresh := fun _ _ => rfl }

/-- The address of a new object. -/
def alloc (h : Heap α) (x : α) : Nat × Heap α :=
  (h.next,
    { next := h.next + 1
      cell := Function.update h.cell h.next (some x)
      fresh := by
        intro p hp
        rw [Function.update_of_ne (by omega)]
        exact h.fresh p (by omega) })

/-- Another object at an address where there is one. -/
def set (h : Heap α) (p : Nat) (x : α) : Option (Heap α) :=
  if hlive : (h.cell p).isSome then
    some
      { next := h.next
        cell := Function.update h.cell p (some x)
        fresh := by
          intro q hq
          have hne : q ≠ p := by
            rintro rfl
            rw [h.fresh q hq] at hlive
            cases hlive
          rw [Function.update_of_ne hne]
          exact h.fresh q hq }
  else none

/-- No object at an address where there is one. -/
def free (h : Heap α) (p : Nat) : Option (Heap α) :=
  if (h.cell p).isSome then
    some
      { next := h.next
        cell := Function.update h.cell p none
        fresh := by
          intro q hq
          by_cases hne : q = p
          · rw [hne, Function.update_self]
          · rw [Function.update_of_ne hne]
            exact h.fresh q hq }
  else none

end Heap

/-! ## What is owned -/

/-- `h` is `h₀` and the objects `own` at addresses that `h₀` had not given. -/
structure Owns (h₀ h : Heap α) (own : List (Nat × α)) : Prop where
  nodup : (own.map Prod.fst).Nodup
  le_next : h₀.next ≤ h.next
  new : ∀ q ∈ own, h₀.next ≤ q.1
  live : ∀ q ∈ own, h.cell q.1 = some q.2
  rest : ∀ p, p ∉ own.map Prod.fst → h.cell p = h₀.cell p

variable {h₀ h h' : Heap α} {own own' : List (Nat × α)} {p : Nat} {x y : α}

theorem Owns.refl (h : Heap α) : Owns h h [] where
  nodup := List.nodup_nil
  le_next := Nat.le_refl _
  new := nofun
  live := nofun
  rest _ _ := rfl

theorem Owns.perm (H : Owns h₀ h own) (hperm : own.Perm own') : Owns h₀ h own' where
  nodup := (hperm.map Prod.fst).nodup_iff.1 H.nodup
  le_next := H.le_next
  new q hq := H.new q (hperm.mem_iff.2 hq)
  live q hq := H.live q (hperm.mem_iff.2 hq)
  rest p hp := H.rest p fun hmem => hp ((hperm.map Prod.fst).mem_iff.1 hmem)

theorem Owns.get (H : Owns h₀ h own) (hmem : (p, x) ∈ own) : h.cell p = some x := H.live _ hmem

theorem Owns.lt_next (H : Owns h₀ h own) (hmem : (p, x) ∈ own) : p < h.next := by
  by_contra hle
  have hlive := H.get hmem
  rw [h.fresh p (by omega)] at hlive
  cases hlive

theorem Owns.alloc (H : Owns h₀ h own) (x : α) :
    Owns h₀ (h.alloc x).2 (((h.alloc x).1, x) :: own) := by
  have hlt : ∀ q ∈ own, q.1 ≠ h.next := fun q hq => Nat.ne_of_lt (H.lt_next hq)
  refine ⟨?_, ?_, ?_, ?_, ?_⟩
  · rw [List.map_cons, List.nodup_cons]
    refine ⟨fun hmem => ?_, H.nodup⟩
    obtain ⟨q, hq, heq⟩ := List.mem_map.1 hmem
    exact hlt q hq heq
  · exact Nat.le_succ_of_le H.le_next
  · rw [List.forall_mem_cons]
    exact ⟨H.le_next, H.new⟩
  · rw [List.forall_mem_cons]
    refine ⟨Function.update_self _ _ _, fun q hq => ?_⟩
    show Function.update h.cell h.next (some x) q.1 = _
    rw [Function.update_of_ne (hlt q hq)]
    exact H.live q hq
  · intro q hq
    rw [List.map_cons, List.mem_cons, not_or] at hq
    have hne : q ≠ h.next := hq.1
    show Function.update h.cell h.next (some x) q = _
    rw [Function.update_of_ne hne]
    exact H.rest q hq.2

/-- The addresses behind the first one are others. -/
theorem Owns.ne_head (H : Owns h₀ h ((p, x) :: own)) {q : Nat × α} (hq : q ∈ own) : q.1 ≠ p := by
  have hnodup := H.nodup
  rw [List.map_cons, List.nodup_cons] at hnodup
  intro heq
  exact hnodup.1 (List.mem_map.2 ⟨q, hq, heq⟩)

theorem Owns.set (H : Owns h₀ h ((p, x) :: own)) (y : α) :
    ∃ h', h.set p y = some h' ∧ Owns h₀ h' ((p, y) :: own) := by
  have hlive := H.get List.mem_cons_self
  unfold Heap.set
  rw [dif_pos (by rw [hlive]; rfl)]
  refine ⟨_, rfl, H.nodup, H.le_next, ?_, ?_, ?_⟩
  · have hnew := H.new
    rw [List.forall_mem_cons] at hnew ⊢
    exact hnew
  · rw [List.forall_mem_cons]
    refine ⟨Function.update_self _ _ _, fun q hq => ?_⟩
    show Function.update h.cell p (some y) q.1 = _
    rw [Function.update_of_ne (H.ne_head hq)]
    exact H.live q (List.mem_cons_of_mem _ hq)
  · intro q hq
    show Function.update h.cell p (some y) q = _
    rw [List.map_cons, List.mem_cons, not_or] at hq
    rw [Function.update_of_ne hq.1]
    refine H.rest q ?_
    rw [List.map_cons, List.mem_cons, not_or]
    exact hq

theorem Owns.free (H : Owns h₀ h ((p, x) :: own)) :
    ∃ h', h.free p = some h' ∧ Owns h₀ h' own := by
  have hlive := H.get List.mem_cons_self
  have hnew : h₀.next ≤ p := H.new _ List.mem_cons_self
  unfold Heap.free
  rw [if_pos (by rw [hlive]; rfl)]
  have hnodup := H.nodup
  rw [List.map_cons, List.nodup_cons] at hnodup
  refine ⟨_, rfl, hnodup.2, H.le_next, fun q hq => H.new q (List.mem_cons_of_mem _ hq), ?_, ?_⟩
  · intro q hq
    show Function.update h.cell p none q.1 = _
    rw [Function.update_of_ne (H.ne_head hq)]
    exact H.live q (List.mem_cons_of_mem _ hq)
  · intro q hq
    show Function.update h.cell p none q = _
    by_cases hne : q = p
    · rw [hne, Function.update_self]
      exact (h₀.fresh p hnew).symm
    · rw [Function.update_of_ne hne]
      refine H.rest q ?_
      rw [List.map_cons, List.mem_cons, not_or]
      exact ⟨hne, hq⟩

/-- One call behind the other. -/
theorem Owns.trans (H : Owns h₀ h own) (H' : Owns h h' own') : Owns h₀ h' (own' ++ own) := by
  have hne : ∀ q ∈ own, q.1 ∉ own'.map Prod.fst := by
    intro q hq hmem
    obtain ⟨q', hq', heq⟩ := List.mem_map.1 hmem
    have hold := H.lt_next hq
    have hnew := H'.new q' hq'
    omega
  refine ⟨?_, Nat.le_trans H.le_next H'.le_next, ?_, ?_, ?_⟩
  · rw [List.map_append, List.nodup_append']
    refine ⟨H'.nodup, H.nodup, fun p hp' hp => ?_⟩
    obtain ⟨q, hq, rfl⟩ := List.mem_map.1 hp
    exact hne q hq hp'
  · intro q hq
    rcases List.mem_append.1 hq with hq | hq
    · exact Nat.le_trans H.le_next (H'.new q hq)
    · exact H.new q hq
  · intro q hq
    rcases List.mem_append.1 hq with hq | hq
    · exact H'.live q hq
    · rw [H'.rest q.1 (hne q hq)]
      exact H.live q hq
  · intro q hq
    rw [List.map_append, List.mem_append, not_or] at hq
    rw [H'.rest q hq.1, H.rest q hq.2]

end Heaps
