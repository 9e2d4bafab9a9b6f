import Mathlib.Data.List.MinMax
import Mathlib.Data.Multiset.AddSub

/-!
# Priority queues

What `std::priority_queue` promises, for a comparator `less`: it holds a multiset of
elements, `push` adds one, `top` is one that is less than no other, `pop` takes that one
out.  Which of several equal elements is the top is left open.  `drain` takes the
elements out one after the other, `TakesWhile` those in front that meet a condition.

`PriorityQueue.ofRank` is such a queue, for a comparator that ranks its elements.
-/

variable {α : Type}

/-- A queue that keeps the promises of `std::priority_queue`. -/
structure PriorityQueue (α : Type) (less : α → α → Prop) where
  Queue : Type
  items : Queue → Multiset α
  empty : Queue
  size : Queue → Nat
  push : Queue → α → Queue
  top? : Queue → Option α
  pop : Queue → Queue
  items_empty : items empty = 0
  size_eq : ∀ q, size q = (items q).card
  items_push : ∀ q a, items (push q a) = a ::ₘ items q
  top_isSome : ∀ q, 0 < size q → (top? q).isSome
  top_mem : ∀ q a, top? q = some a → a ∈ items q
  top_first : ∀ q a, top? q = some a → ∀ b ∈ items q, ¬ less a b
  items_pop : ∀ q a, top? q = some a → a ::ₘ items (pop q) = items q

namespace PriorityQueue

section
variable {less : α → α → Prop} (Q : PriorityQueue α less)

/-- Several elements, one after the other. -/
def pushAll (q : Q.Queue) (as : List α) : Q.Queue := as.foldl Q.push q

variable {Q}

theorem size_pop {q : Q.Queue} {a : α} (h : Q.top? q = some a) :
    Q.size (Q.pop q) + 1 = Q.size q := by
  rw [Q.size_eq, Q.size_eq, ← Q.items_pop q a h, Multiset.card_cons]

theorem exists_top {q : Q.Queue} (h : 0 < Q.size q) : ∃ a, Q.top? q = some a :=
  Option.isSome_iff_exists.1 (Q.top_isSome q h)

theorem exists_top_of_mem {q : Q.Queue} {a : α} (h : a ∈ Q.items q) : ∃ b, Q.top? q = some b := by
  apply exists_top
  rw [Q.size_eq]
  exact Multiset.card_pos_iff_exists_mem.2 ⟨a, h⟩

theorem size_eq_zero_iff {q : Q.Queue} : Q.size q = 0 ↔ Q.items q = 0 := by
  rw [Q.size_eq, Multiset.card_eq_zero]

theorem items_eq_zero {q : Q.Queue} (h : Q.top? q = none) : Q.items q = 0 := by
  rw [← Multiset.card_eq_zero, ← Q.size_eq]
  by_contra hne
  obtain ⟨a, ha⟩ := exists_top (Nat.pos_of_ne_zero hne)
  rw [h] at ha
  cases ha

theorem top_eq_none {q : Q.Queue} (h : Q.items q = 0) : Q.top? q = none := by
  cases htop : Q.top? q with
  | none => rfl
  | some a =>
    have hmem := Q.top_mem q a htop
    rw [h] at hmem
    exact absurd hmem (Multiset.notMem_zero a)

theorem items_pushAll (q : Q.Queue) (as : List α) :
    Q.items (Q.pushAll q as) = Q.items q + as := by
  induction as generalizing q with
  | nil => simp [pushAll]
  | cons a as ih =>
    show Q.items (Q.pushAll (Q.push q a) as) = _
    rw [ih, Q.items_push, ← Multiset.cons_coe, Multiset.cons_add, Multiset.add_cons]

variable (Q)

/-- All elements, in the order in which they are taken out. -/
def drain (q : Q.Queue) : List α :=
  match _h : Q.top? q with
  | none => []
  | some a => a :: drain (Q.pop q)
termination_by Q.size q
decreasing_by
  have h := size_pop _h
  omega

variable {Q}

theorem drain_none {q : Q.Queue} (h : Q.top? q = none) : Q.drain q = [] := by
  rw [drain]
  split
  · rfl
  · next h' => rw [h] at h'; cases h'

theorem drain_some {q : Q.Queue} {a : α} (h : Q.top? q = some a) :
    Q.drain q = a :: Q.drain (Q.pop q) := by
  rw [drain]
  split
  · next h' => rw [h] at h'; cases h'
  · next h' => rw [h] at h'; cases h'; rfl

/-- **Nothing is lost and nothing doubled on the way out.** -/
theorem coe_drain (q : Q.Queue) : (Q.drain q : Multiset α) = Q.items q := by
  induction hsize : Q.size q using Nat.strongRecOn generalizing q with
  | ind n ih =>
    cases htop : Q.top? q with
    | none =>
      rw [drain_none htop, items_eq_zero htop]
      rfl
    | some a =>
      have hlt := size_pop htop
      rw [drain_some htop, ← Multiset.cons_coe, ih _ (by omega) _ rfl, Q.items_pop q a htop]

end

/-! ## Taking out while a condition holds -/

/-- The tops that meet `p` are taken out up to the first that does not: these elements, and
the queue behind them. -/
inductive TakesWhile {less : α → α → Prop} {Q : PriorityQueue α less} (p : α → Prop) :
    Q.Queue → List α → Q.Queue → Prop
  | stop {q : Q.Queue} : (∀ a, Q.top? q = some a → ¬ p a) → TakesWhile p q [] q
  | take {q r : Q.Queue} {a : α} {as : List α} : Q.top? q = some a → p a →
      TakesWhile p (Q.pop q) as r → TakesWhile p q (a :: as) r

namespace TakesWhile

variable {less : α → α → Prop} {Q : PriorityQueue α less} {p : α → Prop} {q r : Q.Queue}
  {as : List α}

theorem exists_takesWhile (p : α → Prop) (q : Q.Queue) : ∃ as r, TakesWhile p q as r := by
  induction hsize : Q.size q using Nat.strongRecOn generalizing q with
  | ind n ih =>
    by_cases htop : ∃ a, Q.top? q = some a ∧ p a
    · obtain ⟨a, ha, hp⟩ := htop
      have hlt := size_pop ha
      obtain ⟨as, r, h⟩ := ih (Q.size (Q.pop q)) (by omega) (Q.pop q) rfl
      exact ⟨a :: as, r, .take ha hp h⟩
    · exact ⟨[], q, .stop fun a ha hp => htop ⟨a, ha, hp⟩⟩

theorem items_eq (h : TakesWhile p q as r) : (as : Multiset α) + Q.items r = Q.items q := by
  induction h with
  | stop _ => rw [Multiset.coe_nil, Multiset.zero_add]
  | take htop _ _ ih =>
    rw [← Q.items_pop _ _ htop, ← ih, ← Multiset.cons_coe, Multiset.cons_add]

theorem mem_iff (h : TakesWhile p q as r) (a : α) : a ∈ Q.items q ↔ a ∈ as ∨ a ∈ Q.items r := by
  rw [← h.items_eq, Multiset.mem_add, Multiset.mem_coe]

theorem holds (h : TakesWhile p q as r) : ∀ a ∈ as, p a := by
  induction h with
  | stop _ => simp
  | take _ hp _ ih => exact List.forall_mem_cons.2 ⟨hp, ih⟩

theorem top_not (h : TakesWhile p q as r) {a : α} (htop : Q.top? r = some a) : ¬ p a := by
  induction h with
  | stop hstop => exact hstop a htop
  | take _ _ _ ih => exact ih htop

/-- Nothing that is left comes before what was taken out. -/
theorem first (h : TakesWhile p q as r) : ∀ a ∈ as, ∀ b ∈ Q.items r, ¬ less a b := by
  induction h with
  | stop _ => simp
  | @take q r a as htop _ hrest ih =>
    refine List.forall_mem_cons.2 ⟨fun b hb => Q.top_first q a htop b ?_, ih⟩
    rw [← Q.items_pop q a htop]
    exact Multiset.mem_cons_of_mem ((hrest.mem_iff b).2 (.inr hb))

/-- The elements come out in the order of the queue. -/
theorem pairwise (h : TakesWhile p q as r) : as.Pairwise fun a b => ¬ less a b := by
  induction h with
  | stop _ => exact List.Pairwise.nil
  | @take q r a as htop _ hrest ih =>
    refine List.pairwise_cons.2 ⟨fun b hb => Q.top_first q a htop b ?_, ih⟩
    rw [← Q.items_pop q a htop]
    exact Multiset.mem_cons_of_mem ((hrest.mem_iff b).2 (.inl hb))

end TakesWhile

/-! ## A queue of ranked elements -/

/-- A list, from which the first element of least rank is taken. -/
def ofRank {β : Type} [LinearOrder β] [DecidableEq α] (rank : α → β) :
    PriorityQueue α fun a b => rank b < rank a where
  Queue := List α
  items q := q
  empty := []
  size := List.length
  push q a := a :: q
  top? q := q.argmin rank
  pop q := (q.argmin rank).elim q q.erase
  items_empty := rfl
  size_eq _ := rfl
  items_push _ _ := rfl
  top_isSome q h := by
    rw [Option.isSome_iff_ne_none, Ne, List.argmin_eq_none]
    exact List.length_pos_iff.1 h
  top_mem q a h := List.argmin_mem h
  top_first q a h b hb := not_lt_of_ge (List.le_of_mem_argmin hb h)
  items_pop q a h := by
    rw [h]
    exact Multiset.coe_eq_coe.2 (List.perm_cons_erase (List.argmin_mem h)).symm

end PriorityQueue
