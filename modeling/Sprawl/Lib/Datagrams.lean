import Mathlib.Data.List.Perm.Basic
import Mathlib.Tactic.Common

/-!
# A network of datagrams

The datagrams under way are a list, and any of them may be the next to arrive, to be lost or
to be copied.  `Pool` keeps the list and what happened so far; nothing gets lost or comes to
be by itself (`Conserves`):

    flying ++ lost ++ delivered  is a permutation of  sent ++ copied
-/

namespace Datagrams

variable {α : Type}

/-- The datagrams under way, and those sent, copied, lost and delivered so far. -/
structure Pool (α : Type) where
  flying : List α
  sent : List α
  copied : List α
  lost : List α
  delivered : List α

namespace Pool

def empty : Pool α := { flying := [], sent := [], copied := [], lost := [], delivered := [] }

def send (p : Pool α) (ds : List α) : Pool α :=
  { p with flying := p.flying ++ ds, sent := p.sent ++ ds }

/-- The network loses the datagram at `i`, if there is one. -/
def lose (p : Pool α) (i : Nat) : Pool α :=
  match p.flying[i]? with
  | none => p
  | some d => { p with flying := p.flying.eraseIdx i, lost := p.lost ++ [d] }

/-- The network copies it. -/
def copy (p : Pool α) (i : Nat) : Pool α :=
  match p.flying[i]? with
  | none => p
  | some d => { p with flying := p.flying ++ [d], copied := p.copied ++ [d] }

/-- The datagram `d` at `i` arrives. -/
def deliver (p : Pool α) (i : Nat) (d : α) : Pool α :=
  { p with flying := p.flying.eraseIdx i, delivered := p.delivered ++ [d] }

section
variable (p : Pool α) (i : Nat)

@[simp] theorem sent_lose : (p.lose i).sent = p.sent := by
  unfold lose
  split <;> rfl

@[simp] theorem copied_lose : (p.lose i).copied = p.copied := by
  unfold lose
  split <;> rfl

@[simp] theorem delivered_lose : (p.lose i).delivered = p.delivered := by
  unfold lose
  split <;> rfl

@[simp] theorem sent_copy : (p.copy i).sent = p.sent := by
  unfold copy
  split <;> rfl

@[simp] theorem delivered_copy : (p.copy i).delivered = p.delivered := by
  unfold copy
  split <;> rfl

end

/-- What was sent and what was copied is what is under way, was lost or was delivered. -/
def Conserves (p : Pool α) : Prop :=
  (p.flying ++ p.lost ++ p.delivered).Perm (p.sent ++ p.copied)

/-- The same, of the number of times each datagram occurs. -/
theorem conserves_iff [BEq α] [LawfulBEq α] {p : Pool α} :
    p.Conserves ↔ ∀ d, p.flying.count d + p.lost.count d + p.delivered.count d =
      p.sent.count d + p.copied.count d := by
  unfold Conserves
  rw [List.perm_iff_count]
  simp only [List.count_append]

theorem conserves_empty : (empty : Pool α).Conserves := List.Perm.nil

section
variable [BEq α] {p : Pool α} {i : Nat} {d : α}

/-- The datagram at `i` apart. -/
theorem count_eraseIdx (h : p.flying[i]? = some d) (x : α) :
    (p.flying.eraseIdx i).count x + [d].count x = p.flying.count x := by
  obtain ⟨hi, rfl⟩ := List.getElem?_eq_some_iff.1 h
  have hcount := (List.getElem_cons_eraseIdx_perm hi).count_eq x
  rw [← List.singleton_append, List.count_append] at hcount
  omega

variable [LawfulBEq α]

theorem Conserves.send (h : p.Conserves) (ds : List α) : (p.send ds).Conserves := by
  rw [conserves_iff] at h ⊢
  intro x
  have hx := h x
  show (p.flying ++ ds).count x + p.lost.count x + p.delivered.count x =
    (p.sent ++ ds).count x + p.copied.count x
  rw [List.count_append, List.count_append]
  omega

theorem Conserves.lose (h : p.Conserves) (i : Nat) : (p.lose i).Conserves := by
  unfold Pool.lose
  cases hd : p.flying[i]? with
  | none => exact h
  | some d =>
    rw [conserves_iff] at h ⊢
    intro x
    have hx := h x
    have hleave := count_eraseIdx hd x
    show (p.flying.eraseIdx i).count x + (p.lost ++ [d]).count x + p.delivered.count x =
      p.sent.count x + p.copied.count x
    rw [List.count_append]
    omega

theorem Conserves.copy (h : p.Conserves) (i : Nat) : (p.copy i).Conserves := by
  unfold Pool.copy
  cases hd : p.flying[i]? with
  | none => exact h
  | some d =>
    rw [conserves_iff] at h ⊢
    intro x
    have hx := h x
    show (p.flying ++ [d]).count x + p.lost.count x + p.delivered.count x =
      p.sent.count x + (p.copied ++ [d]).count x
    rw [List.count_append, List.count_append]
    omega

theorem Conserves.deliver (h : p.Conserves) (hd : p.flying[i]? = some d) :
    (p.deliver i d).Conserves := by
  rw [conserves_iff] at h ⊢
  intro x
  have hx := h x
  have hleave := count_eraseIdx hd x
  show (p.flying.eraseIdx i).count x + p.lost.count x + (p.delivered ++ [d]).count x =
    p.sent.count x + p.copied.count x
  rw [List.count_append]
  omega

end

/-! ## A network has only what was sent -/

/-- The copies are of datagrams that were sent. -/
def FromSent (p : Pool α) : Prop := ∀ d ∈ p.copied, d ∈ p.sent

theorem mem_sent_of_mem_flying {p : Pool α} (h : p.Conserves) (hcopied : p.FromSent) {d : α}
    (hd : d ∈ p.flying) : d ∈ p.sent := by
  have hmem : d ∈ p.sent ++ p.copied :=
    h.subset (List.mem_append_left _ (List.mem_append_left _ hd))
  exact (List.mem_append.1 hmem).elim id (hcopied d)

theorem mem_sent_of_mem_delivered {p : Pool α} (h : p.Conserves) (hcopied : p.FromSent) {d : α}
    (hd : d ∈ p.delivered) : d ∈ p.sent := by
  have hmem : d ∈ p.sent ++ p.copied := h.subset (List.mem_append_right _ hd)
  exact (List.mem_append.1 hmem).elim id (hcopied d)

theorem fromSent_empty : (empty : Pool α).FromSent := nofun

theorem FromSent.send {p : Pool α} (h : p.FromSent) (ds : List α) : (p.send ds).FromSent :=
  fun d hd => List.mem_append_left _ (h d hd)

theorem FromSent.lose {p : Pool α} (h : p.FromSent) (i : Nat) : (p.lose i).FromSent := by
  unfold FromSent
  rw [sent_lose, copied_lose]
  exact h

theorem FromSent.copy {p : Pool α} (h : p.FromSent) (hconserves : p.Conserves) (i : Nat) :
    (p.copy i).FromSent := by
  unfold FromSent
  rw [sent_copy]
  unfold Pool.copy
  cases hi : p.flying[i]? with
  | none => exact h
  | some d' =>
    intro d hd
    rcases List.mem_append.1 hd with hd | hd
    · exact h d hd
    · rw [List.mem_singleton.1 hd]
      exact mem_sent_of_mem_flying hconserves h (List.mem_of_getElem? hi)

end Pool

end Datagrams
