import Mathlib.Data.Prod.Lex
import Sprawl.Uuid.Uuid

/-!
# Comparing UUIDs (`uuid/uuid.cc`)

The four order operators compare both words and join the answers with `&&`: the
result is the order of the product, not the order of the 128-bit number.  Two UUIDs
whose words compare in different directions are neither less, equal nor greater.

* `orderLaws_iff`: the six operators agree on one order for `a` and `b` exactly when
  the words of `a` and `b` compare the same way (`WordsAgree`).
* `WordsAgree.lt_iff_lex`: there they are the order of the 128-bit numbers.
-/

namespace Uuid

/-! ## The operators -/

section
variable (uuid1 uuid2 : UUID)

/-- `operator<` -/
def UUID.lt : Bool :=
  uuid1.raw.first < uuid2.raw.first && uuid1.raw.second < uuid2.raw.second

/-- `operator>` -/
def UUID.gt : Bool :=
  uuid1.raw.first > uuid2.raw.first && uuid1.raw.second > uuid2.raw.second

/-- `operator==`; the method is not compared. -/
def UUID.eq : Bool :=
  uuid1.raw.first == uuid2.raw.first && uuid1.raw.second == uuid2.raw.second

/-- `operator!=` -/
def UUID.ne : Bool := !(uuid1.eq uuid2)

/-- `operator<=` -/
def UUID.le : Bool :=
  uuid1.raw.first <= uuid2.raw.first && uuid1.raw.second <= uuid2.raw.second

/-- `operator>=` -/
def UUID.ge : Bool :=
  uuid1.raw.first >= uuid2.raw.first && uuid1.raw.second >= uuid2.raw.second

end

/-! ## The laws of an order -/

/-- Exactly one of three. -/
def ExactlyOne (p q r : Prop) : Prop :=
  (p ∧ ¬ q ∧ ¬ r) ∨ (¬ p ∧ q ∧ ¬ r) ∨ (¬ p ∧ ¬ q ∧ r)

/-- What sorted keys need of the six operators. -/
structure OrderLaws (a b c : UUID) : Prop where
  trichotomy : ExactlyOne (a.lt b) (a.eq b) (b.lt a)
  irreflexive : ¬ a.lt a
  transitive : a.lt b → b.lt c → a.lt c
  gt_iff : a.gt b ↔ b.lt a
  le_iff : a.le b ↔ a.lt b ∨ a.eq b
  ge_iff : a.ge b ↔ b.le a
  ne_iff : a.ne b ↔ ¬ a.eq b

/-- Both words compare the same way. -/
def WordsAgree (a b : UUID) : Prop :=
  compare a.raw.first b.raw.first = compare a.raw.second b.raw.second

@[simp] theorem UUID.lt_iff (a b : UUID) :
    a.lt b ↔ a.raw.first < b.raw.first ∧ a.raw.second < b.raw.second := by
  simp [UUID.lt]

@[simp] theorem UUID.eq_iff (a b : UUID) :
    a.eq b ↔ a.raw.first = b.raw.first ∧ a.raw.second = b.raw.second := by
  simp [UUID.eq]

@[simp] theorem UUID.le_iff (a b : UUID) :
    a.le b ↔ a.raw.first ≤ b.raw.first ∧ a.raw.second ≤ b.raw.second := by
  simp [UUID.le]

/-! ## What holds of every pair -/

theorem UUID.gt_iff (a b : UUID) : a.gt b ↔ b.lt a := by rfl

theorem UUID.ge_iff (a b : UUID) : a.ge b ↔ b.le a := by rfl

theorem UUID.ne_iff (a b : UUID) : a.ne b ↔ ¬ a.eq b := by
  simp only [UUID.ne, Bool.not_eq_true', Bool.not_eq_true]

theorem UUID.not_lt_self (a : UUID) : ¬ a.lt a := by
  rw [UUID.lt_iff]
  exact fun h => absurd h.1 (by simp)

theorem UUID.lt_trans {a b c : UUID} (hab : a.lt b) (hbc : b.lt c) : a.lt c := by
  rw [UUID.lt_iff] at hab hbc ⊢
  exact ⟨hab.1.trans hbc.1, hab.2.trans hbc.2⟩

theorem UUID.eq_symm {a b : UUID} (h : a.eq b) : b.eq a := by
  rw [UUID.eq_iff] at h ⊢
  exact ⟨h.1.symm, h.2.symm⟩

/-- At most one of the three holds. -/
theorem UUID.lt_asymm {a b : UUID} (hab : a.lt b) : ¬ a.eq b ∧ ¬ b.lt a := by
  rw [UUID.lt_iff] at hab
  rw [UUID.eq_iff, UUID.lt_iff]
  exact ⟨fun h => hab.1.ne h.1, fun h => hab.1.asymm h.1⟩

/-! ## Words that agree -/

section
variable {a b : UUID}

/-- The words agree exactly when one of the three holds. -/
theorem wordsAgree_iff : WordsAgree a b ↔ a.lt b ∨ a.eq b ∨ b.lt a := by
  simp only [UUID.lt_iff, UUID.eq_iff]
  unfold WordsAgree
  rcases lt_trichotomy a.raw.first b.raw.first with h | h | h
  · rw [compare_lt_iff_lt.2 h, eq_comm, compare_lt_iff_lt]
    simp [h, h.ne, h.asymm]
  · rw [compare_eq_iff_eq.2 h, eq_comm, compare_eq_iff_eq]
    simp [h]
  · rw [compare_gt_iff_gt.2 h, eq_comm, compare_gt_iff_gt]
    simp [h, h.ne', h.asymm]

theorem WordsAgree.exactlyOne (h : WordsAgree a b) : ExactlyOne (a.lt b) (a.eq b) (b.lt a) := by
  rcases wordsAgree_iff.1 h with hlt | heq | hgt
  · exact .inl ⟨hlt, UUID.lt_asymm hlt⟩
  · refine .inr (.inl ⟨fun hlt => (UUID.lt_asymm hlt).1 heq, heq, fun hgt => ?_⟩)
    exact (UUID.lt_asymm hgt).1 (UUID.eq_symm heq)
  · refine .inr (.inr ⟨(UUID.lt_asymm hgt).2, fun heq => ?_, hgt⟩)
    exact (UUID.lt_asymm hgt).1 (UUID.eq_symm heq)

theorem WordsAgree.le_iff (h : WordsAgree a b) : a.le b ↔ a.lt b ∨ a.eq b := by
  constructor
  · intro hle
    rcases wordsAgree_iff.1 h with hlt | heq | hgt
    · exact .inl hlt
    · exact .inr heq
    · rw [UUID.lt_iff] at hgt
      rw [UUID.le_iff] at hle
      exact absurd hle.1 hgt.1.not_ge
  · rw [UUID.lt_iff, UUID.eq_iff, UUID.le_iff]
    rintro (⟨h1, h2⟩ | ⟨h1, h2⟩)
    · exact ⟨h1.le, h2.le⟩
    · exact ⟨h1.le, h2.le⟩

/-- The 128-bit number, as its two halves. -/
def UUID.number (u : UUID) : UInt64 ×ₗ UInt64 := toLex (u.raw.first, u.raw.second)

/-- Where the words agree, `<` is the order of the 128-bit numbers. -/
theorem WordsAgree.lt_iff_lex (h : WordsAgree a b) : a.lt b ↔ a.number < b.number := by
  unfold UUID.number
  rw [Prod.Lex.toLex_lt_toLex, UUID.lt_iff]
  constructor
  · exact fun hlt => .inl hlt.1
  · rintro (h1 | ⟨h1, h2⟩)
    · refine ⟨h1, ?_⟩
      unfold WordsAgree at h
      rwa [compare_lt_iff_lt.2 h1, eq_comm, compare_lt_iff_lt] at h
    · unfold WordsAgree at h
      rw [compare_eq_iff_eq.2 h1, eq_comm, compare_eq_iff_eq] at h
      exact absurd h h2.ne

end

/-- **The operators form one order exactly where the words agree.** -/
theorem orderLaws_iff (a b c : UUID) : OrderLaws a b c ↔ WordsAgree a b := by
  constructor
  · rintro ⟨h | h | h, -⟩
    · exact wordsAgree_iff.2 (.inl h.1)
    · exact wordsAgree_iff.2 (.inr (.inl h.2.1))
    · exact wordsAgree_iff.2 (.inr (.inr h.2.2))
  · intro h
    exact {
      trichotomy := h.exactlyOne
      irreflexive := a.not_lt_self
      transitive := UUID.lt_trans
      gt_iff := a.gt_iff b
      le_iff := h.le_iff
      ge_iff := a.ge_iff b
      ne_iff := a.ne_iff b }

/-- `00000000-0000-0000-0000-000000000001` and `00000000-0000-0001-0000-000000000000`
are not ordered. -/
theorem not_orderLaws : ¬ ∀ a b c : UUID, OrderLaws a b c := by
  intro h
  have htri := (h ⟨.name, ⟨0, 1⟩⟩ ⟨.name, ⟨1, 0⟩⟩ ⟨.name, ⟨0, 0⟩⟩).trichotomy
  unfold ExactlyOne at htri
  revert htri
  decide

end Uuid
