import Mathlib.Algebra.Order.Ring.Nat

/-!
# Unsigned arithmetic that notices a wrap

`add`, `sub` and `mul` on 64-bit numbers, `none` where the exact result is not one.
A computation over them that comes to an end has wrapped nowhere, and its result is
that of the plain operations (`add_eq_some`, `sub_eq_some`, `mul_eq_some`).
-/

namespace Checked

def add (a b : UInt64) : Option UInt64 :=
  if a.toNat + b.toNat < 2 ^ 64 then some (a + b) else none

def sub (a b : UInt64) : Option UInt64 :=
  if b.toNat ≤ a.toNat then some (a - b) else none

def mul (a b : UInt64) : Option UInt64 :=
  if a.toNat * b.toNat < 2 ^ 64 then some (a * b) else none

theorem add_eq_some {a b c : UInt64} :
    add a b = some c ↔ a.toNat + b.toNat < 2 ^ 64 ∧ a + b = c := by
  rw [add, Option.ite_none_right_eq_some, Option.some.injEq]

theorem sub_eq_some {a b c : UInt64} : sub a b = some c ↔ b.toNat ≤ a.toNat ∧ a - b = c := by
  rw [sub, Option.ite_none_right_eq_some, Option.some.injEq]

theorem mul_eq_some {a b c : UInt64} :
    mul a b = some c ↔ a.toNat * b.toNat < 2 ^ 64 ∧ a * b = c := by
  rw [mul, Option.ite_none_right_eq_some, Option.some.injEq]

end Checked
