import Mathlib.Algebra.Order.Ring.Int
import Mathlib.Data.Int.Notation

/-!
# Sums that stay within an `int`

Arithmetic on `int` has no result outside of 32 bits. A sum of nonnegative amounts has a result
exactly when its exact value is within the type, in whatever steps it is added up.
-/

namespace CsfAssignments.CheckedArithmetic

/-- The value of an `int` expression; signed overflow has none. -/
def checked (n : ℤ) : Option ℤ := if -2 ^ 31 ≤ n ∧ n < 2 ^ 31 then some n else none

def addInt (x y : ℤ) : Option ℤ := checked (x + y)

def mulInt (x y : ℤ) : Option ℤ := checked (x * y)

theorem checked_of_lt {n : ℤ} (hn : 0 ≤ n) (hlt : n < 2 ^ 31) : checked n = some n :=
  if_pos ⟨by omega, hlt⟩

theorem checked_of_le {n : ℤ} (hle : 2 ^ 31 ≤ n) : checked n = none :=
  if_neg (by omega)

theorem checked_eq_some {n m : ℤ} (h : checked n = some m) : m = n ∧ n < 2 ^ 31 := by
  rw [checked] at h
  split at h
  case isTrue hrange => exact ⟨(Option.some.inj h).symm, hrange.2⟩
  case isFalse => cases h

/-- A computation that adds an amount to a nonnegative total, if the sum is an `int`. -/
structure Adds (f : ℤ → Option ℤ) (k : ℤ) : Prop where
  nonneg : 0 ≤ k
  bind_eq : ∀ x, 0 ≤ x → (checked x).bind f = checked (x + k)

namespace Adds

variable {f g : ℤ → Option ℤ} {k l : ℤ}

/-- The result of an addition to a total within the type. -/
theorem apply_eq (hf : Adds f k) {x : ℤ} (hx : 0 ≤ x) (hlt : x < 2 ^ 31) :
    f x = checked (x + k) := by
  rw [← hf.bind_eq x hx, checked_of_lt hx hlt, Option.bind_some]

/-- It is enough to look at totals within the type. -/
theorem of_lt (hk : 0 ≤ k) (h : ∀ x, 0 ≤ x → x < 2 ^ 31 → f x = checked (x + k)) : Adds f k := by
  refine ⟨hk, fun x hx => ?_⟩
  by_cases hlt : x < 2 ^ 31
  · rw [checked_of_lt hx hlt, Option.bind_some, h x hx hlt]
  · rw [checked_of_le (not_lt.mp hlt), checked_of_le (by omega), Option.bind_none]

protected theorem some : Adds some 0 :=
  of_lt le_rfl fun x hx hlt => by rw [add_zero, checked_of_lt hx hlt]

protected theorem add (hk : 0 ≤ k) : Adds (fun x => addInt x k) k :=
  of_lt hk fun _ _ _ => rfl

/-- Adding a product computes the product first. -/
theorem add_mul {m n : ℤ} (hm : 0 ≤ m) (hn : 0 ≤ n) :
    Adds (fun x => (mulInt m n).bind (addInt x)) (m * n) := by
  have hmn : 0 ≤ m * n := mul_nonneg hm hn
  refine of_lt hmn fun x hx _ => ?_
  by_cases hlt : m * n < 2 ^ 31
  · rw [mulInt, checked_of_lt hmn hlt, Option.bind_some, addInt]
  · rw [mulInt, checked_of_le (not_lt.mp hlt), checked_of_le (by omega), Option.bind_none]

/-- One addition after another. -/
protected theorem bind (hf : Adds f k) (hg : Adds g l) : Adds (fun x => (f x).bind g) (k + l) := by
  refine ⟨add_nonneg hf.nonneg hg.nonneg, fun x hx => ?_⟩
  rw [← Option.bind_assoc, hf.bind_eq x hx, hg.bind_eq _ (add_nonneg hx hf.nonneg), add_assoc]

end Adds
end CsfAssignments.CheckedArithmetic
