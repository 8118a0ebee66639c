import Mathlib.Algebra.BigOperators.Group.Finset.Basic
import Mathlib.Algebra.Order.Ring.Nat
import Mathlib.Data.Nat.ModEq
import Mathlib.Tactic.LinearCombination
import Mathlib.Tactic.Ring

/-!
# Ripple addition with a compared carry

Numbers are given by their digits to a base, the least significant first. An adder that finds the
carry of a digit by comparing the wrapped sum with the two digits misses it when both are the
greatest digit and a carry comes in. The sum is then too small by what the missed carries are
worth.
-/

namespace CsfAssignments.CarryChains

variable {b : ℕ} (x y : ℕ → ℕ) (n : ℕ)

/-- The value of the first `n` digits. -/
def value (b : ℕ) (x : ℕ → ℕ) (n : ℕ) : ℕ := ∑ i ∈ Finset.range n, x i * b ^ i

/-- A digit of a number. -/
def digit (b v i : ℕ) : ℕ := v / b ^ i % b

/-- The carry out of two digits that the comparison finds. -/
def comparedCarry (b d e c : ℕ) : ℕ :=
  if (d + e + c) % b < d ∨ (d + e + c) % b < e then 1 else 0

/-- The compared carry into a position. -/
def carry (b : ℕ) (x y : ℕ → ℕ) : ℕ → ℕ
  | 0 => 0
  | i + 1 => comparedCarry b (x i) (y i) (carry b x y i)

/-- A digit of the sum. -/
def digitSum (b : ℕ) (x y : ℕ → ℕ) (i : ℕ) : ℕ := (x i + y i + carry b x y i) % b

/-- The carry out of a position is missed. -/
def Missed (b : ℕ) (x y : ℕ → ℕ) (i : ℕ) : Prop :=
  x i = b - 1 ∧ y i = b - 1 ∧ b ^ i ≤ value b x i + value b y i

instance (i : ℕ) : Decidable (Missed b x y i) := inferInstanceAs (Decidable (_ ∧ _ ∧ _))

/-- What the carries missed out of the first `n` positions are worth. -/
def lost (b : ℕ) (x y : ℕ → ℕ) (n : ℕ) : ℕ :=
  ∑ i ∈ Finset.range n,
    if x i = b - 1 ∧ y i = b - 1 ∧ carry b x y i = 1 then b ^ (i + 1) else 0

@[simp] theorem value_zero : value b x 0 = 0 := rfl

theorem value_succ : value b x (n + 1) = value b x n + x n * b ^ n := Finset.sum_range_succ ..

/-- The first digits are the number modulo a power of the base. -/
theorem value_digit (v : ℕ) : value b (digit b v) n = v % b ^ n := by
  induction n with
  | zero => simp [Nat.mod_one]
  | succ n ih => rw [value_succ, ih, digit, Nat.mod_pow_succ, Nat.mul_comm]

theorem digit_lt (hb : 0 < b) (v i : ℕ) : digit b v i < b := Nat.mod_lt _ hb

@[simp] theorem lost_zero : lost b x y 0 = 0 := rfl

theorem lost_succ : lost b x y (n + 1) = lost b x y n +
    if x n = b - 1 ∧ y n = b - 1 ∧ carry b x y n = 1 then b ^ (n + 1) else 0 :=
  Finset.sum_range_succ ..

@[simp] theorem carry_zero : carry b x y 0 = 0 := rfl

theorem carry_succ :
    carry b x y (n + 1) = comparedCarry b (x n) (y n) (carry b x y n) := rfl

theorem carry_le_one : carry b x y n ≤ 1 := by
  cases n with
  | zero => exact Nat.zero_le 1
  | succ n =>
    rw [carry_succ, comparedCarry]
    split_ifs <;> omega

variable {x y n}

theorem value_lt (hx : ∀ i < n, x i < b) : value b x n < b ^ n := by
  induction n with
  | zero => simp
  | succ n ih =>
    have hrest := ih fun i hi => hx i (Nat.lt_succ_of_lt hi)
    have hdigit := hx n n.lt_succ_self
    calc value b x (n + 1) = value b x n + x n * b ^ n := value_succ x n
      _ < b ^ n + x n * b ^ n := Nat.add_lt_add_right hrest _
      _ = (x n + 1) * b ^ n := by ring
      _ ≤ b * b ^ n := Nat.mul_le_mul_right _ hdigit
      _ = b ^ (n + 1) := by ring

/-- One position: the digit and the compared carry make the sum, unless the carry is missed. -/
theorem digit_add {d e c : ℕ} (hd : d < b) (he : e < b) (hc : c ≤ 1) :
    (d + e + c) % b + b * comparedCarry b d e c +
      (if d = b - 1 ∧ e = b - 1 ∧ c = 1 then b else 0) = d + e + c := by
  have hdiv : (d + e + c) / b ≤ 1 := by
    rw [← Nat.lt_succ_iff, Nat.div_lt_iff_lt_mul (by omega)]
    omega
  have hsum := Nat.mod_add_div (d + e + c) b
  have hlt := Nat.mod_lt (d + e + c) (show b > 0 by omega)
  rcases Nat.le_one_iff_eq_zero_or_eq_one.mp hdiv with hquot | hquot
  · rw [hquot, Nat.mul_zero, Nat.add_zero] at hsum
    rw [comparedCarry, hsum, if_neg (by omega), if_neg (by omega)]
    omega
  · rw [hquot, Nat.mul_one] at hsum
    rw [comparedCarry]
    split_ifs <;> omega

/-- The digits of the sum, the carry out and the missed carries make the sum. -/
theorem value_digitSum (hx : ∀ i < n, x i < b) (hy : ∀ i < n, y i < b) :
    value b (digitSum b x y) n + b ^ n * carry b x y n + lost b x y n =
      value b x n + value b y n := by
  induction n with
  | zero => simp
  | succ n ih =>
    have hrest := ih (fun i hi => hx i (Nat.lt_succ_of_lt hi))
      fun i hi => hy i (Nat.lt_succ_of_lt hi)
    have hdigit := digit_add (hx n n.lt_succ_self) (hy n n.lt_succ_self) 
      (carry_le_one (b := b) x y n)
    have hlost : (if x n = b - 1 ∧ y n = b - 1 ∧ carry b x y n = 1 then b ^ (n + 1) else 0) =
        b ^ n * (if x n = b - 1 ∧ y n = b - 1 ∧ carry b x y n = 1 then b else 0) := by
      split_ifs <;> ring
    rw [value_succ, value_succ, value_succ, lost_succ, hlost, carry_succ]
    have hscaled := congrArg (b ^ n * ·) hdigit
    simp only [digitSum, pow_succ] at hrest hscaled ⊢
    linear_combination hrest + hscaled

/-- As long as no carry was lost, the compared carry is the carry. -/
theorem carry_eq_one_iff (hx : ∀ i < n, x i < b) (hy : ∀ i < n, y i < b)
    (hlost : lost b x y n = 0) :
    carry b x y n = 1 ↔ b ^ n ≤ value b x n + value b y n := by
  have hsum := value_digitSum hx hy
  rw [hlost, Nat.add_zero] at hsum
  have hlt : value b (digitSum b x y) n < b ^ n :=
    value_lt fun i hi => Nat.mod_lt _ (Nat.zero_lt_of_lt (hx i hi))
  rcases Nat.le_one_iff_eq_zero_or_eq_one.mp (carry_le_one x y n) with hcarry | hcarry
  · rw [hcarry] at hsum ⊢
    omega
  · rw [hcarry] at hsum ⊢
    omega

/-- No carry is lost exactly when none is missed. -/
theorem lost_eq_zero_iff (hb : 0 < b) (hx : ∀ i < n, x i < b) (hy : ∀ i < n, y i < b) :
    lost b x y n = 0 ↔ ∀ i < n, ¬Missed b x y i := by
  induction n with
  | zero => simp
  | succ n ih =>
    have hlower := ih (fun i hi => hx i (Nat.lt_succ_of_lt hi))
      fun i hi => hy i (Nat.lt_succ_of_lt hi)
    have hpow : b ^ (n + 1) ≠ 0 := pow_ne_zero _ hb.ne'
    rw [lost_succ, Nat.add_eq_zero_iff, hlower, Nat.forall_lt_succ_right]
    refine and_congr_right fun hnone => ?_
    rw [ite_eq_right_iff, Missed,
      ← carry_eq_one_iff (fun i hi => hx i (Nat.lt_succ_of_lt hi))
        (fun i hi => hy i (Nat.lt_succ_of_lt hi)) (hlower.mpr hnone)]
    exact ⟨fun h hmissed => hpow (h hmissed), fun h hmissed => absurd hmissed h⟩

theorem lost_le (hb : 2 ≤ b) : lost b x y n ≤ 2 * b ^ n := by
  induction n with
  | zero => simp
  | succ n ih =>
    have hdouble : 2 * b ^ n ≤ b ^ (n + 1) := by
      rw [pow_succ, Nat.mul_comm]
      exact Nat.mul_le_mul_left _ hb
    rw [lost_succ]
    split_ifs <;> omega

/-- With a fixed number of digits the sum is that of the numbers without the missed carries. A
carry out of the last position is dropped anyway. -/
theorem value_add_lost_mod (hx : ∀ i < n + 1, x i < b) (hy : ∀ i < n + 1, y i < b) :
    (value b (digitSum b x y) (n + 1) + lost b x y n) % b ^ (n + 1) =
      (value b x (n + 1) + value b y (n + 1)) % b ^ (n + 1) := by
  rw [← value_digitSum hx hy, lost_succ]
  refine Nat.ModEq.symm ?_
  split_ifs
  · have hsplit : value b (digitSum b x y) (n + 1) + b ^ (n + 1) * carry b x y (n + 1) +
        (lost b x y n + b ^ (n + 1)) =
        value b (digitSum b x y) (n + 1) + lost b x y n +
          b ^ (n + 1) * (carry b x y (n + 1) + 1) := by ring
    rw [hsplit]
    exact Nat.add_mul_mod_self_left ..
  · have hsplit : value b (digitSum b x y) (n + 1) + b ^ (n + 1) * carry b x y (n + 1) +
        (lost b x y n + 0) =
        value b (digitSum b x y) (n + 1) + lost b x y n +
          b ^ (n + 1) * carry b x y (n + 1) := by ring
    rw [hsplit]
    exact Nat.add_mul_mod_self_left ..

end CsfAssignments.CarryChains
