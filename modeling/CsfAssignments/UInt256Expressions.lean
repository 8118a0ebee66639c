import CsfAssignments.UInt256Hex
import CsfAssignments.UInt256Multiplication
import Mathlib.Data.Int.ModEq

/-!
# Calculations with 256-bit integers

A carry that the adder misses is worth at least two limbs, so the lower two limbs of sums,
differences, products and shifts are right for all numbers. Whatever is calculated from hexadecimal
strings is right in its last 32 digits.
-/

namespace CsfAssignments.Limbs
open CarryChains HexNumerals

/-- No carry comes into the first position, so none is missed there. -/
theorem sq_dvd_lost {b : ℕ} (x y : ℕ → ℕ) (n : ℕ) : b ^ 2 ∣ lost b x y n := by
  induction n with
  | zero => exact Nat.dvd_zero _
  | succ n ih =>
    rw [lost_succ]
    refine Nat.dvd_add ih ?_
    split_ifs with hmissed
    · cases n with
      | zero => exact absurd hmissed.2.2 (by simp)
      | succ n => exact pow_dvd_pow b (by omega)
    · exact Nat.dvd_zero _

section Operations
variable (left right : UInt256)

/-- The lower half of a sum is right. -/
theorem uint256Add_modEq :
    (uint256Add left right).toNat ≡ left.toNat + right.toNat [MOD 2 ^ 128] := by
  have hsum := uint256Add_add_lost left right
  have hlost : 2 ^ 128 ∣ lostCarries left.toNat right.toNat := by
    rw [lostCarries, show 2 ^ 128 = (2 ^ 64) ^ 2 by norm_num]
    exact sq_dvd_lost _ _ 3
  rw [Nat.ModEq]
  omega

/-- The lower half of a difference is right. -/
theorem uint256Sub_modEq :
    ((uint256Sub left right).toNat : ℤ) ≡ left.toNat - right.toNat [ZMOD 2 ^ 128] := by
  have hsum := uint256Add_modEq left
    (uint256Add ⟨right.data.map (fun limb => ~~~limb)⟩ (uint256CreateFromU64 1))
  have hlt := right.toNat_lt
  rw [toNat_negate, Nat.ModEq] at hsum
  rw [uint256Sub, Int.ModEq]
  omega

/-- The lower half of a shifted number is right. -/
theorem uint256LeftShift_modEq (val : UInt256) {shift : ℕ} (hshift : shift < 256) :
    ∃ res, uint256LeftShift val shift = some res ∧
      res.toNat ≡ val.toNat * 2 ^ shift [MOD 2 ^ 128] := by
  obtain ⟨res, hres, hvalue⟩ := uint256LeftShift_eq val hshift
  refine ⟨res, hres, ?_⟩
  rw [hvalue]
  exact Nat.mod_mod_of_dvd _ (pow_dvd_pow 2 (by norm_num))

/-- The lower half of a product of the first bits of the left number is right. -/
private def LowRight (n : ℕ) (product : UInt256) : Prop :=
  product.toNat ≡ left.toNat % 2 ^ n * right.toNat [MOD 2 ^ 128]

/-- Every round adds to a product whose lower half is right. -/
private theorem exists_lowRight {n : ℕ} (hn : n ≤ 256) : ∃ product,
    (List.range n).foldlM (mulRound left right) ⟨#v[0, 0, 0, 0]⟩ = some product ∧
      LowRight left right n product := by
  refine exists_mulRounds left right ?_ ?_ ?_ hn
  · rw [LowRight, pow_zero, Nat.mod_one, Nat.zero_mul]
    rfl
  · intro n product hset hvalue
    rwa [LowRight, mod_two_pow_succ_mul, hset, Bool.toNat_false, Nat.zero_mul, Nat.add_zero]
  · intro n product res hset hres hvalue
    have hshifted : res.toNat ≡ right.toNat * 2 ^ n [MOD 2 ^ 128] := by
      rw [hres]
      exact Nat.mod_mod_of_dvd _ (pow_dvd_pow 2 (by norm_num))
    rw [LowRight, mod_two_pow_succ_mul, hset, Bool.toNat_true, Nat.one_mul]
    exact (uint256Add_modEq product res).trans (Nat.ModEq.add hvalue hshifted)

/-- The lower half of a product is right. -/
theorem uint256Mul_modEq : ∃ product, uint256Mul left right = some product ∧
    product.toNat ≡ left.toNat * right.toNat [MOD 2 ^ 128] := by
  obtain ⟨product, hrounds, hvalue⟩ := exists_lowRight left right (le_refl 256)
  rw [LowRight, Nat.mod_eq_of_lt left.toNat_lt] at hvalue
  exact ⟨product, hrounds, hvalue⟩

end Operations

/-- What can be calculated with the functions of `uint256.c` from hexadecimal strings. -/
inductive Calculation
  | hex (s : List Char)
  | add (left right : Calculation)
  | sub (left right : Calculation)
  | mul (left right : Calculation)
  | leftshift (val : Calculation) (shift : ℕ)

namespace Calculation

/-- The calculation by the functions. -/
def run : Calculation → Option UInt256
  | hex s => uint256CreateFromHex s
  | add left right => do return uint256Add (← left.run) (← right.run)
  | sub left right => do return uint256Sub (← left.run) (← right.run)
  | mul left right => do uint256Mul (← left.run) (← right.run)
  | leftshift val shift => do uint256LeftShift (← val.run) shift

/-- The number that is meant. -/
def number : Calculation → ℤ
  | hex s => HexNumerals.value s
  | add left right => left.number + right.number
  | sub left right => left.number - right.number
  | mul left right => left.number * right.number
  | leftshift val shift => val.number * 2 ^ shift

/-- All strings consist of digits and have a length, and all shifts are defined. -/
def Formed : Calculation → Prop
  | hex s => AllHex s ∧ s.length < 2 ^ 31
  | add left right | sub left right | mul left right => left.Formed ∧ right.Formed
  | leftshift val shift => val.Formed ∧ shift < 256

theorem run_modEq {c : Calculation} (hc : c.Formed) :
    ∃ v, c.run = some v ∧ (v.toNat : ℤ) ≡ c.number [ZMOD 2 ^ 128] := by
  have hcast {m n : ℕ} (h : m ≡ n [MOD 2 ^ 128]) : (m : ℤ) ≡ n [ZMOD 2 ^ 128] := by
    have hint := Int.natCast_modEq_iff.mpr h
    rwa [Nat.cast_pow, Nat.cast_ofNat] at hint
  induction c with
  | hex s =>
    refine ⟨_, uint256CreateFromHex_eq hc.1 hc.2, hcast ?_⟩
    rw [UInt256.toNat_ofNat]
    exact Nat.mod_mod_of_dvd _ (pow_dvd_pow 2 (by norm_num))
  | add left right ihl ihr =>
    obtain ⟨v, hv, hvalue⟩ := ihl hc.1
    obtain ⟨w, hw, hvalue'⟩ := ihr hc.2
    refine ⟨uint256Add v w, ?_, (hcast (uint256Add_modEq v w)).trans ?_⟩
    · rw [run, hv, hw, Option.bind_eq_bind, Option.bind_some,
        Option.bind_some, Option.pure_def]
    · rw [Nat.cast_add]
      exact hvalue.add hvalue'
  | sub left right ihl ihr =>
    obtain ⟨v, hv, hvalue⟩ := ihl hc.1
    obtain ⟨w, hw, hvalue'⟩ := ihr hc.2
    refine ⟨uint256Sub v w, ?_, (uint256Sub_modEq v w).trans (hvalue.sub hvalue')⟩
    rw [run, hv, hw, Option.bind_eq_bind, Option.bind_some,
      Option.bind_some, Option.pure_def]
  | mul left right ihl ihr =>
    obtain ⟨v, hv, hvalue⟩ := ihl hc.1
    obtain ⟨w, hw, hvalue'⟩ := ihr hc.2
    obtain ⟨product, hproduct, hmod⟩ := uint256Mul_modEq v w
    refine ⟨product, ?_, (hcast hmod).trans ?_⟩
    · rw [run, hv, hw, Option.bind_eq_bind, Option.bind_some,
        Option.bind_some, hproduct]
    · rw [Nat.cast_mul]
      exact hvalue.mul hvalue'
  | leftshift val shift ih =>
    obtain ⟨v, hv, hvalue⟩ := ih hc.1
    obtain ⟨res, hres, hresValue⟩ := uint256LeftShift_modEq v hc.2
    refine ⟨res, ?_, (hcast hresValue).trans ?_⟩
    · rw [run, hv, Option.bind_eq_bind, Option.bind_some, hres]
    · rw [Nat.cast_mul, Nat.cast_pow, Nat.cast_ofNat]
      exact hvalue.mul_right _

end Calculation

/-- Every calculation with sums, differences, products and shifts of hexadecimal strings goes
through, and the number that is printed is right in its last 32 digits, although the adder misses
carries. -/
theorem calculation_low_digits {c : Calculation} (hc : c.Formed) :
    ∃ v, c.run = some v ∧
      (HexNumerals.value (uint256FormatAsHex v) : ℤ) ≡ c.number [ZMOD 16 ^ 32] := by
  obtain ⟨v, hv, hvalue⟩ := Calculation.run_modEq hc
  refine ⟨v, hv, ?_⟩
  rw [uint256FormatAsHex_eq, value_toDigits, show (16 : ℤ) ^ 32 = 2 ^ 128 by norm_num]
  exact hvalue

theorem calculation_low_digits_three : ∃ v,
    (Calculation.mul (.hex "3".toList) (.hex "ffffffffffffffffffffffffffffffff".toList)).run =
      some v ∧ (HexNumerals.value (uint256FormatAsHex v) : ℤ) ≡
        3 * (2 ^ 128 - 1) [ZMOD 16 ^ 32] :=
  calculation_low_digits ⟨⟨by decide, by decide⟩, by decide, by decide⟩

end CsfAssignments.Limbs
