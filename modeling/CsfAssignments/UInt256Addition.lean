import CsfAssignments.CarryChains
import CsfAssignments.UInt256Model

/-!
# The adder and the subtraction

`uint256_add` finds its carry by comparing the sum of two limbs with both of them. Where both limbs
are all ones and a carry comes in, the sum equals them and the carry is missed. The sum, and with
it the difference, is right exactly when this happens in neither of the two middle limbs.
-/

namespace CsfAssignments.Limbs
open CarryChains

/-- No carry is missed when these two numbers are added: there is no limb 1 or 2 of all ones in
both with a carry out of the limbs below. -/
def CarriesKept (x y : ℕ) : Prop :=
  ∀ i ∈ [1, 2], ¬(x / 2 ^ (64 * i) % 2 ^ 64 = 2 ^ 64 - 1 ∧ y / 2 ^ (64 * i) % 2 ^ 64 = 2 ^ 64 - 1 ∧
    2 ^ (64 * i) ≤ x % 2 ^ (64 * i) + y % 2 ^ (64 * i))

instance (x y : ℕ) : Decidable (CarriesKept x y) := List.decidableBAll _ _

/-- What the missed carries are worth. -/
def lostCarries (x y : ℕ) : ℕ := lost (2 ^ 64) (digit (2 ^ 64) x) (digit (2 ^ 64) y) 3

theorem lostCarries_le (x y : ℕ) : lostCarries x y ≤ 2 ^ 193 :=
  (lost_le (by norm_num)).trans (by norm_num)

private theorem missed_iff (x y i : ℕ) :
    Missed (2 ^ 64) (digit (2 ^ 64) x) (digit (2 ^ 64) y) i ↔
      x / 2 ^ (64 * i) % 2 ^ 64 = 2 ^ 64 - 1 ∧ y / 2 ^ (64 * i) % 2 ^ 64 = 2 ^ 64 - 1 ∧
        2 ^ (64 * i) ≤ x % 2 ^ (64 * i) + y % 2 ^ (64 * i) := by
  rw [Missed, value_digit, value_digit, digit, digit, pow_mul]

theorem lostCarries_eq_zero_iff (x y : ℕ) : lostCarries x y = 0 ↔ CarriesKept x y := by
  have hdigit (v : ℕ) : ∀ i < 3, digit (2 ^ 64) v i < 2 ^ 64 :=
    fun i _ => digit_lt (by norm_num) v i
  rw [lostCarries, lost_eq_zero_iff (by norm_num) (hdigit x) (hdigit y), CarriesKept]
  simp only [missed_iff]
  constructor
  · intro h i hi
    exact h i (by simp at hi; omega)
  · intro h i hi
    -- nothing is below the first limb
    rcases Nat.eq_zero_or_pos i with rfl | hpos
    · rintro ⟨-, -, hcarry⟩
      simp [Nat.mod_one] at hcarry
    · exact h i (by simp; omega)

section Adder
variable (left right : UInt256)

theorem UInt256.digit_toNat (v : UInt256) (i : Fin 4) :
    digit (2 ^ 64) v.toNat i = (v.data.get i).toNat := by
  have h0 := v.data[0].isLt
  have h1 := v.data[1].isLt
  have h2 := v.data[2].isLt
  have h3 := v.data[3].isLt
  rw [digit, toNat]
  rcases i with ⟨_ | _ | _ | _ | i, hi⟩
  · show _ / (2 ^ 64) ^ 0 % 2 ^ 64 = v.data[0].toNat
    omega
  · show _ / (2 ^ 64) ^ 1 % 2 ^ 64 = v.data[1].toNat
    omega
  · show _ / (2 ^ 64) ^ 2 % 2 ^ 64 = v.data[2].toNat
    omega
  · show _ / (2 ^ 64) ^ 3 % 2 ^ 64 = v.data[3].toNat
    omega
  · omega

theorem UInt256.toNat_eq_value (v : UInt256) :
    v.toNat = value (2 ^ 64) (digit (2 ^ 64) v.toNat) 4 := by
  rw [value_digit, Nat.mod_eq_of_lt (by rw [← pow_mul]; exact v.toNat_lt)]

/-- The carry that the loop has in front of round `i`. -/
private def loopCarry (i : ℕ) : ℕ :=
  carry (2 ^ 64) (digit (2 ^ 64) left.toNat) (digit (2 ^ 64) right.toNat) i

/-- A digit of the sum that the loop makes. -/
private def loopDigit (i : ℕ) : ℕ :=
  digitSum (2 ^ 64) (digit (2 ^ 64) left.toNat) (digit (2 ^ 64) right.toNat) i

/-- A round adds two limbs and compares. -/
private theorem addRound_eq (sum : Vector (BitVec 64) 4) (i : Fin 4) :
    (addRound left right (sum, loopCarry left right i) i).2 = loopCarry left right (i + 1) ∧
      ∀ j : Fin 4, ((addRound left right (sum, loopCarry left right i) i).1.get j).toNat =
        if i = j then loopDigit left right i else (sum.get j).toNat := by
  have hleft : digit (2 ^ 64) left.toNat i = left.data[i].toNat := left.digit_toNat i
  have hright : digit (2 ^ 64) right.toNat i = right.data[i].toNat := right.digit_toNat i
  have hc : loopCarry left right i ≤ 1 := carry_le_one _ _ _
  have hdigit : loopDigit left right i =
      (left.data[i].toNat + right.data[i].toNat + loopCarry left right i) % 2 ^ 64 := by
    rw [loopDigit, digitSum, hleft, hright, loopCarry]
  have hnext : loopCarry left right (i + 1) = comparedCarry (2 ^ 64) left.data[i].toNat
      right.data[i].toNat (loopCarry left right i) := by
    rw [loopCarry, carry_succ, hleft, hright, loopCarry]
  have htemp : (left.data[i] + right.data[i] + BitVec.ofInt 64 (loopCarry left right i)).toNat =
      loopDigit left right i := by
    rw [hdigit, BitVec.toNat_add, BitVec.toNat_add, BitVec.toNat_ofInt]
    omega
  constructor
  · simp only [addRound, BitVec.lt_def, htemp]
    rw [hnext, comparedCarry, ← hdigit]
    split_ifs <;> rfl
  · intro j
    show ((sum.set i _)[j]).toNat = _
    rw [Fin.getElem_fin, Vector.getElem_set]
    by_cases hij : i = j
    · rw [if_pos hij, if_pos (congrArg Fin.val hij)]
      exact htemp
    · rw [if_neg hij, if_neg (Fin.val_ne_of_ne hij)]
      rfl

/-- The first rounds write the first digits. -/
private theorem addRounds_eq (k : ℕ) (hk : k ≤ 4) : ∃ sum : Vector (BitVec 64) 4,
    ((List.finRange 4).take k).foldl (addRound left right) (Vector.replicate 4 0, 0) =
        (sum, (loopCarry left right k : ℤ)) ∧
      ∀ i : Fin 4, i < k → (sum.get i).toNat = loopDigit left right i := by
  induction k with
  | zero => exact ⟨_, rfl, fun i hi => absurd hi (Nat.not_lt_zero _)⟩
  | succ k ih =>
    obtain ⟨sum, hrounds, hdigits⟩ := ih (by omega)
    obtain ⟨hcarry, hlimbs⟩ := addRound_eq left right sum ⟨k, hk⟩
    refine ⟨(addRound left right (sum, loopCarry left right k) ⟨k, hk⟩).1, ?_, fun i hi => ?_⟩
    · rw [List.take_succ_eq_append_getElem (by rw [List.length_finRange]; exact hk),
        List.foldl_append, hrounds, List.getElem_finRange]
      exact Prod.ext rfl hcarry
    · rw [hlimbs i]
      split_ifs with hki
      · rw [← hki]
      · exact hdigits i (by have hne := Fin.val_ne_of_ne hki; simp at hne; omega)

/-- The limbs of the sum are the digits that the compared carries give. -/
theorem toNat_uint256Add : (uint256Add left right).toNat =
    value (2 ^ 64) (digitSum (2 ^ 64) (digit (2 ^ 64) left.toNat) (digit (2 ^ 64) right.toNat))
      4 := by
  obtain ⟨sum, hrounds, hdigits⟩ := addRounds_eq left right 4 (le_refl 4)
  have hadd : uint256Add left right = ⟨sum⟩ := by
    rw [uint256Add, ← List.take_length (l := List.finRange 4), List.length_finRange, hrounds]
  have h0 : sum[0].toNat = loopDigit left right 0 := hdigits 0 (by decide)
  have h1 : sum[1].toNat = loopDigit left right 1 := hdigits 1 (by decide)
  have h2 : sum[2].toNat = loopDigit left right 2 := hdigits 2 (by decide)
  have h3 : sum[3].toNat = loopDigit left right 3 := hdigits 3 (by decide)
  rw [hadd, UInt256.toNat, h0, h1, h2, h3, value_succ, value_succ, value_succ, value_succ,
    value_zero]
  simp only [loopDigit]
  ring

/-- The adder adds up to the carries that it misses. -/
theorem uint256Add_add_lost :
    ((uint256Add left right).toNat + lostCarries left.toNat right.toNat) % 2 ^ 256 =
      (left.toNat + right.toNat) % 2 ^ 256 := by
  have hdigit (v : UInt256) : ∀ i < 3 + 1, digit (2 ^ 64) v.toNat i < 2 ^ 64 :=
    fun i _ => digit_lt (by norm_num) _ i
  have hsum := value_add_lost_mod (hdigit left) (hdigit right)
  rw [← toNat_uint256Add, ← UInt256.toNat_eq_value, ← UInt256.toNat_eq_value, ← pow_mul] at hsum
  exact hsum

/-- The sum is right modulo 2 ^ 256 when nothing is lost. -/
theorem toNat_uint256Add_iff_lost :
    (uint256Add left right).toNat = (left.toNat + right.toNat) % 2 ^ 256 ↔
      lostCarries left.toNat right.toNat = 0 := by
  have hsum := uint256Add_add_lost left right
  have hlt := (uint256Add left right).toNat_lt
  have hlost := lostCarries_le left.toNat right.toNat
  omega

end Adder

/-- The sum is right modulo 2 ^ 256 exactly when no carry is missed. -/
theorem uint256Add_eq_iff (left right : UInt256) :
    (uint256Add left right).toNat = (left.toNat + right.toNat) % 2 ^ 256 ↔
      CarriesKept left.toNat right.toNat := by
  have hsum := uint256Add_add_lost left right
  have hlt := (uint256Add left right).toNat_lt
  have hlost := lostCarries_le left.toNat right.toNat
  rw [← lostCarries_eq_zero_iff]
  omega

/-- Two equal limbs of all ones with a carry from the limb below. -/
theorem uint256Add_misses_carry :
    ¬∀ left right, (uint256Add left right).toNat = (left.toNat + right.toNat) % 2 ^ 256 := by
  intro h
  exact absurd (h ⟨#v[-1, -1, 0, 0]⟩ ⟨#v[-1, -1, 0, 0]⟩) (by decide +kernel)

section Subtraction
variable (left right : UInt256)

private theorem toNat_complement :
    (⟨right.data.map (fun limb => ~~~limb)⟩ : UInt256).toNat = 2 ^ 256 - 1 - right.toNat := by
  have h0 := right.data[0].isLt
  have h1 := right.data[1].isLt
  have h2 := right.data[2].isLt
  have h3 := right.data[3].isLt
  simp only [UInt256.toNat, Vector.getElem_map, BitVec.toNat_not]
  omega

/-- Adding one misses no carry, as all limbs of one but the first are zero. -/
theorem toNat_negate :
    (uint256Add ⟨right.data.map (fun limb => ~~~limb)⟩ (uint256CreateFromU64 1)).toNat =
      (2 ^ 256 - right.toNat) % 2 ^ 256 := by
  have hone : (uint256CreateFromU64 1).toNat = 1 := by decide
  have hlt := right.toNat_lt
  have hkept : CarriesKept (⟨right.data.map (fun limb => ~~~limb)⟩ : UInt256).toNat
      (uint256CreateFromU64 1).toNat := by
    rw [hone]
    intro i hi
    simp only [List.mem_cons, List.not_mem_nil, or_false] at hi
    rcases hi with rfl | rfl <;> omega
  rw [(toNat_uint256Add_iff_lost _ _).mpr ((lostCarries_eq_zero_iff _ _).mpr hkept),
    toNat_complement, hone]
  congr 1
  omega

/-- The limbs that make the negated number miss a carry. -/
private theorem carriesKept_negate {x y : ℕ} (hy : y < 2 ^ 256) :
    CarriesKept x ((2 ^ 256 - y) % 2 ^ 256) ↔
      ∀ i ∈ [1, 2], ¬(x / 2 ^ (64 * i) % 2 ^ 64 = 2 ^ 64 - 1 ∧ y / 2 ^ (64 * i) % 2 ^ 64 = 0 ∧
        0 < y % 2 ^ (64 * i) ∧ y % 2 ^ (64 * i) ≤ x % 2 ^ (64 * i)) := by
  refine forall₂_congr fun i hi => not_congr (and_congr_right fun _ => ?_)
  simp only [List.mem_cons, List.not_mem_nil, or_false] at hi
  rcases hi with rfl | rfl <;> omega

/-- The difference is right modulo 2 ^ 256 exactly when there is no limb 1 or 2 of all ones in the
left number over a zero limb in the right one with a nonzero part of the right number below it
that is not greater than that of the left one. -/
theorem uint256Sub_eq_iff :
    ((uint256Sub left right).toNat : ℤ) = ((left.toNat : ℤ) - right.toNat) % 2 ^ 256 ↔
      ∀ i ∈ [1, 2], ¬(left.toNat / 2 ^ (64 * i) % 2 ^ 64 = 2 ^ 64 - 1 ∧
        right.toNat / 2 ^ (64 * i) % 2 ^ 64 = 0 ∧ 0 < right.toNat % 2 ^ (64 * i) ∧
        right.toNat % 2 ^ (64 * i) ≤ left.toNat % 2 ^ (64 * i)) := by
  have hlt := right.toNat_lt
  have hsub : (uint256Sub left right).toNat = (left.toNat +
      (2 ^ 256 - right.toNat) % 2 ^ 256) % 2 ^ 256 ↔
      CarriesKept left.toNat ((2 ^ 256 - right.toNat) % 2 ^ 256) := by
    rw [← toNat_negate]
    exact (toNat_uint256Add_iff_lost _ _).trans (lostCarries_eq_zero_iff _ _)
  rw [← carriesKept_negate hlt, ← hsub]
  omega

end Subtraction

/-- Taking one from a number with a limb of all ones above the first one. -/
theorem uint256Sub_misses_carry :
    ¬∀ left right, ((uint256Sub left right).toNat : ℤ) =
      ((left.toNat : ℤ) - right.toNat) % 2 ^ 256 := by
  intro h
  exact absurd (h ⟨#v[1, -1, 0, 0]⟩ ⟨#v[1, 0, 0, 0]⟩) (by decide +kernel)

end CsfAssignments.Limbs
