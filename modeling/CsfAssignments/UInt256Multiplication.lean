import CsfAssignments.UInt256Addition
import Mathlib.Algebra.Order.Ring.Nat

/-!
# The multiplication

`uint256_mul` adds the right number shifted by every bit that is set in the left one. The shifts
and the bits are right for every index, so the product is wrong exactly when one of the additions
misses a carry.
-/

namespace CsfAssignments.Limbs

section Shift

theorem shl_eq {n : BitVec 64} {k : ℤ} {m : ℕ} (hk : k = m) (hm : m < 64) :
    shl n k = some (n <<< m) := by
  rw [shl, if_pos (by omega), hk, Int.toNat_natCast]

theorem shr_eq {n : BitVec 64} {k : ℤ} {m : ℕ} (hk : k = m) (hm : m < 64) :
    shr n k = some (n >>> m) := by
  rw [shr, if_pos (by omega), hk, Int.toNat_natCast]

variable {k : ℕ}

private theorem two_pow_split (hk : k ≤ 64) : 2 ^ (64 - k) * 2 ^ k = 2 ^ 64 := by
  rw [← pow_add, Nat.sub_add_cancel hk]

theorem toNat_shl (n : BitVec 64) : (n <<< k).toNat = n.toNat * 2 ^ k % 2 ^ 64 := by
  rw [BitVec.toNat_shiftLeft, Nat.shiftLeft_eq]

/-- What a shift moves out of a limb. -/
theorem toNat_shr (hk : k ≤ 64) (n : BitVec 64) :
    (n >>> (64 - k)).toNat = n.toNat * 2 ^ k / 2 ^ 64 := by
  rw [BitVec.toNat_ushiftRight, Nat.shiftRight_eq_div_pow, ← two_pow_split hk,
    Nat.mul_div_mul_right _ _ (by positivity)]

/-- A shifted limb and what is moved into it. -/
theorem toNat_shl_add_shr (hk : k ≤ 64) (n low : BitVec 64) :
    (n <<< k + low >>> (64 - k)).toNat =
      n.toNat * 2 ^ k % 2 ^ 64 + low.toNat * 2 ^ k / 2 ^ 64 := by
  have hsplit := two_pow_split hk
  have hhigh : n.toNat * 2 ^ k % 2 ^ 64 = n.toNat % 2 ^ (64 - k) * 2 ^ k := by
    rw [← hsplit, Nat.mul_mod_mul_right]
  have hroom : n.toNat % 2 ^ (64 - k) * 2 ^ k + 2 ^ k ≤ 2 ^ 64 := by
    rw [← Nat.succ_mul, ← hsplit]
    exact Nat.mul_le_mul_right _ (Nat.mod_lt _ (by positivity))
  have hlow : low.toNat * 2 ^ k / 2 ^ 64 < 2 ^ k := by
    rw [Nat.div_lt_iff_lt_mul (by positivity), Nat.mul_comm]
    exact Nat.mul_lt_mul_of_pos_left low.isLt (by positivity)
  rw [BitVec.toNat_add, toNat_shl, toNat_shr hk, Nat.mod_eq_of_lt (by omega)]

/-- The mask of the longest shifts removes only bits that are moved out. -/
theorem masked_shl (hk : 0 < k) (n : BitVec 64) :
    (n &&& ~~~(~~~0#64 <<< (64 - k))) <<< k = n <<< k := by
  refine BitVec.eq_of_getLsbD_eq fun i hi => ?_
  rw [BitVec.getLsbD_shiftLeft, BitVec.getLsbD_shiftLeft, BitVec.getLsbD_and, BitVec.getLsbD_not,
    BitVec.getLsbD_shiftLeft]
  by_cases hik : i < k
  · simp [hik]
  · simp [hik, show i - k < 64 - k by omega, show i - k < 64 by omega]

variable (d0 d1 d2 d3 : BitVec 64)

private theorem toNat_create : (uint256Create #v[d0, d1, d2, d3]).toNat =
    d0.toNat + d1.toNat * 2 ^ 64 + d2.toNat * 2 ^ 128 + d3.toNat * 2 ^ 192 := rfl

/-- A shift by less than a limb. -/
private theorem toNat_shift_within (hk : k ≤ 64) :
    (uint256Create #v[d0 <<< k, d1 <<< k + d0 >>> (64 - k), d2 <<< k + d1 >>> (64 - k),
      d3 <<< k + d2 >>> (64 - k)]).toNat =
    (uint256Create #v[d0, d1, d2, d3]).toNat * 2 ^ k % 2 ^ 256 := by
  have h1 := (d1 <<< k + d0 >>> (64 - k)).isLt
  have h2 := (d2 <<< k + d1 >>> (64 - k)).isLt
  have h3 := (d3 <<< k + d2 >>> (64 - k)).isLt
  have hmul : (uint256Create #v[d0, d1, d2, d3]).toNat * 2 ^ k = d0.toNat * 2 ^ k +
      d1.toNat * 2 ^ k * 2 ^ 64 + d2.toNat * 2 ^ k * 2 ^ 128 + d3.toNat * 2 ^ k * 2 ^ 192 := by
    rw [toNat_create]
    ring
  rw [hmul, toNat_create, toNat_shl]
  rw [toNat_shl_add_shr hk] at h1 h2 h3
  rw [toNat_shl_add_shr hk, toNat_shl_add_shr hk, toNat_shl_add_shr hk]
  omega

/-- A shift by whole limbs and then by less than a limb. -/
private theorem toNat_shift_up {v q shift : ℕ} (hk : k ≤ 64) (hshift : q + k = shift)
    (hup : (uint256Create #v[d0, d1, d2, d3]).toNat = v * 2 ^ q % 2 ^ 256) :
    (uint256Create #v[d0 <<< k, d1 <<< k + d0 >>> (64 - k), d2 <<< k + d1 >>> (64 - k),
      d3 <<< k + d2 >>> (64 - k)]).toNat = v * 2 ^ shift % 2 ^ 256 := by
  rw [toNat_shift_within _ _ _ _ hk, hup, Nat.mod_mul_mod, Nat.mul_assoc, ← pow_add, hshift]

/-- The limbs moved up by one, two or three. -/
private theorem toNat_up :
    (uint256Create #v[0, d0, d1, d2]).toNat =
        (uint256Create #v[d0, d1, d2, d3]).toNat * 2 ^ 64 % 2 ^ 256 ∧
      (uint256Create #v[0, 0, d0, d1]).toNat =
        (uint256Create #v[d0, d1, d2, d3]).toNat * 2 ^ 128 % 2 ^ 256 ∧
      (uint256Create #v[0, 0, 0, d0]).toNat =
        (uint256Create #v[d0, d1, d2, d3]).toNat * 2 ^ 192 % 2 ^ 256 := by
  have h0 := d0.isLt
  have h1 := d1.isLt
  have h2 := d2.isLt
  rw [toNat_create, toNat_create, toNat_create, toNat_create]
  simp only [BitVec.ofNat_eq_ofNat, BitVec.toNat_ofNat]
  omega

/-- The shifter multiplies modulo 2 ^ 256. -/
theorem uint256LeftShift_eq (val : UInt256) {shift : ℕ} (hshift : shift < 256) :
    ∃ res, uint256LeftShift val shift = some res ∧
      res.toNat = val.toNat * 2 ^ shift % 2 ^ 256 := by
  obtain ⟨hup1, hup2, hup3⟩ := toNat_up val.data[0] val.data[1] val.data[2] val.data[3]
  have hval : (uint256Create #v[val.data[0], val.data[1], val.data[2], val.data[3]]).toNat =
      val.toNat := rfl
  rw [hval] at hup1 hup2 hup3
  rw [uint256LeftShift]
  split_ifs with h192 heq192 h128 heq128 h64 heq64 hpos
  · have hmask : shl (~~~0) (256 - shift) = some (~~~0#64 <<< (64 - (shift - 192))) :=
      shl_eq (by omega) (by omega)
    have hshl (n : BitVec 64) : shl n (shift - 192) = some (n <<< (shift - 192)) :=
      shl_eq (by omega) (by omega)
    have hres := toNat_shift_up 0 0 0 val.data[0] (by omega)
      (show 192 + (shift - 192) = shift by omega) hup3
    refine ⟨uint256Create #v[0, 0, 0, val.data[0] <<< (shift - 192)], ?_, by simpa using hres⟩
    simp only [hmask, hshl, Option.bind_eq_bind, Option.bind_some, Option.pure_def,
      masked_shl (show 0 < shift - 192 by omega)]
  · subst heq192
    exact ⟨_, rfl, hup3⟩
  · have hshl (n : BitVec 64) : shl n (64 - (256 - shift - 64)) = some (n <<< (shift - 128)) :=
      shl_eq (by omega) (by omega)
    have hshr (n : BitVec 64) : shr n (256 - shift - 64) = some (n >>> (64 - (shift - 128))) :=
      shr_eq (by omega) (by omega)
    have hres := toNat_shift_up 0 0 val.data[0] val.data[1] (by omega)
      (show 128 + (shift - 128) = shift by omega) hup2
    refine ⟨uint256Create #v[0, 0, val.data[0] <<< (shift - 128),
      val.data[1] <<< (shift - 128) + val.data[0] >>> (64 - (shift - 128))], ?_,
      by simpa using hres⟩
    simp only [hshl, hshr, Option.bind_eq_bind, Option.bind_some, Option.pure_def]
  · subst heq128
    exact ⟨_, rfl, hup2⟩
  · have hshl (n : BitVec 64) : shl n (shift - 64) = some (n <<< (shift - 64)) :=
      shl_eq (by omega) (by omega)
    have hshr (n : BitVec 64) : shr n (64 - (shift - 64)) = some (n >>> (64 - (shift - 64))) :=
      shr_eq (by omega) (by omega)
    have hres := toNat_shift_up 0 val.data[0] val.data[1] val.data[2] (by omega)
      (show 64 + (shift - 64) = shift by omega) hup1
    refine ⟨uint256Create #v[0, val.data[0] <<< (shift - 64),
      val.data[1] <<< (shift - 64) + val.data[0] >>> (64 - (shift - 64)),
      val.data[2] <<< (shift - 64) + val.data[1] >>> (64 - (shift - 64))], ?_, by simpa using hres⟩
    simp only [hshl, hshr, Option.bind_eq_bind, Option.bind_some, Option.pure_def]
  · subst heq64
    exact ⟨_, rfl, hup1⟩
  · have hshl (n : BitVec 64) : shl n shift = some (n <<< shift) := shl_eq rfl (by omega)
    have hshr (n : BitVec 64) : shr n (64 - shift) = some (n >>> (64 - shift)) :=
      shr_eq (by omega) (by omega)
    refine ⟨_, ?_, toNat_shift_within val.data[0] val.data[1] val.data[2] val.data[3] (by omega)⟩
    simp only [hshl, hshr, Option.bind_eq_bind, Option.bind_some, Option.pure_def]
  · obtain rfl : shift = 0 := by omega
    refine ⟨_, rfl, ?_⟩
    show val.toNat = _
    rw [pow_zero, Nat.mul_one, Nat.mod_eq_of_lt val.toNat_lt]

end Shift

section Bits

private theorem limbBit_eq (limb : BitVec 64) (index : ℕ) :
    limbBit limb index = if limb.toNat.testBit (index % 64) then 1 else 0 := by
  have hmask : 1#64 <<< (index % 64) = BitVec.twoPow 64 (index % 64) := rfl
  have hne : BitVec.twoPow 64 (index % 64) ≠ 0 := by
    intro h
    have hpow := BitVec.toNat_twoPow_of_lt (Nat.mod_lt index (show 64 > 0 by decide))
    rw [h] at hpow
    exact (Nat.two_pow_pos _).ne hpow
  rw [limbBit, hmask, BitVec.and_twoPow, BitVec.testBit_toNat]
  cases limb.getLsbD (index % 64) with
  | true => rw [if_pos rfl, if_pos hne, if_pos rfl]
  | false => rfl

private theorem testBit_toNat (val : UInt256) (i : Fin 4) {index : ℕ} (hindex : index / 64 = i) :
    (val.data.get i).toNat.testBit (index % 64) = val.toNat.testBit index := by
  rw [← UInt256.digit_toNat, CarryChains.digit, Nat.testBit_mod_two_pow, ← pow_mul,
    Nat.testBit_div_two_pow, decide_eq_true (Nat.mod_lt _ (by decide)), Bool.true_and, ← hindex,
    Nat.mod_add_div]

theorem uint256BitIsSet_eq (val : UInt256) {index : ℕ} (hindex : index < 256) :
    uint256BitIsSet val index = if val.toNat.testBit index then 1 else 0 := by
  have hlimb (i : Fin 4) (hi : index / 64 = i) :
      limbBit (val.data.get i) index = if val.toNat.testBit index then 1 else 0 := by
    rw [limbBit_eq, testBit_toNat val i hi]
  have hquot : index / 64 = 0 ∨ index / 64 = 1 ∨ index / 64 = 2 ∨ index / 64 = 3 := by omega
  rw [uint256BitIsSet]
  rcases hquot with h | h | h | h
  · rw [if_pos h]
    exact hlimb 0 h
  · rw [if_neg (by omega), if_pos h]
    exact hlimb 1 h
  · rw [if_neg (by omega), if_neg (by omega), if_pos h]
    exact hlimb 2 h
  · rw [if_neg (by omega), if_neg (by omega), if_neg (by omega), if_pos h]
    exact hlimb 3 h

theorem uint256BitIsSet_eq_one_iff (val : UInt256) (index : ℕ) :
    uint256BitIsSet val index = 1 ↔ val.toNat.testBit index := by
  rcases Nat.lt_or_ge index 256 with hindex | hindex
  · rw [uint256BitIsSet_eq val hindex]
    split_ifs with hbit <;> simp [hbit]
  · have hlt := val.toNat_lt.trans_le (Nat.pow_le_pow_right (by decide) hindex)
    have hquot : 4 ≤ index / 64 := by omega
    rw [Nat.testBit_lt_two_pow hlt, uint256BitIsSet, if_neg (by omega), if_neg (by omega),
      if_neg (by omega), if_neg (by omega)]
    decide

/-- The shifter moves every bit up by the amount, and the bits that leave the 256 are lost. -/
theorem uint256LeftShift_bits (val : UInt256) {shift : ℕ} (hshift : shift < 256) :
    ∃ res, uint256LeftShift val shift = some res ∧
      res.toNat = val.toNat * 2 ^ shift % 2 ^ 256 ∧
      ∀ index, uint256BitIsSet res index = 1 ↔
        shift ≤ index ∧ index < 256 ∧ uint256BitIsSet val (index - shift) = 1 := by
  obtain ⟨res, hres, hvalue⟩ := uint256LeftShift_eq val hshift
  refine ⟨res, hres, hvalue, fun index => ?_⟩
  rw [uint256BitIsSet_eq_one_iff, uint256BitIsSet_eq_one_iff, hvalue, Nat.testBit_mod_two_pow,
    Nat.testBit_mul_two_pow]
  simp only [Bool.and_eq_true, decide_eq_true_eq]
  tauto

theorem uint256LeftShift_bits_across_limbs :
    ∃ res, uint256LeftShift (.ofNat (3 * 2 ^ 63)) 127 = some res ∧
      res.toNat = (UInt256.ofNat (3 * 2 ^ 63)).toNat * 2 ^ 127 % 2 ^ 256 ∧
      ∀ index, uint256BitIsSet res index = 1 ↔
        127 ≤ index ∧ index < 256 ∧
          uint256BitIsSet (.ofNat (3 * 2 ^ 63)) (index - 127) = 1 :=
  uint256LeftShift_bits (.ofNat (3 * 2 ^ 63)) (by decide)

end Bits

section Product
variable (left right : UInt256)

/-- The addition of round `i` misses no carry, when all rounds before it were right. -/
def RoundKept (x y i : ℕ) : Prop :=
  x.testBit i = true → CarriesKept (x % 2 ^ i * y % 2 ^ 256) (y * 2 ^ i % 2 ^ 256)

instance (x y i : ℕ) : Decidable (RoundKept x y i) := inferInstanceAs (Decidable (_ → _))

/-- The first bits of a number, times another one. -/
theorem mod_two_pow_succ_mul (x y n : ℕ) :
    x % 2 ^ (n + 1) * y = x % 2 ^ n * y + (x.testBit n).toNat * (y * 2 ^ n) := by
  rw [Nat.mod_pow_succ, Nat.toNat_testBit]
  ring

/-- An invariant of the rounds. A round leaves the product as it is if its bit is not set, and
adds the shifted right number to it otherwise. -/
theorem exists_mulRounds {P : ℕ → UInt256 → Prop} (hstart : P 0 ⟨#v[0, 0, 0, 0]⟩)
    (hskip : ∀ n product, left.toNat.testBit n = false → P n product → P (n + 1) product)
    (hadd : ∀ n product res, left.toNat.testBit n = true →
      res.toNat = right.toNat * 2 ^ n % 2 ^ 256 → P n product →
      P (n + 1) (uint256Add product res)) {n : ℕ} (hn : n ≤ 256) :
    ∃ product, (List.range n).foldlM (mulRound left right) ⟨#v[0, 0, 0, 0]⟩ = some product ∧
      P n product := by
  induction n with
  | zero => exact ⟨_, rfl, hstart⟩
  | succ n ih =>
    obtain ⟨product, hrounds, hinv⟩ := ih (by omega)
    have hbit := uint256BitIsSet_eq left (show n < 256 by omega)
    have hround : (List.range (n + 1)).foldlM (mulRound left right) ⟨#v[0, 0, 0, 0]⟩ =
        mulRound left right product n := by
      rw [List.range_succ, List.foldlM_append, hrounds]
      exact bind_pure (mulRound left right product n)
    rw [hround, mulRound, hbit]
    cases hset : left.toNat.testBit n with
    | false => exact ⟨product, by simp, hskip n product hset hinv⟩
    | true =>
      obtain ⟨res, hres, hvalue⟩ := uint256LeftShift_eq right (show n < 256 by omega)
      exact ⟨uint256Add product res, by simp [hres], hadd n product res hset hvalue hinv⟩

/-- The product of the first bits of the left number, but for the carries that were missed. -/
private def Accumulated (n : ℕ) (product : UInt256) : Prop :=
  ∃ missing, (product.toNat + missing) % 2 ^ 256 =
      left.toNat % 2 ^ n * right.toNat % 2 ^ 256 ∧
    missing ≤ n * 2 ^ 193 ∧ (missing = 0 ↔ ∀ i < n, RoundKept left.toNat right.toNat i)

/-- The rounds miss nothing but these carries. -/
private theorem exists_accumulated {n : ℕ} (hn : n ≤ 256) : ∃ product,
    (List.range n).foldlM (mulRound left right) ⟨#v[0, 0, 0, 0]⟩ = some product ∧
      Accumulated left right n product := by
  refine exists_mulRounds left right ⟨0, by simp [Nat.mod_one]; rfl, le_refl _, by simp⟩ ?_ ?_ hn
  · rintro n product hset ⟨missing, hvalue, hle, hzero⟩
    refine ⟨missing, ?_, hle.trans (Nat.mul_le_mul_right _ n.le_succ), ?_⟩
    · rw [mod_two_pow_succ_mul, hset, Bool.toNat_false, Nat.zero_mul, Nat.add_zero, hvalue]
    · rw [hzero, Nat.forall_lt_succ_right]
      simp [RoundKept, hset]
  · rintro n product res hset hresValue ⟨missing, hvalue, hle, hzero⟩
    have hadd := uint256Add_add_lost product res
    have hlost := lostCarries_le product.toNat res.toNat
    refine ⟨missing + lostCarries product.toNat res.toNat, ?_, by omega, ?_⟩
    · rw [mod_two_pow_succ_mul, hset, Bool.toNat_true, Nat.one_mul]
      omega
    · rw [Nat.add_eq_zero_iff, hzero, lostCarries_eq_zero_iff, Nat.forall_lt_succ_right]
      refine and_congr_right fun hkept => ?_
      -- up to here nothing is missed, so the addition is that of the right numbers
      have hexact : product.toNat = left.toNat % 2 ^ n * right.toNat % 2 ^ 256 := by
        rw [← hvalue, hzero.mpr hkept, Nat.add_zero, Nat.mod_eq_of_lt product.toNat_lt]
      rw [RoundKept, hset, hexact, hresValue]
      simp

end Product

/-- The product is right modulo 2 ^ 256 exactly when none of the additions of a partial product
and a shifted right number misses a carry. -/
theorem uint256Mul_eq_iff (left right : UInt256) :
    (uint256Mul left right).map UInt256.toNat = some (left.toNat * right.toNat % 2 ^ 256) ↔
      ∀ i < 256, left.toNat.testBit i = true →
        CarriesKept (left.toNat % 2 ^ i * right.toNat % 2 ^ 256)
          (right.toNat * 2 ^ i % 2 ^ 256) := by
  obtain ⟨product, hrounds, missing, hvalue, hle, hzero⟩ :=
    exists_accumulated left right (le_refl 256)
  have hlt := product.toNat_lt
  rw [Nat.mod_eq_of_lt left.toNat_lt] at hvalue
  rw [uint256Mul, hrounds, Option.map_some, Option.some.injEq]
  refine Iff.trans ?_ hzero
  omega

/-- Three times the greatest number of two limbs. -/
theorem uint256Mul_misses_carry :
    ¬∀ left right, (uint256Mul left right).map UInt256.toNat =
      some (left.toNat * right.toNat % 2 ^ 256) := by
  intro h
  exact absurd (h ⟨#v[3, 0, 0, 0]⟩ ⟨#v[-1, -1, 0, 0]⟩) (by decide +kernel)

end CsfAssignments.Limbs
