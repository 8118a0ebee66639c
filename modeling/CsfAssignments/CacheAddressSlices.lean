import CsfAssignments.CacheModel
import Mathlib.Algebra.Order.Ring.Int
import Mathlib.Tactic.Ring

/-!
# Address slicing of accepted configurations

With power-of-two sizes whose product fits the 32-bit address, the two slices are the
set index and the tag of the accessed block: its number modulo and divided by the
number of sets.
-/

namespace CsfAssignments.Csim

/-- A positive power of two that an `int` holds. -/
def PowerOfTwo (n : ℤ) : Prop := ∃ k < 31, n = 2 ^ k

/-- Power-of-two sizes whose bit fields fit the address. -/
structure Config.Sized (cfg : Config) : Prop where
  setNum : PowerOfTwo cfg.setNum
  blockNum : PowerOfTwo cfg.blockNum
  byteNum : PowerOfTwo cfg.byteNum
  four_le : 4 ≤ cfg.byteNum
  address : cfg.setNum * cfg.byteNum < 2 ^ 32

/-- The configurations the properties are about: power-of-two sizes within the
address, and a pair of write policies that `main` accepts together. -/
structure Config.Valid (cfg : Config) : Prop where
  setNum : PowerOfTwo cfg.setNum
  blockNum : PowerOfTwo cfg.blockNum
  byteNum : PowerOfTwo cfg.byteNum
  four_le : 4 ≤ cfg.byteNum
  address : cfg.setNum * cfg.byteNum < 2 ^ 32
  policy : cfg.writeAllocate = true ∨ cfg.writeThrough = true

theorem Config.Valid.sized {cfg : Config} (h : cfg.Valid) : cfg.Sized :=
  ⟨h.setNum, h.blockNum, h.byteNum, h.four_le, h.address⟩

/-- Two sets of two blocks of four bytes, with write-back. -/
def smallConfig (lru : Bool) : Config := ⟨2, 2, 4, true, false, lru⟩

theorem smallConfig_valid (lru : Bool) : (smallConfig lru).Valid where
  setNum := ⟨1, by decide, rfl⟩
  blockNum := ⟨1, by decide, rfl⟩
  byteNum := ⟨2, by decide, rfl⟩
  four_le := le_refl (4 : ℤ)
  address := show (2 : ℤ) * 4 < 2 ^ 32 by decide
  policy := .inl rfl

/-- The number of sets and the number of blocks of a set, as natural numbers. -/
def Config.sets (cfg : Config) : ℕ := cfg.setNum.toNat

def Config.ways (cfg : Config) : ℕ := cfg.blockNum.toNat

/-- The number of the block an address lies in. -/
def Config.block (cfg : Config) (address : BitVec 32) : ℕ := address.toNat / cfg.byteNum.toNat

def Config.index (cfg : Config) (address : BitVec 32) : ℕ := cfg.block address % cfg.sets

def Config.tag (cfg : Config) (address : BitVec 32) : Tag :=
  BitVec.ofNat 32 (cfg.block address / cfg.sets)

/-- The block stored under a tag of a set. -/
def Config.blockAt (cfg : Config) (index : ℕ) (tag : Tag) : ℕ := tag.toNat * cfg.sets + index

private theorem lowMask_toNat : ∀ k < 32, (~~~(~~~0#32 <<< k)).toNat = 2 ^ k - 1 := by decide

theorem highestBitSet_two_pow :
    ∀ k < 31, highestBitSet (BitVec.ofInt 32 (2 ^ k)) = k := by decide

private theorem toNat_two_pow (k : ℕ) : ((2 : ℤ) ^ k).toNat = 2 ^ k := by
  have hcast : ((2 : ℤ) ^ k) = ((2 ^ k : ℕ) : ℤ) := by push_cast; rfl
  rw [hcast, Int.toNat_natCast]

private theorem shiftAmount_natCast {n : ℕ} (hn : n < 32) : shiftAmount (n : ℤ) = some n := by
  simp [shiftAmount, show (n : ℤ) < 32 by omega]

private theorem getLowSig_eq {n m : ℕ} (hn : n < 32) (hm : m < 32) (num : BitVec 32) :
    getLowSig num n m = some (BitVec.ofNat 32 (num.toNat / 2 ^ n % 2 ^ m)) := by
  simp only [getLowSig, getLeastSigN, shiftAmount_natCast hn, shiftAmount_natCast hm,
    Option.bind_eq_bind, Option.bind_some, Option.pure_def, Option.some.injEq]
  apply BitVec.eq_of_toNat_eq
  have hlt : num.toNat / 2 ^ n % 2 ^ m < 2 ^ 32 :=
    lt_of_le_of_lt ((Nat.mod_le _ _).trans (Nat.div_le_self _ _)) num.isLt
  rw [BitVec.toNat_and, lowMask_toNat m hm, Nat.and_two_pow_sub_one_eq_mod,
    BitVec.toNat_ushiftRight, Nat.shiftRight_eq_div_pow, BitVec.toNat_ofNat,
    Nat.mod_eq_of_lt hlt]

namespace Config.Sized

variable {cfg : Config}

theorem sets_pos (h : cfg.Sized) : 0 < cfg.sets := by
  obtain ⟨k, -, hk⟩ := h.setNum
  simp [Config.sets, hk]

theorem ways_pos (h : cfg.Sized) : 0 < cfg.ways := by
  obtain ⟨k, -, hk⟩ := h.blockNum
  simp [Config.ways, hk]

theorem ways_lt (h : cfg.Sized) : cfg.ways < 2 ^ 31 := by
  obtain ⟨k, hk, he⟩ := h.blockNum
  have hpow : (2 : ℕ) ^ k < 2 ^ 31 := Nat.pow_lt_pow_right (by omega) hk
  rwa [Config.ways, he, toNat_two_pow]

theorem ways_cast (h : cfg.Sized) : (cfg.ways : ℤ) = cfg.blockNum := by
  obtain ⟨k, -, he⟩ := h.blockNum
  simp [Config.ways, he]

/-- The bit lengths of the three parts of an address. -/
theorem lengths (h : cfg.Sized) : ∃ i o : ℕ, cfg.sets = 2 ^ i ∧
    cfg.byteNum.toNat = 2 ^ o ∧ cfg.indexLen = i ∧ cfg.offsetLen = o ∧ i < 32 ∧ 2 ≤ o ∧
    i + o < 32 := by
  obtain ⟨i, hi, hsets⟩ := h.setNum
  obtain ⟨o, ho, hbytes⟩ := h.byteNum
  refine ⟨i, o, by rw [Config.sets, hsets, toNat_two_pow], by rw [hbytes, toNat_two_pow], ?_, ?_,
    by omega, ?_, ?_⟩
  · rw [Config.indexLen, hsets, highestBitSet_two_pow i hi]
  · rw [Config.offsetLen, hbytes, highestBitSet_two_pow o ho]
  · have hfour := h.four_le
    rw [hbytes] at hfour
    by_contra hlt
    have hsmall : o = 0 ∨ o = 1 := by omega
    rcases hsmall with rfl | rfl
    · omega
    · omega
  · have haddr := h.address
    rw [hsets, hbytes, ← pow_add] at haddr
    exact (pow_lt_pow_iff_right₀ (by norm_num)).mp haddr

/-- The slices of an address are defined and select its block. -/
theorem slice_eq (h : cfg.Sized) (address : BitVec 32) :
    slice cfg address = some (BitVec.ofNat 32 (cfg.index address), cfg.tag address) := by
  obtain ⟨i, o, hsets, hbytes, hindex, hoffset, hi, ho, hio⟩ := h.lengths
  have htag : cfg.tagLen = ((32 - i - o : ℕ) : ℤ) := by
    rw [Config.tagLen, hindex, hoffset]
    omega
  have hsum : cfg.indexLen + cfg.offsetLen = ((i + o : ℕ) : ℤ) := by
    rw [hindex, hoffset]
    omega
  have hlt : address.toNat / 2 ^ (i + o) < 2 ^ (32 - i - o) := by
    apply Nat.div_lt_of_lt_mul
    rw [← pow_add, show i + o + (32 - i - o) = 32 by omega]
    exact address.isLt
  rw [slice, hsum, htag, hoffset, hindex, getLowSig_eq (show o < 32 by omega) hi,
    getLowSig_eq hio (show 32 - i - o < 32 by omega)]
  simp only [Option.bind_eq_bind, Option.bind_some, Option.pure_def]
  simp only [Config.index, Config.tag, Config.block, hsets, hbytes, Nat.mod_eq_of_lt hlt,
    Nat.div_div_eq_div_mul, ← pow_add, Nat.add_comm o i]

theorem index_lt (h : cfg.Sized) (address : BitVec 32) : cfg.index address < cfg.sets :=
  Nat.mod_lt _ h.sets_pos

theorem index_toNat (cfg : Config) (address : BitVec 32) :
    (BitVec.ofNat 32 (cfg.index address)).toNat = cfg.index address := by
  have hle : cfg.index address ≤ address.toNat :=
    (Nat.mod_le _ _).trans (Nat.div_le_self _ _)
  rw [BitVec.toNat_ofNat, Nat.mod_eq_of_lt (lt_of_le_of_lt hle address.isLt)]

/-- A block is the one stored under its tag of its set. -/
theorem blockAt_eq (cfg : Config) (address : BitVec 32) :
    cfg.blockAt (cfg.index address) (cfg.tag address) = cfg.block address := by
  have hle : cfg.block address / cfg.sets ≤ address.toNat :=
    (Nat.div_le_self _ _).trans (Nat.div_le_self _ _)
  rw [Config.blockAt, Config.tag, BitVec.toNat_ofNat,
    Nat.mod_eq_of_lt (lt_of_le_of_lt hle address.isLt), Config.index, Nat.mul_comm]
  exact Nat.div_add_mod _ _

theorem blockAt_injective (h : cfg.Sized) (index : ℕ) :
    Function.Injective (cfg.blockAt index) := by
  intro s t he
  apply BitVec.eq_of_toNat_eq
  exact Nat.eq_of_mul_eq_mul_right h.sets_pos (Nat.add_right_cancel he)

end Config.Sized
end CsfAssignments.Csim
