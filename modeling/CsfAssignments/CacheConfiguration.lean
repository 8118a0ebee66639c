import CsfAssignments.CacheOrderInvariant
import CsfAssignments.CacheResidentTags
import CsfAssignments.UInt256Model

/-!
# Which accepted configurations are usable

The checks of `csim.cpp` on its command line, and exactly when the configurations that pass
them keep the shifts, the set indices and the sets of the simulator within their bounds.
-/

namespace CsfAssignments.Csim
open Limbs (isSpace skipSign)

/-- `strtol(nptr, endptr, 10)` without its limits; no result when there is no digit. -/
def strtol (nptr : List Char) : Option ℤ :=
  let (negative, s) := skipSign (nptr.dropWhile isSpace)
  match s.takeWhile Char.isDigit with
  | [] => none
  | digits =>
    let n : ℤ := digits.foldl (fun n c => 10 * n + (c.toNat - '0'.toNat)) 0
    some (if negative then -n else n)

/-- `std::stoi`; no result stands for either of its exceptions. -/
def stoi (str : String) : Option ℤ :=
  (strtol str.toList).filter (fun n => -2 ^ 31 ≤ n ∧ n < 2 ^ 31)

/-- `is_power_of_two`; for the least `int` the subtraction overflows. -/
def isPowerOfTwo (n : ℤ) : Option Bool :=
  if n = -2 ^ 31 then none
  else
    let temp := BitVec.ofInt 32 n &&& BitVec.ofInt 32 (n - 1)
    some (temp = 0#32)

/-- One of the two policy words of an argument. -/
def policyArgument (arg yes no : String) : Option Bool :=
  if arg = yes ∨ arg = no then some (arg = yes) else none

/-- The checks of `main` on the sizes, in their order of evaluation. -/
def sizesRefused (setNum blockNum byteNum : ℤ) : Option Bool := do
  if !(← isPowerOfTwo setNum) then some true
  else if !(← isPowerOfTwo blockNum) then some true
  else if !(← isPowerOfTwo byteNum) then some true
  else some (byteNum < 4)

/-- `main` up to the constructor of the cache: the configuration of a command line, or the
error message. No result is an undefined check. -/
def mainArguments (argv : List String) : Option (Except String Config) :=
  let invalid := some (.error "Invalid command line argument!")
  match argv with
  | [_, arg1, arg2, arg3, arg4, arg5, arg6] =>
    match stoi arg1, stoi arg2, stoi arg3 with
    | some setNum, some blockNum, some byteNum =>
      match policyArgument arg4 "write-allocate" "no-write-allocate",
          policyArgument arg5 "write-through" "write-back", policyArgument arg6 "lru" "fifo" with
      | some writeAllocate, some writeThrough, some lru => do
        if ← sizesRefused setNum blockNum byteNum then invalid
        else if arg4 = "no-write-allocate" ∧ arg5 = "write-back" then invalid
        else some (.ok ⟨setNum, blockNum, byteNum, writeAllocate, writeThrough, lru⟩)
      | _, _, _ => invalid
    | _, _, _ => invalid
  | _ => invalid

/-- What `load` and `store` rely on, for every address and every trace. An access has no
result when it evicts with a victim key that was never assigned. -/
structure Usable (cfg : Config) : Prop where
  shifts : ∀ n ∈ [cfg.offsetLen, cfg.indexLen, cfg.indexLen + cfg.offsetLen, cfg.tagLen],
    0 ≤ n ∧ n ≤ 31
  index_lt : ∀ address, ∃ index tag, slice cfg address = some (index, tag) ∧
    index.toNat < (cache cfg).data.length
  bounded : ∀ h c, Run cfg h c → ∀ a, ∃ c', perform cfg c a = some c' ∧
    ∀ s ∈ c'.data, (s.length : ℤ) ≤ cfg.blockNum

private theorem stoi_range {str : String} {n : ℤ} (h : stoi str = some n) :
    -2 ^ 31 ≤ n ∧ n < 2 ^ 31 := by
  simpa using (Option.filter_eq_some_iff.mp h).2

private theorem msb_of_neg {n : ℤ} (hlow : -2 ^ 31 ≤ n) (hneg : n < 0) :
    (BitVec.ofInt 32 n).msb = true := by
  rw [BitVec.msb_eq_decide, BitVec.toNat_ofInt]
  exact decide_eq_true (by omega)

/-- The test accepts zero and the powers of two. -/
private theorem isPowerOfTwo_cases {n : ℤ} (hrange : -2 ^ 31 ≤ n ∧ n < 2 ^ 31)
    (h : isPowerOfTwo n = some true) : n = 0 ∨ PowerOfTwo n := by
  obtain ⟨hlow, hhigh⟩ := hrange
  rw [isPowerOfTwo] at h
  have hmin : n ≠ -2 ^ 31 := by
    rintro rfl
    simp at h
  rw [if_neg hmin] at h
  have hand : BitVec.ofInt 32 n &&& BitVec.ofInt 32 (n - 1) = 0#32 := by simpa using h
  rcases lt_trichotomy n 0 with hneg | rfl | hpos
  · have hmsb := congrArg BitVec.msb hand
    rw [BitVec.msb_and, msb_of_neg hlow hneg, msb_of_neg (by omega) (by omega)] at hmsb
    cases hmsb
  · exact .inl rfl
  · have hnat := congrArg BitVec.toNat hand
    obtain ⟨m, rfl⟩ := Int.eq_ofNat_of_zero_le hpos.le
    have hm : (BitVec.ofInt 32 (m : ℤ)).toNat = m := by
      rw [BitVec.toNat_ofInt]
      omega
    have hm' : (BitVec.ofInt 32 ((m : ℤ) - 1)).toNat = m - 1 := by
      rw [BitVec.toNat_ofInt]
      omega
    rw [BitVec.toNat_and, hm, hm'] at hnat
    obtain ⟨k, rfl⟩ := (Nat.and_sub_one_eq_zero_iff_isPowerOfTwo (by omega)).mp hnat
    refine .inr ⟨k, ?_, by push_cast; rfl⟩
    have hlt : 2 ^ k < 2 ^ 31 := by exact_mod_cast hhigh
    exact (Nat.pow_lt_pow_iff_right (by omega)).mp hlt

/-- The checks on the sizes, one by one. -/
private theorem sizesRefused_eq_false {setNum blockNum byteNum : ℤ}
    (h : sizesRefused setNum blockNum byteNum = some false) :
    isPowerOfTwo setNum = some true ∧ isPowerOfTwo blockNum = some true ∧
      isPowerOfTwo byteNum = some true ∧ 4 ≤ byteNum := by
  rw [sizesRefused] at h
  rcases hs : isPowerOfTwo setNum with _ | _ | _
  · simp [hs] at h
  · simp [hs] at h
  rcases hb : isPowerOfTwo blockNum with _ | _ | _
  · simp [hs, hb] at h
  · simp [hs, hb] at h
  rcases hn : isPowerOfTwo byteNum with _ | _ | _
  · simp [hs, hb, hn] at h
  · simp [hs, hb, hn] at h
  · simpa [hs, hb, hn] using h

/-- What an accepted command line says about its sizes. -/
theorem mainArguments_ok {argv : List String} {cfg : Config}
    (h : mainArguments argv = some (.ok cfg)) :
    (cfg.setNum = 0 ∨ PowerOfTwo cfg.setNum) ∧ (cfg.blockNum = 0 ∨ PowerOfTwo cfg.blockNum) ∧
      PowerOfTwo cfg.byteNum ∧ 4 ≤ cfg.byteNum := by
  simp only [mainArguments] at h
  split at h
  case h_2 => cases h
  rename_i arg1 arg2 arg3 arg4 arg5 arg6
  split at h
  case h_2 => cases h
  rename_i setNum blockNum byteNum hset hblock hbyte
  split at h
  case h_2 => cases h
  rcases hr : sizesRefused setNum blockNum byteNum with _ | _ | _
  · simp [hr] at h
  · simp only [hr, Option.bind_eq_bind, Option.bind_some, Bool.false_eq_true, if_false] at h
    split at h
    case isTrue => cases h
    cases h
    obtain ⟨hs, hb, hn, hfour⟩ := sizesRefused_eq_false hr
    refine ⟨isPowerOfTwo_cases (stoi_range hset) hs, isPowerOfTwo_cases (stoi_range hblock) hb, ?_,
      hfour⟩
    rcases isPowerOfTwo_cases (stoi_range hbyte) hn with hzero | hpow
    · omega
    · exact hpow
  · simp [hr] at h

/-- An accepted command line with positive sizes that fit the address. -/
theorem sized_of_mainArguments {argv : List String} {cfg : Config}
    (h : mainArguments argv = some (.ok cfg)) (hset : 0 < cfg.setNum) (hblock : 0 < cfg.blockNum)
    (haddr : cfg.setNum * cfg.byteNum < 2 ^ 32) : cfg.Sized := by
  obtain ⟨hset', hblock', hbyte, hfour⟩ := mainArguments_ok h
  exact ⟨hset'.resolve_left hset.ne', hblock'.resolve_left hblock.ne', hbyte, hfour, haddr⟩

section Usability

variable {cfg : Config}

/-- Sizes within the address make every access defined and keep every set bounded. -/
private theorem Config.Sized.usable (hv : cfg.Sized) : Usable cfg where
  shifts := by
    obtain ⟨i, o, -, -, hindex, hoffset, hi, ho, hio⟩ := hv.lengths
    simp only [Config.tagLen, hindex, hoffset, List.forall_mem_cons]
    refine ⟨by omega, by omega, by omega, by omega, by simp⟩
  index_lt address := by
    refine ⟨_, _, hv.slice_eq address, ?_⟩
    rw [Config.Sized.index_toNat, cache, List.length_replicate]
    exact hv.index_lt address
  bounded h c run a := by
    obtain ⟨c', -, step, hsim, -⟩ := (run.simulates hv).step hv a
    refine ⟨c', step, fun s hs => ?_⟩
    obtain ⟨i, hi, rfl⟩ := List.mem_iff_getElem.mp hs
    exact ((hsim.stores i _ (List.getElem?_eq_getElem hi)).setInvariant hv).bounded

/-- A cache of sets without blocks has no victim for its first miss. -/
private theorem perform_eq_none_of_zero (hb : cfg.blockNum = 0) {address : BitVec 32}
    {index : BitVec 32} {tag : Tag} (hslice : slice cfg address = some (index, tag))
    (hi : index.toNat < (cache cfg).data.length) :
    perform cfg (cache cfg) (.load address) = none := by
  have hget : (cache cfg).data[index.toNat]? = some [] := by
    rw [List.getElem?_eq_getElem hi]
    simp [cache]
  have hmiss : hits cfg (cache cfg) address = some false := by
    simp [hits, hslice, hget, isHit]
  have hevict : evict cfg [] (cache cfg).cycles = none := by
    simp [evict, isSetFull, hb, CIntegers.toUInt64, victimLoop]
  simp [perform, load, hslice, hmiss, countLoadMiss, hget, hevict]

end Usability

/-- A configuration that passes the checks is usable exactly when no size is zero and the
product of the sets and the bytes fits the address: then every shift amount lies in
`0 .. 31`, every set index is one of the sets, every access has a result, and no set ever
holds more than `blockNum` blocks. -/
theorem accepted_usable_iff (argv : List String) (cfg : Config)
    (h : mainArguments argv = some (.ok cfg)) :
    Usable cfg ↔ 0 < cfg.setNum ∧ 0 < cfg.blockNum ∧ cfg.setNum * cfg.byteNum < 2 ^ 32 := by
  obtain ⟨hset, hblock, hbyte, -⟩ := mainArguments_ok h
  constructor
  · intro hu
    obtain ⟨index, tag, hslice, hi⟩ := hu.index_lt 0
    have hset' : PowerOfTwo cfg.setNum := by
      rcases hset with hzero | hpow
      · simp [cache, hzero] at hi
      · exact hpow
    have hblock' : PowerOfTwo cfg.blockNum := by
      rcases hblock with hzero | hpow
      · obtain ⟨c', step, -⟩ := hu.bounded [] _ .start (.load 0)
        rw [perform_eq_none_of_zero hzero hslice hi] at step
        cases step
      · exact hpow
    obtain ⟨i, hi31, hsets⟩ := hset'
    obtain ⟨k, -, hways⟩ := hblock'
    obtain ⟨o, ho31, hbytes⟩ := hbyte
    refine ⟨by rw [hsets]; positivity, by rw [hways]; positivity, ?_⟩
    have hsum := (hu.shifts (cfg.indexLen + cfg.offsetLen) (by simp)).2
    rw [Config.indexLen, Config.offsetLen, hsets, hbytes, highestBitSet_two_pow i hi31,
      highestBitSet_two_pow o ho31] at hsum
    rw [hsets, hbytes, ← pow_add]
    exact pow_lt_pow_right₀ (by norm_num) (by omega)
  · rintro ⟨hs, hb, haddr⟩
    exact (sized_of_mainArguments h hs hb haddr).usable

theorem accepted_usable_iff_small :
    Usable ⟨256, 4, 16, true, false, true⟩ ↔
      (0 : ℤ) < 256 ∧ (0 : ℤ) < 4 ∧ (256 : ℤ) * 16 < 2 ^ 32 :=
  accepted_usable_iff ["csim", "256", "4", "16", "write-allocate", "write-back", "lru"] _
    (by decide +kernel)

/-- Zero sets pass the checks, and the first access selects a set that is not there. -/
theorem accepted_zero_sets :
    mainArguments ["csim", "0", "1", "4", "write-allocate", "write-through", "lru"] =
        some (.ok ⟨0, 1, 4, true, true, true⟩) ∧
      ¬Usable ⟨0, 1, 4, true, true, true⟩ := by
  refine ⟨by decide +kernel, fun hu => ?_⟩
  obtain ⟨index, tag, -, hi⟩ := hu.index_lt 0
  exact Nat.not_lt_zero _ hi

end CsfAssignments.Csim
