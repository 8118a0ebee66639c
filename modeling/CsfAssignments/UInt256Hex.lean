import CsfAssignments.UInt256Model
import Mathlib.Data.List.TakeWhile

/-!
# The hexadecimal parser and printer

The parser returns the value of its digits modulo 2 ^ 256 and the printer prints the
value in canonical form, so each undoes the other.
-/

namespace CsfAssignments.Limbs
open CIntegers HexNumerals

section Strtoul

theorem not_isSpace_of_mem : ∀ c ∈ hexDigits, isSpace c = false :=
  List.all_iff_forall_prop.mp (by decide)

private theorem ne_sign_of_mem : ∀ c ∈ hexDigits, c ≠ '-' ∧ c ≠ '+' :=
  List.all_iff_forall_prop.mp (by decide)

private theorem ne_radix_of_mem : ∀ c ∈ hexDigits, ¬(c = 'x' ∨ c = 'X') :=
  List.all_iff_forall_prop.mp (by decide)

private theorem skipSign_eq {s : List Char} (hs : AllHex s) : skipSign s = (false, s) := by
  unfold skipSign
  split
  · exact absurd rfl (ne_sign_of_mem _ (hs '-' List.mem_cons_self)).1
  · exact absurd rfl (ne_sign_of_mem _ (hs '+' List.mem_cons_self)).2
  · rfl

/-- Nothing is skipped in front of a digit. -/
theorem skipSign_of_mem {c : Char} (hc : c ∈ hexDigits) (s : List Char) :
    skipSign ((c :: s).dropWhile isSpace) = (false, c :: s) := by
  obtain ⟨hminus, hplus⟩ := ne_sign_of_mem c hc
  rw [List.dropWhile_cons_of_neg (by simp [not_isSpace_of_mem c hc])]
  unfold skipSign
  split
  · exact absurd (List.cons.inj ‹_›).1 hminus
  · exact absurd (List.cons.inj ‹_›).1 hplus
  · rfl

private theorem skipRadix_eq {s : List Char} (hs : AllHex s) : skipRadix s = s := by
  unfold skipRadix
  split
  · rename_i x d s
    rw [if_neg fun h => ne_radix_of_mem x (hs x (by simp)) h.1]
  · rfl

/-- On at most 16 digits `strtoul` returns their value. -/
theorem strtoul_eq {s : List Char} (hs : AllHex s) (hlen : s.length ≤ 16) :
    strtoul s = BitVec.ofNat 64 (value s) := by
  have hdrop : s.dropWhile isSpace = s := by
    cases s with
    | nil => rfl
    | cons c s => simp [not_isSpace_of_mem c (hs c List.mem_cons_self)]
  have htake : s.takeWhile (fun c => c ∈ hexDigits) = s :=
    List.takeWhile_eq_self_iff.mpr fun c hc => by simpa using hs c hc
  have hlt : value s < 2 ^ 64 :=
    (value_lt hs).trans_le ((Nat.pow_le_pow_right (by norm_num) hlen).trans (by norm_num))
  simp only [strtoul, hdrop, skipSign_eq hs, skipRadix_eq hs, htake, if_pos hlt,
    Bool.false_eq_true, if_false]

end Strtoul

section Parser

theorem AllHex.copyChars {s : List Char} (hs : AllHex s) (offset n : ℕ) :
    AllHex (copyChars s offset n) := (hs.drop offset).take n

private theorem strtoul_copyChars {s : List Char} (hs : AllHex s) (offset : ℕ) :
    strtoul (copyChars s offset 16) = BitVec.ofNat 64 (value (copyChars s offset 16)) :=
  strtoul_eq (AllHex.copyChars hs offset 16) (List.length_take_le _ _)

/-- A group of digits in front of `n` other ones. -/
private theorem value_drop_group {s : List Char} {offset n : ℕ}
    (hlen : s.length = offset + 16 + n) :
    value (s.drop offset) =
      value (copyChars s offset 16) * 16 ^ n + value (s.drop (offset + 16)) := by
  have hsplit : s.drop offset = copyChars s offset 16 ++ s.drop (offset + 16) := by
    rw [copyChars, ← List.drop_drop, List.take_append_drop]
  rw [hsplit, value_append, List.length_drop, hlen, Nat.add_sub_cancel_left]

private theorem value_drop_one {s : List Char} {offset : ℕ} (hlen : s.length = offset + 16) :
    value (s.drop offset) = value (copyChars s offset 16) := by
  rw [copyChars, List.take_of_length_le (by rw [List.length_drop]; omega)]

private theorem value_drop_two {s : List Char} {offset : ℕ} (hlen : s.length = offset + 32) :
    value (s.drop offset) =
      value (copyChars s (offset + 16) 16) + value (copyChars s offset 16) * 2 ^ 64 := by
  rw [value_drop_group (n := 16) hlen, value_drop_one hlen, Nat.add_comm]
  norm_num

private theorem value_drop_three {s : List Char} {offset : ℕ} (hlen : s.length = offset + 48) :
    value (s.drop offset) =
      value (copyChars s (offset + 32) 16) + value (copyChars s (offset + 16) 16) * 2 ^ 64 +
        value (copyChars s offset 16) * 2 ^ 128 := by
  rw [value_drop_group (n := 32) hlen, value_drop_two hlen, Nat.add_comm]
  norm_num

/-- The limbs of a value given by its base 2 ^ 64 digits. -/
private theorem ofNat_limbs {n n0 n1 n2 n3 : ℕ} (h0 : n0 < 2 ^ 64) (h1 : n1 < 2 ^ 64)
    (h2 : n2 < 2 ^ 64) (hn : n = n0 + n1 * 2 ^ 64 + n2 * 2 ^ 128 + n3 * 2 ^ 192) :
    UInt256.ofNat n =
      ⟨#v[BitVec.ofNat 64 n0, BitVec.ofNat 64 n1, BitVec.ofNat 64 n2, BitVec.ofNat 64 n3]⟩ := by
  subst hn
  apply UInt256.ext <;> apply BitVec.eq_of_toNat_eq <;>
    simp only [UInt256.ofNat, BitVec.toNat_ofNat, Vector.getElem_mk, List.getElem_toArray,
      List.getElem_cons_zero, List.getElem_cons_succ] <;> omega

private theorem value_copyChars_lt {s : List Char} (hs : AllHex s) (offset : ℕ) :
    value (copyChars s offset 16) < 2 ^ 64 := by
  have hlt := value_lt (AllHex.copyChars hs offset 16)
  have hle : (copyChars s offset 16).length ≤ 16 := List.length_take_le _ _
  exact hlt.trans_le ((Nat.pow_le_pow_right (by norm_num) hle).trans (by norm_num))

/-- The four limbs of a 64 digit string. -/
private theorem ofNat_value_of_length {s : List Char} (hs : AllHex s) (hlen : s.length = 64) :
    ⟨#v[strtoul (copyChars s 48 16), strtoul (copyChars s 32 16), strtoul (copyChars s 16 16),
      strtoul (copyChars s 0 16)]⟩ = UInt256.ofNat (value s) := by
  have hfirst : value (s.drop 0) = value (copyChars s 0 16) * 16 ^ 48 + value (s.drop 16) :=
    value_drop_group hlen
  rw [List.drop_zero] at hfirst
  have hvalue : value s = value (copyChars s 48 16) + value (copyChars s 32 16) * 2 ^ 64 +
      value (copyChars s 16 16) * 2 ^ 128 + value (copyChars s 0 16) * 2 ^ 192 := by
    rw [hfirst, value_drop_three hlen, Nat.add_comm]
    norm_num
  rw [ofNat_limbs (value_copyChars_lt hs _) (value_copyChars_lt hs _)
    (value_copyChars_lt hs _) hvalue,
    strtoul_copyChars hs, strtoul_copyChars hs, strtoul_copyChars hs, strtoul_copyChars hs]

private theorem copyChars_rest (s : List Char) (rem i : ℕ) :
    copyChars (copyChars s rem (s.length - rem)) i 16 = copyChars s (rem + i) 16 := by
  have hrest : copyChars s rem (s.length - rem) = s.drop rem := by
    rw [copyChars, List.take_of_length_le (by rw [List.length_drop])]
  rw [hrest, copyChars, copyChars, List.drop_drop]

/-- In a shorter string the first group may be incomplete. -/
private theorem createFromShort_eq {s : List Char} (hs : AllHex s) (hlen : s.length < 64) :
    createFromShort s s.length = UInt256.ofNat (value s) := by
  have hrem : (copyChars s 0 (s.length % 16)).length ≤ 16 := by
    have := List.length_take_le (s.length % 16) (s.drop 0)
    rw [copyChars]
    omega
  have hlt : value (copyChars s 0 (s.length % 16)) < 2 ^ 64 :=
    (value_lt (AllHex.copyChars hs 0 _)).trans_le
      ((Nat.pow_le_pow_right (by norm_num) hrem).trans (by norm_num))
  have hfirst : value s = value (copyChars s 0 (s.length % 16)) * 16 ^ (s.length - s.length % 16) +
      value (s.drop (s.length % 16)) := by
    have hsplit : s = copyChars s 0 (s.length % 16) ++ s.drop (s.length % 16) := by
      rw [copyChars, List.drop_zero, List.take_append_drop]
    rw [← List.length_drop, ← value_append, ← hsplit]
  simp only [createFromShort, copyChars_rest, strtoul_copyChars hs,
    strtoul_eq (AllHex.copyChars hs 0 _) hrem]
  have hq : s.length / 16 = 0 ∨ s.length / 16 = 1 ∨ s.length / 16 = 2 ∨ s.length / 16 = 3 := by
    omega
  generalize hr : s.length % 16 = rem at *
  have hg := fun i => value_copyChars_lt hs (rem + i)
  have hzero : (0 : ℕ) < 2 ^ 64 := by norm_num
  rcases hq with hq | hq | hq | hq <;> rw [hq]
  · have hl : s.length = rem := by omega
    rw [hl, Nat.sub_self, ← hl, List.drop_length, hl] at hfirst
    exact (ofNat_limbs hlt hzero hzero (by rw [hfirst]; simp [value])).symm
  · have hl : s.length = rem + 16 := by omega
    rw [value_drop_one hl, hl, Nat.add_sub_cancel_left, Nat.add_comm] at hfirst
    exact (ofNat_limbs (hg 0) hlt hzero (by rw [hfirst]; norm_num)).symm
  · have hl : s.length = rem + 32 := by omega
    rw [value_drop_two hl, hl, Nat.add_sub_cancel_left, Nat.add_comm] at hfirst
    exact (ofNat_limbs (hg 16) (hg 0) hlt (by rw [hfirst]; norm_num)).symm
  · have hl : s.length = rem + 48 := by omega
    rw [value_drop_three hl, hl, Nat.add_sub_cancel_left, Nat.add_comm] at hfirst
    exact (ofNat_limbs (hg 32) (hg 16) (hg 0) (by rw [hfirst]; norm_num)).symm

private theorem ofNat_mod (n : ℕ) : UInt256.ofNat (n % 2 ^ 256) = UInt256.ofNat n := by
  rw [← UInt256.toNat_ofNat, UInt256.ofNat_toNat]

/-- The last 64 digits are a number modulo 2 ^ 256. -/
private theorem value_eq_last {s : List Char} (h64 : 64 ≤ s.length) :
    value s = value (s.take (s.length - 64)) * 2 ^ 256 + value (s.drop (s.length - 64)) := by
  have hpow : (16 : ℕ) ^ 64 = 2 ^ 256 := by norm_num
  have hlen : (s.drop (s.length - 64)).length = 64 := by
    rw [List.length_drop]
    omega
  have h := value_append (s.take (s.length - 64)) (s.drop (s.length - 64))
  rwa [List.take_append_drop, hlen, hpow] at h

private theorem copyChars_last {s : List Char} (h64 : 64 ≤ s.length) :
    copyChars s (s.length - 64) 64 = s.drop (s.length - 64) := by
  rw [copyChars, List.take_of_length_le (by rw [List.length_drop]; omega)]

private theorem createFromLong_eq {s : List Char} (hs : AllHex s) (h64 : 64 ≤ s.length) :
    createFromLong s s.length = UInt256.ofNat (value s) := by
  have hlast : (copyChars s (s.length - 64) 64).length = 64 := by
    rw [copyChars_last h64, List.length_drop]
    omega
  rw [createFromLong, ofNat_value_of_length (AllHex.copyChars hs _ _) hlast, copyChars_last h64,
    ← ofNat_mod (value s), value_eq_last h64, Nat.mul_comm, Nat.mul_add_mod, ofNat_mod]

/-- The parser returns the value of the digits modulo 2 ^ 256. -/
theorem uint256CreateFromHex_eq {s : List Char} (hs : AllHex s) (hlen : s.length < 2 ^ 31) :
    uint256CreateFromHex s = some (UInt256.ofNat (value s)) := by
  have hnonneg : ¬((s.length : ℤ) < 0) := by omega
  rw [uint256CreateFromHex, toInt_natCast hlen, if_neg hnonneg, Int.toNat_natCast]
  split_ifs with h64
  · rw [createFromLong_eq hs (by omega)]
  · rw [createFromShort_eq hs (by omega)]

end Parser

section Printer

private theorem limb_lt (n : BitVec 64) : n.toNat < 16 ^ 16 := by
  have h := n.isLt
  omega

private theorem limb_pos {n : BitVec 64} (hn : n ≠ 0) : 0 < n.toNat :=
  Nat.pos_of_ne_zero fun h => hn (BitVec.eq_of_toNat_eq h)

/-- One more limb behind a printed positive number. -/
private theorem toDigits_append_formatLx016 {m : ℕ} (hm : 0 < m) (n : BitVec 64) :
    Nat.toDigits 16 m ++ formatLx016 n = Nat.toDigits 16 (m * 2 ^ 64 + n.toNat) := by
  rw [formatLx016, toDigits_append_leftpad hm (by norm_num) (limb_lt n)]
  norm_num

/-- The printer writes the value in canonical form. -/
theorem uint256FormatAsHex_eq (v : UInt256) :
    uint256FormatAsHex v = Nat.toDigits 16 v.toNat := by
  simp only [uint256FormatAsHex]
  split_ifs with h3 h2 h1
  · have hpos := limb_pos h3
    rw [formatLx, toDigits_append_formatLx016 hpos, toDigits_append_formatLx016 (by omega),
      toDigits_append_formatLx016 (by omega), UInt256.toNat]
    congr 1
    omega
  · have hpos := limb_pos h2
    rw [formatLx, toDigits_append_formatLx016 hpos, toDigits_append_formatLx016 (by omega),
      UInt256.toNat, not_ne_iff.mp h3]
    congr 1
    simp only [BitVec.ofNat_eq_ofNat, BitVec.toNat_ofNat]
    omega
  · rw [formatLx, toDigits_append_formatLx016 (limb_pos h1), UInt256.toNat, not_ne_iff.mp h3,
      not_ne_iff.mp h2]
    congr 1
    simp only [BitVec.ofNat_eq_ofNat, BitVec.toNat_ofNat]
    omega
  · rw [formatLx, UInt256.toNat, not_ne_iff.mp h3, not_ne_iff.mp h2, not_ne_iff.mp h1]
    congr 1

end Printer

private theorem length_toDigits_le (v : UInt256) : (Nat.toDigits 16 v.toNat).length ≤ 64 := by
  have h := v.toNat_lt
  exact Nat.toDigits_length 16 v.toNat 64 (by norm_num) (by omega)

/-- Dropping all but the last 64 digits is reduction modulo 2 ^ 256. -/
private theorem value_drop_length_sub {s : List Char} (hs : AllHex s) :
    value (s.drop (s.length - min 64 s.length)) = value s % 2 ^ 256 := by
  have hpow : (16 : ℕ) ^ 64 = 2 ^ 256 := by norm_num
  have hlt := value_lt (hs.drop (s.length - min 64 s.length))
  have hle : (s.drop (s.length - min 64 s.length)).length ≤ 64 := by
    rw [List.length_drop]
    omega
  have hbound := hlt.trans_le (Nat.pow_le_pow_right (by norm_num) hle)
  rw [hpow] at hbound
  rcases Nat.le_total 64 s.length with h64 | h64
  · rw [min_eq_left h64] at hbound ⊢
    rw [value_eq_last h64, Nat.mul_comm, Nat.mul_add_mod, Nat.mod_eq_of_lt hbound]
  · rw [min_eq_right h64, Nat.sub_self, List.drop_zero] at hbound ⊢
    rw [Nat.mod_eq_of_lt hbound]

/-- Parsing what was printed gives the value back, and printing what was parsed gives the
last 64 digits in canonical form. -/
theorem hex_round_trip :
    (∀ v : UInt256, uint256CreateFromHex (uint256FormatAsHex v) = some v) ∧
      ∀ s : List Char, s ≠ [] → AllHex s → s.length < 2 ^ 31 →
        (uint256CreateFromHex s).map uint256FormatAsHex =
          some (canonical (s.drop (s.length - min 64 s.length))) := by
  refine ⟨fun v => ?_, fun s _ hs hlen => ?_⟩
  · have hlen := length_toDigits_le v
    rw [uint256FormatAsHex_eq, uint256CreateFromHex_eq (allHex_toDigits _) (by omega),
      value_toDigits, UInt256.ofNat_toNat]
  · rw [uint256CreateFromHex_eq hs hlen, Option.map_some, uint256FormatAsHex_eq,
      UInt256.toNat_ofNat, ← value_drop_length_sub hs, toDigits_value (hs.drop _)]

theorem hex_round_trip_mixed_case :
    (uint256CreateFromHex "00Ab".toList).map uint256FormatAsHex = some (canonical "00Ab".toList) :=
  hex_round_trip.2 "00Ab".toList (by decide) (by decide) (by decide)

/-- The parsed number is the value of the digits modulo 2 ^ 256, which is the value of the
last 64 of them. -/
theorem create_from_hex_value {s : List Char} (hs : AllHex s) (hlen : s.length < 2 ^ 31) :
    ∃ v, uint256CreateFromHex s = some v ∧ v.toNat = value s % 2 ^ 256 ∧
      v.toNat = value (s.drop (s.length - 64)) := by
  have hlast : s.length - min 64 s.length = s.length - 64 := by omega
  have hdrop := value_drop_length_sub hs
  rw [hlast] at hdrop
  refine ⟨_, uint256CreateFromHex_eq hs hlen, UInt256.toNat_ofNat _, ?_⟩
  rw [UInt256.toNat_ofNat, hdrop]

theorem create_from_hex_value_long :
    ∃ v, uint256CreateFromHex ('1' :: List.replicate 64 'f') = some v ∧
      v.toNat = value ('1' :: List.replicate 64 'f') % 2 ^ 256 ∧
      v.toNat = value (('1' :: List.replicate 64 'f').drop 1) :=
  create_from_hex_value (s := '1' :: List.replicate 64 'f') (by decide) (by decide)

end CsfAssignments.Limbs
