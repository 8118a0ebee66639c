import CsfAssignments.HexdumpModel
import Mathlib.Tactic.IntervalCases

/-!
# The rows of a hexdump

The two programs compute the same digits and the same printable characters, and each writes
one row for a block: the offset, the digits, the padding, and the characters. The rows differ
in the padding alone.
-/

namespace CsfAssignments.Hexdump
open CIntegers ByteMemory

def hexDigit (n : ℕ) : Byte :=
  if n < 10 then BitVec.ofNat 8 (n + 48) else BitVec.ofNat 8 (n + 87)

def hexByte (b : Byte) : List Byte := [hexDigit (b.toNat / 16), hexDigit (b.toNat % 16)]

/-- The low 32 bits of a number in eight digits. -/
def hexOffset (n : ℕ) : List Byte := (List.range 8).map (fun i => hexDigit (n / 16 ^ (7 - i) % 16))

def printableByte (b : Byte) : Byte :=
  if 32 ≤ b.toNat ∧ b.toNat ≤ 126 then b else charByte '.'

/-- The row of a block behind `total` bytes, with `pad` columns of padding. -/
def row (total pad : ℕ) (block : List Byte) : List Byte :=
  hexOffset total ++ text ": " ++ block.flatMap (fun b => hexByte b ++ text " ") ++
    (List.replicate pad (text "   ")).flatten ++ text " " ++ block.map printableByte ++ text "\n"

section Strings

/-- The string from a position on is the given bytes and a terminator. -/
def StringAt (p : ℕ → Byte) : ℕ → List Byte → Prop
  | i, [] => p i = 0
  | i, b :: bytes => p i = b ∧ b ≠ 0 ∧ StringAt p (i + 1) bytes

theorem stringAt_iff {p : ℕ → Byte} {i : ℕ} {bytes : List Byte} :
    StringAt p i bytes ↔ (∀ j (hj : j < bytes.length), p (i + j) = bytes[j]) ∧
      (∀ b ∈ bytes, b ≠ 0) ∧ p (i + bytes.length) = 0 := by
  induction bytes generalizing i with
  | nil => simp [StringAt]
  | cons b bytes ih =>
    rw [StringAt, ih]
    constructor
    · rintro ⟨hb, hne, hbytes, hnonzero, hend⟩
      refine ⟨fun j hj => ?_, ?_, ?_⟩
      · cases j with
        | zero => exact hb
        | succ j =>
          rw [List.getElem_cons_succ, ← hbytes j (by simpa using hj)]
          congr 1
          omega
      · rw [List.forall_mem_cons]
        exact ⟨hne, hnonzero⟩
      · rw [← hend, List.length_cons]
        congr 1
        omega
    · rintro ⟨hbytes, hnonzero, hend⟩
      rw [List.forall_mem_cons] at hnonzero
      refine ⟨hbytes 0 (by simp), hnonzero.1, fun j hj => ?_, hnonzero.2, ?_⟩
      · have h := hbytes (j + 1) (by simpa using hj)
        rw [List.getElem_cons_succ] at h
        rw [← h]
        congr 1
        omega
      · rw [← hend, List.length_cons]
        congr 1
        omega

theorem C.writeLoop_eq {p : ℕ → Byte} {bytes : List Byte} {i rounds : ℕ} (h : StringAt p i bytes)
    (hrounds : bytes.length < rounds) (output : List Byte) :
    C.writeLoop rounds p i output = output ++ bytes := by
  induction bytes generalizing i rounds output with
  | nil =>
    obtain ⟨rounds, rfl⟩ := Nat.exists_eq_succ_of_ne_zero (Nat.ne_of_gt (Nat.zero_lt_of_lt hrounds))
    simp [C.writeLoop, show p i = 0 from h]
  | cons b bytes ih =>
    obtain ⟨rounds, rfl⟩ := Nat.exists_eq_succ_of_ne_zero (Nat.ne_of_gt (Nat.zero_lt_of_lt hrounds))
    obtain ⟨rfl, hne, htail⟩ := h
    rw [C.writeLoop, if_pos hne, ih htail (by simpa using hrounds), List.append_assoc,
      List.singleton_append]

theorem Asm.lengthLoop_eq {p : ℕ → Byte} {bytes : List Byte} {i rounds : ℕ}
    (h : StringAt p i bytes) (hrounds : bytes.length < rounds) :
    Asm.lengthLoop rounds p i = i + bytes.length := by
  induction bytes generalizing i rounds with
  | nil =>
    obtain ⟨rounds, rfl⟩ := Nat.exists_eq_succ_of_ne_zero (Nat.ne_of_gt (Nat.zero_lt_of_lt hrounds))
    simp [Asm.lengthLoop, show p i = 0 from h]
  | cons b bytes ih =>
    obtain ⟨rounds, rfl⟩ := Nat.exists_eq_succ_of_ne_zero (Nat.ne_of_gt (Nat.zero_lt_of_lt hrounds))
    obtain ⟨rfl, hne, htail⟩ := h
    rw [Asm.lengthLoop, if_neg hne, ih htail (by simpa using hrounds), List.length_cons]
    omega

variable {p : ℕ → Byte} {bytes : List Byte}

theorem C.hexWriteString_eq (h : StringAt p 0 bytes) (hlen : bytes.length < 2 ^ 64) (s : Process) :
    C.hexWriteString p s = ⟨s.memory, s.output ++ bytes⟩ := by
  rw [C.hexWriteString, C.writeLoop_eq h hlen]

/-- Finding the length first writes the same bytes. -/
theorem Asm.hexWriteString_eq (h : StringAt p 0 bytes) (hlen : bytes.length < 2 ^ 64)
    (s : Process) : Asm.hexWriteString p s = ⟨s.memory, s.output ++ bytes⟩ := by
  have hmap : (List.range bytes.length).map p = bytes := by
    refine List.ext_getElem (by simp) fun i _ hi => ?_
    have hbyte := (stringAt_iff.mp h).1 i hi
    rw [Nat.zero_add] at hbyte
    simpa using hbyte
  simp only [Asm.hexWriteString, Asm.lengthLoop_eq h hlen, Nat.zero_add, hmap]

theorem stringAt_literal {s : String} (hs : ∀ b ∈ text s, b ≠ 0) :
    StringAt (literal s) 0 (text s) := by
  refine stringAt_iff.mpr ⟨fun j hj => ?_, hs, ?_⟩
  · simp [literal, List.getD_eq_getElem?_getD, hj]
  · simp [literal]

theorem stringAt_view {m : Memory} {a : ℕ} {bytes : List Byte}
    (hread : m.read a (bytes.length + 1) = bytes ++ [0]) (hbytes : ∀ b ∈ bytes, b ≠ 0) :
    StringAt (m.view a) 0 bytes := by
  rw [Memory.read_succ] at hread
  obtain ⟨hinit, hlast⟩ := List.append_inj hread (by simp)
  refine stringAt_iff.mpr ⟨fun j hj => ?_, hbytes, ?_⟩
  · have hget := congrArg (fun l => l[j]?) hinit
    simpa [Memory.read, hj] using hget
  · simpa [Memory.view] using hlast

/-- A buffer that was filled with a string and its terminator. -/
theorem stringAt_view_write (m : Memory) (a : ℕ) {bytes : List Byte} (hbytes : ∀ b ∈ bytes, b ≠ 0)
    (rest : List Byte) : StringAt ((m.write a (bytes ++ 0 :: rest)).view a) 0 bytes := by
  refine stringAt_view ?_ hbytes
  have h := m.read_write a (bytes ++ [0]) rest
  rwa [List.length_append, List.append_assoc] at h

end Strings

section Digits

theorem hexDigit_ne_zero : ∀ n < 16, hexDigit n ≠ 0 := by decide

theorem hexByte_ne_zero (b : Byte) : ∀ c ∈ hexByte b, c ≠ 0 := by
  have hb := b.isLt
  simp only [hexByte, List.forall_mem_cons, List.not_mem_nil, false_imp_iff, implies_true, and_true]
  exact ⟨hexDigit_ne_zero _ (by omega), hexDigit_ne_zero _ (by omega)⟩

theorem hexOffset_ne_zero (n : ℕ) : ∀ c ∈ hexOffset n, c ≠ 0 := by
  simp only [hexOffset, List.forall_mem_map]
  exact fun i _ => hexDigit_ne_zero _ (Nat.mod_lt _ (by norm_num))

private theorem nibble_digit : ∀ v : BitVec 4,
    (if (v.setWidth 32).slt 10 then (v.setWidth 32 + 48).setWidth 8
      else (v.setWidth 32 + 87).setWidth 8) = hexDigit v.toNat := by decide

theorem C.digitChar_eq (value : BitVec 32) (i : ℕ) :
    C.digitChar value i = hexDigit (value.toNat / 16 ^ i % 16) := by
  have hmask : (value >>> (4 * i)) &&& ~~~(~~~0#32 <<< 4) =
      (BitVec.ofNat 4 (value.toNat / 16 ^ i)).setWidth 32 := by
    have hpow : 2 ^ (4 * i) = 16 ^ i := by rw [pow_mul]; norm_num
    have hconst : ~~~(~~~0#32 <<< 4) = BitVec.ofNat 32 (2 ^ 4 - 1) := by decide
    apply BitVec.eq_of_toNat_eq
    rw [hconst, BitVec.toNat_and, BitVec.toNat_ushiftRight, Nat.shiftRight_eq_div_pow, hpow,
      BitVec.toNat_ofNat, Nat.mod_eq_of_lt (by decide), Nat.and_two_pow_sub_one_eq_mod,
      BitVec.toNat_setWidth, BitVec.toNat_ofNat]
    omega
  have h := nibble_digit (BitVec.ofNat 4 (value.toNat / 16 ^ i))
  rw [BitVec.toNat_ofNat] at h
  simp only [C.digitChar, hmask]
  exact h

theorem C.hexFormatOffset_eq (v : BitVec 32) (sbuf : ℕ) (m : Memory) :
    C.hexFormatOffset v sbuf m = m.write sbuf (hexOffset v.toNat ++ [0]) := by
  have hloop := Memory.forLoop_write_down m sbuf 8 (C.digitChar v) (le_refl 8)
  have hdigits : (List.range 8).map (fun j => C.digitChar v (8 - 1 - j)) = hexOffset v.toNat :=
    List.map_congr_left fun i _ => C.digitChar_eq v _
  rw [hdigits] at hloop
  rw [C.hexFormatOffset, hloop]
  exact Memory.write_append m sbuf _ _

theorem C.hexFormatByteAsHex_eq (b : Byte) (sbuf : ℕ) (m : Memory) :
    C.hexFormatByteAsHex b sbuf m = m.write sbuf (hexByte b ++ [0]) := by
  have hloop := Memory.forLoop_write_down m sbuf 2 (C.digitChar (b.setWidth 32)) (le_refl 2)
  have hb := b.isLt
  have hvalue : (b.setWidth 32).toNat = b.toNat := by
    rw [BitVec.toNat_setWidth, Nat.mod_eq_of_lt (by omega)]
  have hdigits : (List.range 2).map (fun j => C.digitChar (b.setWidth 32) (2 - 1 - j)) =
      hexByte b := by
    simp only [List.range_succ_eq_map, List.range_zero, List.map_nil, List.map_cons,
      C.digitChar_eq, hvalue, hexByte, List.cons.injEq, and_true]
    norm_num
    congr 1
    omega
  rw [hdigits] at hloop
  rw [C.hexFormatByteAsHex, hloop]
  exact Memory.write_append m sbuf _ _

theorem C.hexToPrintable_eq (b : Byte) : C.hexToPrintable b = printableByte b := by
  simp only [C.hexToPrintable, printableByte, BitVec.lt_def, gt_iff_lt]
  split_ifs with h1 h2 h2
  · simp at h1
    omega
  · rfl
  · rfl
  · simp at h1
    omega

theorem hexOffset_congr {n n' : ℕ} (h : n % 2 ^ 32 = n' % 2 ^ 32) : hexOffset n = hexOffset n' := by
  refine List.map_congr_left fun i hi => ?_
  rw [List.mem_range] at hi
  congr 1
  interval_cases i <;> norm_num <;> omega

private theorem conbyteToHex_eq : ∀ v : BitVec 4,
    Asm.conbyteToHex (v.setWidth 64) = (hexDigit v.toNat).setWidth 64 := by decide

private theorem high_half : ∀ b : Byte,
    Asm.withLow (b.setWidth 64) ((b.setWidth 64).setWidth 32 >>> 4) =
      (b.extractLsb' 4 4).setWidth 64 := by decide +kernel

private theorem low_half : ∀ b : Byte,
    b.setWidth 64 - Asm.withLow ((b.extractLsb' 4 4).setWidth 64)
      (((b.extractLsb' 4 4).setWidth 64).setWidth 32 <<< 4) = (b.setWidth 4).setWidth 64 := by
  decide +kernel

/-- The quad stores leave the two digits and eight zeros. -/
theorem Asm.hexFormatByteAsHex_eq (b : Byte) (rsi : ℕ) (m : Memory) :
    Asm.hexFormatByteAsHex (b.setWidth 64) rsi m =
      m.write rsi (hexByte b ++ List.replicate 8 0) := by
  have hb := b.isLt
  have hhigh : (b.extractLsb' 4 4).toNat = b.toNat / 16 := by
    rw [BitVec.extractLsb'_toNat, Nat.shiftRight_eq_div_pow]
    omega
  have hlow : (b.setWidth 4).toNat = b.toNat % 16 := BitVec.toNat_setWidth ..
  simp only [Asm.hexFormatByteAsHex, high_half, low_half, conbyteToHex_eq, hhigh, hlow,
    Memory.store64_setWidth, Memory.store64_zero]
  have hsecond := m.write_overlap rsi [hexDigit (b.toNat / 16)] (u := List.replicate 7 0)
    (t := hexDigit (b.toNat % 16) :: List.replicate 7 0) (by simp)
  have hthird := m.write_overlap rsi (hexByte b) (u := List.replicate 7 0)
    (t := List.replicate 8 0) (by simp)
  rw [← hthird]
  exact congrArg (fun m => Memory.write m (rsi + 2) (List.replicate 8 0)) hsecond

private theorem conbyteToHex_and (v : BitVec 64) :
    (Asm.conbyteToHex (v &&& 15)).setWidth 8 = hexDigit (v.toNat % 16) := by
  have hmask : v &&& 15 = (v.setWidth 4).setWidth 64 := by
    apply BitVec.eq_of_toNat_eq
    have hconst : (15 : BitVec 64) = BitVec.ofNat 64 (2 ^ 4 - 1) := by decide
    rw [hconst, BitVec.toNat_and, BitVec.toNat_ofNat, Nat.mod_eq_of_lt (by decide),
      Nat.and_two_pow_sub_one_eq_mod, BitVec.toNat_setWidth, BitVec.toNat_setWidth]
    omega
  have hlow : (v.setWidth 4).toNat = v.toNat % 16 := BitVec.toNat_setWidth ..
  rw [hmask, conbyteToHex_eq, hlow, BitVec.setWidth_setWidth_of_le _ (by decide),
    BitVec.setWidth_eq]

theorem Asm.hexFormatOffset_eq (rdi : BitVec 64) (rsi : ℕ) (m : Memory) :
    Asm.hexFormatOffset rdi rsi m = m.write rsi (hexOffset rdi.toNat ++ [0]) := by
  have hloop := m.forLoop_write_down rsi 8 (fun i => hexDigit (rdi.toNat / 16 ^ i % 16)) (le_refl 8)
  have hrounds : ∀ k, forLoop k (Asm.offsetRound rsi) (rdi, rdi, m) =
      (rdi >>> (4 * k), rdi >>> (4 * k), forLoop k
        (fun i m => m.write (rsi + (7 - i)) [hexDigit (rdi.toNat / 16 ^ i % 16)]) m) := by
    intro k
    induction k with
    | zero => simp
    | succ k ih =>
      have hpow : 2 ^ (4 * k) = 16 ^ k := by rw [pow_mul]; norm_num
      have hshift : rdi >>> (4 * k) >>> 4 = rdi >>> (4 * (k + 1)) := by
        rw [← BitVec.shiftRight_add]
        rfl
      rw [forLoop_succ, ih, forLoop_succ]
      simp only [Asm.offsetRound, hshift, conbyteToHex_and, BitVec.toNat_ushiftRight,
        Nat.shiftRight_eq_div_pow, hpow]
  simp only [Asm.hexFormatOffset, hrounds, hloop]
  exact m.write_append rsi _ _

theorem Asm.hexToPrintable_eq : ∀ b : Byte,
    (Asm.hexToPrintable (b.setWidth 64)).setWidth 8 = printableByte b := by decide +kernel

theorem printableByte_ne_zero : ∀ b : Byte, printableByte b ≠ 0 := by decide +kernel

end Digits
end CsfAssignments.Hexdump
