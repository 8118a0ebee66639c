import CsfAssignments.HexdumpOutput
import CsfAssignments.HexNumerals

/-!
# What the hexdump functions store

The assembly functions store the strings of the C functions, and all but `hex_format_offset`
end them with a quad word of zeros. The two string formats of an offset are the same and
determine it.
-/

namespace CsfAssignments.Hexdump
open CIntegers ByteMemory

section Footprint

/-- A call of a function that stores to a buffer, with its argument in range. -/
inductive Call where
  | hexRead (block : List Byte) (hlen : block.length ≤ 16)
  | hexFormatByteAsHex (byteval : Byte)
  | hexFormatOffset (rdi : BitVec 64)

namespace Call

/-- The memory behind the call of the C function. -/
def c (buf : ℕ) (m : Memory) : Call → Memory
  | hexRead block _ => (C.hexRead buf block ⟨m, []⟩).2.memory
  | hexFormatByteAsHex byteval => C.hexFormatByteAsHex byteval buf m
  | hexFormatOffset rdi => C.hexFormatOffset (rdi.setWidth 32) buf m

/-- The memory behind the call of the assembly function, outside its stack frame. -/
def asm (buf : ℕ) (m : Memory) : Call → Memory
  | hexRead block _ => (Asm.hexRead buf block ⟨m, []⟩).2.memory
  | hexFormatByteAsHex byteval => Asm.hexFormatByteAsHex (byteval.setWidth 64) buf m
  | hexFormatOffset rdi => Asm.hexFormatOffset rdi buf m

/-- The index of the terminator in the buffer. -/
def last : Call → ℕ
  | hexRead block _ => block.length
  | hexFormatByteAsHex _ => 2
  | hexFormatOffset _ => 8

/-- The number of bytes that the last store of the assembly function reaches behind the
terminator. -/
def overrun : Call → ℕ
  | hexRead _ _ => 7
  | hexFormatByteAsHex _ => 7
  | hexFormatOffset _ => 0

theorem stores (call : Call) (buf : ℕ) (m : Memory) : ∃ bytes, bytes.length = call.last ∧
    call.c buf m = m.write buf (bytes ++ [0]) ∧
    call.asm buf m = m.write buf (bytes ++ [0] ++ List.replicate call.overrun 0) := by
  cases call with
  | hexRead block hlen =>
    refine ⟨block, rfl, ?_, ?_⟩
    · rw [c, C.hexRead_eq]
    · rw [asm, Asm.hexRead_eq buf hlen, List.append_assoc]
      rfl
  | hexFormatByteAsHex byteval =>
    refine ⟨hexByte byteval, rfl, C.hexFormatByteAsHex_eq _ _ _, ?_⟩
    rw [asm, Asm.hexFormatByteAsHex_eq, List.append_assoc]
    rfl
  | hexFormatOffset rdi =>
    have hoffset : hexOffset (rdi.setWidth 32).toNat = hexOffset rdi.toNat := by
      apply hexOffset_congr
      rw [BitVec.toNat_setWidth, Nat.mod_mod]
    refine ⟨hexOffset rdi.toNat, by rw [hexOffset, List.length_map, List.length_range, last], ?_, ?_⟩
    · rw [c, C.hexFormatOffset_eq, hoffset]
    · rw [asm, Asm.hexFormatOffset_eq, overrun, List.replicate_zero, List.append_nil]

theorem c_beyond (call : Call) {buf x : ℕ} (m : Memory) (hx : buf + call.last < x) :
    call.c buf m x = m x := by
  obtain ⟨bytes, hlen, hc, -⟩ := call.stores buf m
  rw [hc, Memory.write_apply_of_le _ _ (by rw [List.length_append, hlen]; exact hx)]

end Call

/-- An assembly function stores what the C function stores, and nothing behind the terminator,
exactly when the bytes that its last store reaches are already zero. -/
theorem asm_stores_eq_iff (call : Call) (buf : ℕ) (m : Memory) :
    (call.asm buf m = call.c buf m ∧
        ∀ x, buf + call.last < x → call.asm buf m x = m x) ↔
      m.read (buf + call.last + 1) call.overrun = List.replicate call.overrun 0 := by
  obtain ⟨bytes, hlen, hc, hasm⟩ := call.stores buf m
  have hiff := m.write_append_eq_iff buf (bytes ++ [0]) (List.replicate call.overrun 0)
  rw [← hasm, ← hc, List.length_append, hlen, List.length_replicate, ← Nat.add_assoc] at hiff
  refine Iff.trans (and_iff_left_of_imp fun heq x hx => ?_) hiff
  rw [heq, call.c_beyond m hx]

/-- The digits of a byte clear the seven bytes behind their buffer. -/
theorem asm_stores_past_hex :
    ¬∀ (call : Call) (buf : ℕ) (m : Memory), call.asm buf m = call.c buf m ∧
      ∀ x, buf + call.last < x → call.asm buf m x = m x := by
  intro h
  have hbyte := (h (.hexFormatByteAsHex 97) 0 (fun _ => 1)).2 3 (by decide)
  exact absurd hbyte (by decide)

end Footprint

section Offsets

/-- A byte as a character. -/
def byteChar (b : Byte) : Char := Char.ofNat b.toNat

private theorem byteChar_hexDigit : ∀ n < 16, byteChar (hexDigit n) = Nat.digitChar n := by decide

private theorem hexDigit_mem : ∀ n < 16, hexDigit n ∈ text "0123456789abcdef" := by decide

/-- The digits of a number from the position `k` down. -/
private theorem value_digits (n k : ℕ) :
    HexNumerals.value (((List.range k).map (fun i => hexDigit (n / 16 ^ (k - 1 - i) % 16))).map
      byteChar) = n % 16 ^ k := by
  induction k with
  | zero => simp [HexNumerals.value, Nat.mod_one]
  | succ k ih =>
    have hlt : n / 16 ^ k % 16 < 16 := Nat.mod_lt _ (by decide)
    have htail : (List.range k).map ((fun i => hexDigit (n / 16 ^ (k + 1 - 1 - i) % 16)) ∘ Nat.succ) =
        (List.range k).map (fun i => hexDigit (n / 16 ^ (k - 1 - i) % 16)) := by
      refine List.map_congr_left fun i _ => ?_
      have hexp : k + 1 - 1 - (i + 1) = k - 1 - i := by omega
      simp only [Function.comp, Nat.succ_eq_add_one, hexp]
    rw [List.range_succ_eq_map, List.map_cons, List.map_map, htail, List.map_cons,
      HexNumerals.value, HexNumerals.valueFrom_cons, HexNumerals.valueFrom_eq, ih, List.length_map,
      List.length_map, List.length_range, Nat.add_sub_cancel, Nat.sub_zero,
      byteChar_hexDigit _ hlt, HexNumerals.digit_digitChar _ hlt, Nat.mod_pow_succ]
    ring

theorem value_hexOffset (n : ℕ) :
    HexNumerals.value ((hexOffset n).map byteChar) = n % 2 ^ 32 := value_digits n 8

theorem hexOffset_inj {v w : BitVec 32} (h : hexOffset v.toNat = hexOffset w.toNat) : v = w := by
  have hvalue := congrArg (fun s => HexNumerals.value (s.map byteChar)) h
  simp only [value_hexOffset, Nat.mod_eq_of_lt v.isLt, Nat.mod_eq_of_lt w.isLt] at hvalue
  exact BitVec.eq_of_toNat_eq hvalue

private theorem read_formatted {v w : BitVec 32} {buf : ℕ} {m : Memory}
    (h : (m.write buf (hexOffset v.toNat ++ [0])).read buf 9 = hexOffset w.toNat ++ [0]) : v = w := by
  have hread := m.read_write buf (hexOffset v.toNat ++ [0]) []
  have hlen : (hexOffset v.toNat ++ [0]).length = 9 := by
    rw [List.length_append, hexOffset, List.length_map, List.length_range]
    rfl
  rw [List.append_nil, hlen, h] at hread
  exact hexOffset_inj (List.append_cancel_right hread).symm

/-- Both functions write the eight digits of the low 32 bits and a terminator, and the digits
determine the offset. -/
theorem offset_formats_agree {offset : BitVec 32} {rdi : BitVec 64} (hrdi : rdi.setWidth 32 = offset)
    (sbuf : ℕ) (m : Memory) :
    ∃ digits : List Byte, digits.length = 8 ∧ (∀ b ∈ digits, b ∈ text "0123456789abcdef") ∧
      HexNumerals.value (digits.map byteChar) = offset.toNat ∧
      C.hexFormatOffset offset sbuf m = m.write sbuf (digits ++ [0]) ∧
      Asm.hexFormatOffset rdi sbuf m = m.write sbuf (digits ++ [0]) ∧
      (∀ (offset' : BitVec 32) (sbuf' : ℕ) (m' : Memory),
        (C.hexFormatOffset offset' sbuf' m').read sbuf' 9 = digits ++ [0] → offset' = offset) ∧
      ∀ (rdi' : BitVec 64) (sbuf' : ℕ) (m' : Memory),
        (Asm.hexFormatOffset rdi' sbuf' m').read sbuf' 9 = digits ++ [0] →
          rdi'.setWidth 32 = offset := by
  have hasm : ∀ (rdi : BitVec 64) (sbuf : ℕ) (m : Memory), Asm.hexFormatOffset rdi sbuf m =
      m.write sbuf (hexOffset (rdi.setWidth 32).toNat ++ [0]) := by
    intro rdi sbuf m
    have hlow : rdi.toNat % 2 ^ 32 = (rdi.setWidth 32).toNat % 2 ^ 32 := by
      rw [BitVec.toNat_setWidth, Nat.mod_mod]
    rw [Asm.hexFormatOffset_eq, hexOffset_congr hlow]
  refine ⟨hexOffset offset.toNat, ?_, ?_, ?_, C.hexFormatOffset_eq _ _ _, ?_, ?_, ?_⟩
  · rw [hexOffset, List.length_map, List.length_range]
  · simp only [hexOffset, List.forall_mem_map]
    exact fun i _ => hexDigit_mem _ (Nat.mod_lt _ (by decide))
  · rw [value_hexOffset, Nat.mod_eq_of_lt offset.isLt]
  · rw [hasm, hrdi]
  · intro offset' sbuf' m' h
    rw [C.hexFormatOffset_eq] at h
    exact read_formatted h
  · intro rdi' sbuf' m' h
    rw [hasm] at h
    exact read_formatted h

theorem offset_formats_agree_garbage :
    ∃ digits : List Byte, digits.length = 8 ∧ (∀ b ∈ digits, b ∈ text "0123456789abcdef") ∧
      HexNumerals.value (digits.map byteChar) = (0xdeadbeef : BitVec 32).toNat ∧
      C.hexFormatOffset 0xdeadbeef 4 (fun _ => 7) = Memory.write (fun _ => 7) 4 (digits ++ [0]) ∧
      Asm.hexFormatOffset 0xffffffffdeadbeef 4 (fun _ => 7) =
        Memory.write (fun _ => 7) 4 (digits ++ [0]) := by
  obtain ⟨digits, hlen, hmem, hvalue, hc, hasm, -, -⟩ :=
    offset_formats_agree (show (0xffffffffdeadbeef : BitVec 64).setWidth 32 = 0xdeadbeef by decide)
      4 (fun _ => 7)
  exact ⟨digits, hlen, hmem, hvalue, hc, hasm⟩

end Offsets
end CsfAssignments.Hexdump
