import CsfAssignments.HexdumpRows

/-!
# The outputs of the two hexdump programs

On blocks of 1 to 16 bytes each program writes one row for every block. The C program takes
the padding from the running total, the assembly program from the length of the block, and
the bytes that the quad stores clobber are all rewritten before they are read.
-/

namespace CsfAssignments.Hexdump
open CIntegers ByteMemory

/-- The rows of blocks behind `total` bytes. The padding may depend on the total after the
block and on its length. -/
def rows (pad : ℕ → ℕ → ℕ) : ℕ → List (List Byte) → List (List Byte)
  | _, [] => []
  | total, block :: blocks =>
      row total (pad (total + block.length) block.length) block ::
        rows pad (total + block.length) blocks

/-- The results of `read` on an input that is not cut short by an error. -/
def Blocks (reads : List (List Byte)) : Prop := ∀ block ∈ reads, 1 ≤ block.length ∧ block.length ≤ 16

instance (reads : List (List Byte)) : Decidable (Blocks reads) :=
  List.decidableBAll _ reads

section Printing

/-- A function that writes a terminated string and leaves the memory alone. -/
def Prints (print : (ℕ → Byte) → Process → Process) : Prop :=
  ∀ p bytes, StringAt p 0 bytes → bytes.length < 2 ^ 64 → ∀ s,
    print p s = ⟨s.memory, s.output ++ bytes⟩

theorem C.prints : Prints C.hexWriteString := fun _ _ h hlen s => C.hexWriteString_eq h hlen s

theorem Asm.prints : Prints Asm.hexWriteString := fun _ _ h hlen s => Asm.hexWriteString_eq h hlen s

variable {print : (ℕ → Byte) → Process → Process} (hprint : Prints print)
include hprint

theorem Prints.literal {str : String} (hstr : ∀ b ∈ text str, b ≠ 0)
    (hlen : (text str).length < 2 ^ 64) (s : Process) :
    print (literal str) s = ⟨s.memory, s.output ++ text str⟩ :=
  hprint _ _ (stringAt_literal hstr) hlen s

theorem Prints.space (s : Process) : print (Hexdump.literal " ") s =
    ⟨s.memory, s.output ++ text " "⟩ := hprint.literal (by decide) (by decide) s

theorem Prints.repeated {str : String} (hstr : ∀ b ∈ text str, b ≠ 0)
    (hlen : (text str).length < 2 ^ 64) (n : ℕ) (s : Process) :
    forLoop n (fun _ s => print (Hexdump.literal str) s) s =
      ⟨s.memory, s.output ++ (List.replicate n (text str)).flatten⟩ := by
  induction n with
  | zero => simp
  | succ n ih =>
    rw [forLoop_succ, ih, hprint.literal hstr hlen, List.replicate_succ', List.flatten_append,
      List.flatten_singleton, List.append_assoc]

/-- The loop over the digits of a block, with a formatter that stores `tail` behind the
terminator. Only the buffer of the digits changes. -/
theorem Prints.digits {format : Byte → ℕ → Memory → Memory} (tail : List Byte)
    (hformat : ∀ b a m, format b a m = m.write a (hexByte b ++ 0 :: tail)) {block : List Byte}
    {data : ℕ} (hex : ℕ) (hdisj : data + block.length ≤ hex ∨ hex + (3 + tail.length) ≤ data)
    {s : Process} (hread : s.memory.read data block.length = block) :
    ∃ bytes, bytes.length ≤ 3 + tail.length ∧
      forLoop block.length (fun i s =>
        let s := { s with memory := format (s.memory (data + i)) hex s.memory }
        let s := print (s.memory.view hex) s
        print (Hexdump.literal " ") s) s =
      ⟨s.memory.write hex bytes,
        s.output ++ block.flatMap (fun b => hexByte b ++ text " ")⟩ := by
  have hbyte : ∀ i (hi : i < block.length), s.memory (data + i) = block[i] := by
    intro i hi
    have hget := congrArg (fun l => l[i]?) hread
    simpa [Memory.read, Memory.view, hi] using hget
  have hrounds : ∀ k ≤ block.length, ∃ bytes, bytes.length ≤ 3 + tail.length ∧
      forLoop k (fun i s =>
        let s := { s with memory := format (s.memory (data + i)) hex s.memory }
        let s := print (s.memory.view hex) s
        print (Hexdump.literal " ") s) s =
      ⟨s.memory.write hex bytes,
        s.output ++ (block.take k).flatMap (fun b => hexByte b ++ text " ")⟩ := by
    intro k hk
    induction k with
    | zero => exact ⟨[], Nat.zero_le _, by simp⟩
    | succ k ih =>
      obtain ⟨bytes, hbytes, hloop⟩ := ih (by omega)
      have hlast : s.memory.write hex bytes (data + k) = block[k] := by
        rw [← hbyte k (by omega)]
        rcases hdisj with h | h
        · exact Memory.write_apply_of_lt _ _ (by omega) _
        · exact Memory.write_apply_of_le _ _ (by omega)
      have hlen : (hexByte block[k] ++ 0 :: tail).length = 3 + tail.length := by
        simp [hexByte]
        omega
      refine ⟨hexByte block[k] ++ 0 :: tail, hlen.le, ?_⟩
      rw [forLoop_succ, hloop]
      simp only [hlast, hformat]
      rw [Memory.write_write _ _ (by rw [hlen]; exact hbytes),
        hprint _ _ (stringAt_view_write _ hex (hexByte_ne_zero _) tail) (by simp [hexByte]),
        hprint.space, List.take_succ_eq_append_getElem (by omega), List.flatMap_append,
        List.flatMap_singleton]
      simp only [List.append_assoc]
  have h := hrounds block.length (le_refl _)
  rwa [List.take_length] at h

end Printing

section Memory

/-- The data buffer after a read: the block and its terminator. -/
theorem read_data_write (m : Memory) (data : ℕ) (block rest : List Byte) :
    (m.write data (block ++ 0 :: rest)).read data (block.length + 1) = block ++ [0] := by
  have h := m.read_write data (block ++ [0]) rest
  rwa [List.length_append, List.append_assoc] at h

theorem read_block {m : Memory} {data : ℕ} {block : List Byte}
    (h : m.read data (block.length + 1) = block ++ [0]) : m.read data block.length = block := by
  rw [Memory.read_succ] at h
  exact (List.append_inj h (by simp)).1

theorem map_printableByte_ne_zero (block : List Byte) : ∀ b ∈ block.map printableByte, b ≠ 0 := by
  simp only [List.forall_mem_map]
  exact fun b _ => printableByte_ne_zero b

/-- The printable characters over the block, in front of the same terminator. -/
theorem read_printable {m : Memory} {data : ℕ} {block : List Byte}
    (h : m.read data (block.length + 1) = block ++ [0]) :
    (m.write data (block.map printableByte)).read data ((block.map printableByte).length + 1) =
      block.map printableByte ++ [0] := by
  have hinit := m.read_write data (block.map printableByte) []
  have hlast : m (data + block.length) = 0 := by
    rw [Memory.read_succ] at h
    simpa using (List.append_inj h (by simp)).2
  rw [List.append_nil] at hinit
  rw [Memory.read_succ, hinit, Memory.write_apply_of_le _ _ (le_refl _), List.length_map, hlast]

end Memory

namespace C

theorem hexRead_eq (data : ℕ) (block : List Byte) (s : Process) :
    hexRead data block s = (block.length, ⟨s.memory.write data (block ++ [0]), s.output⟩) := by
  simp only [hexRead, Memory.write_append]

theorem printoffset_eq (value : ℤ) (offset : ℕ) (s : Process) :
    printoffset value offset s =
      ⟨s.memory.write offset (hexOffset (BitVec.ofInt 32 value).toNat ++ [0]),
        s.output ++ hexOffset (BitVec.ofInt 32 value).toNat ++ text ": "⟩ := by
  simp only [printoffset, hexFormatOffset_eq]
  rw [prints _ _ (stringAt_view_write _ offset (hexOffset_ne_zero _) []) (by simp [hexOffset]),
    prints.literal (by decide) (by decide)]

private theorem hexOffset_toInt (total : ℕ) :
    hexOffset (BitVec.ofInt 32 (toInt total)).toNat = hexOffset total := by
  apply hexOffset_congr
  rw [BitVec.toNat_ofInt, toInt]
  omega

theorem convertLoop_eq {data : ℕ} {block : List Byte} {s : Process} (index : ℤ)
    (h : s.memory.read data (block.length + 1) = block ++ [0]) :
    convertLoop block.length data index s =
      (index + block.length, ⟨s.memory.write data (block.map printableByte), s.output⟩) := by
  have hmap : block.map hexToPrintable = block.map printableByte :=
    List.map_congr_left fun b _ => hexToPrintable_eq b
  have hloop := s.memory.forLoop_write_map block hexToPrintable (read_block h) (.inl rfl)
  simp only [convertLoop, hloop, hmap]

theorem printdata_eq {data : ℕ} {chars : List Byte} {s : Process} (hchars : ∀ b ∈ chars, b ≠ 0)
    (hlen : chars.length ≤ 16) (h : s.memory.read data (chars.length + 1) = chars ++ [0]) :
    printdata data s = ⟨s.memory, s.output ++ text " " ++ chars ++ text "\n"⟩ := by
  rw [printdata, prints.space]
  simp only
  rw [prints _ _ (stringAt_view h hchars) (by omega), prints.literal (by decide) (by decide)]

/-- One round of the main loop writes one row. -/
theorem mainBody_eq (f : Frame) {block : List Byte} (hlen : block.length ≤ 16) (total : ℕ)
    {s : Process} (hread : s.memory.read f.data (block.length + 1) = block ++ [0]) :
    ∃ m, mainBody f block.length total s = (((total + block.length : ℕ) : ℤ),
      ⟨m, s.output ++ row total (supplement (toInt (total + block.length : ℕ))) block⟩) := by
  have hoffset := f.offset_data
  have hhex := f.data_hex
  let s1 : Process := ⟨s.memory.write f.offset (hexOffset total ++ [0]),
    s.output ++ hexOffset total ++ text ": "⟩
  have hread1 : s1.memory.read f.data (block.length + 1) = block ++ [0] := by
    rw [Memory.read_write_of_disjoint _ _ (by simp [hexOffset]; omega), hread]
  obtain ⟨bytes, hbytes, hloop⟩ := prints.digits (s := s1) []
    (fun b a m => hexFormatByteAsHex_eq b a m) f.hex (by simp only [List.length_nil]; omega)
    (read_block hread1)
  let s2 : Process := ⟨s1.memory.write f.hex bytes,
    s1.output ++ block.flatMap (fun b => hexByte b ++ text " ")⟩
  have hread2 : s2.memory.read f.data (block.length + 1) = block ++ [0] := by
    rw [List.length_nil, Nat.add_zero] at hbytes
    rw [Memory.read_write_of_disjoint _ _ (by omega), hread1]
  refine ⟨s2.memory.write f.data (block.map printableByte), ?_⟩
  rw [mainBody, printoffset_eq, hexOffset_toInt]
  simp only [printloop]
  rw [hloop, convertLoop_eq (s := s2) total hread2]
  simp only [printsupplement]
  rw [prints.repeated (by decide) (by decide),
    printdata_eq (map_printableByte_ne_zero block) (by simpa using hlen) (read_printable hread2)]
  simp only [s1, s2, row, List.append_assoc, Nat.cast_add]

/-- The output of the C program. -/
theorem mainLoop_eq (f : Frame) {reads : List (List Byte)} (hreads : Blocks reads) (total : ℕ)
    (s : Process) : (mainLoop f reads total s).output =
      s.output ++ (rows (fun total _ => supplement (toInt total)) total reads).flatten := by
  induction reads generalizing total s with
  | nil => simp [mainLoop, rows, hexRead_eq]
  | cons block reads ih =>
    obtain ⟨⟨hpos, hle⟩, hrest⟩ := List.forall_mem_cons.mp hreads
    obtain ⟨m, hbody⟩ := mainBody_eq f hle total (s := ⟨s.memory.write f.data (block ++ [0]), s.output⟩)
      (read_data_write _ _ _ _)
    simp only [mainLoop, hexRead_eq, if_pos (show block.length > 0 from hpos), hbody, ih hrest, rows,
      List.flatten_cons, List.append_assoc]

end C

namespace Asm

private theorem toInt_ofNat {n : ℕ} (hn : n ≤ 16) : (BitVec.ofNat 64 n).toInt = n := by
  rw [BitVec.toInt_eq_toNat_of_lt (by rw [BitVec.toNat_ofNat]; omega), BitVec.toNat_ofNat]
  omega

theorem hexRead_eq (data : ℕ) {block : List Byte} (hlen : block.length ≤ 16) (s : Process) :
    hexRead data block s = (BitVec.ofNat 64 block.length,
      ⟨s.memory.write data (block ++ 0 :: List.replicate 7 0), s.output⟩) := by
  have haddr : (BitVec.ofNat 64 block.length).toNat + data = data + block.length := by
    rw [BitVec.toNat_ofNat, Nat.mod_eq_of_lt (by omega), Nat.add_comm]
  simp only [hexRead, haddr, Memory.store64_zero, Memory.write_append]
  rfl

theorem printOffset_eq (rdi : BitVec 64) (rsi : ℕ) (s : Process) :
    printOffset rdi rsi s = ⟨s.memory.write rsi (hexOffset rdi.toNat ++ [0]),
      s.output ++ hexOffset rdi.toNat⟩ := by
  simp only [printOffset, hexFormatOffset_eq]
  exact prints _ _ (stringAt_view_write _ rsi (hexOffset_ne_zero _) []) (by simp [hexOffset]) _

theorem printsupplement_eq {n : ℕ} (hn : n ≤ 16) (s : Process) :
    printsupplement (BitVec.ofNat 64 n) (literal " ") (literal "   ") s =
      ⟨s.memory, s.output ++ (List.replicate (16 - n) (text "   ")).flatten ++ text " "⟩ := by
  have hrounds : (16 - (n : ℤ)).toNat = 16 - n := by omega
  rw [printsupplement, toInt_ofNat hn, hrounds, prints.repeated (by decide) (by decide)]
  exact prints.space _

theorem printPrintable_eq {block : List Byte} (hlen : block.length ≤ 16) {dst data : ℕ}
    (hdisj : data + block.length ≤ dst) {s : Process}
    (hread : s.memory.read data block.length = block) :
    printPrintable (BitVec.ofNat 64 block.length) dst data s =
      ⟨s.memory.write dst (block.map printableByte ++ [0]),
        s.output ++ block.map printableByte⟩ := by
  have hloop := s.memory.forLoop_write_map block printableByte hread (.inr (.inl hdisj))
  have happend := s.memory.write_append dst (block.map printableByte) [0]
  rw [List.length_map] at happend
  simp only [printPrintable, toInt_ofNat hlen, Int.toNat_natCast, hexToPrintable_eq, hloop, happend]
  exact prints _ _ (stringAt_view_write _ dst (map_printableByte_ne_zero block) []) (by simp; omega) _

/-- One round of the main loop writes one row and counts its bytes. The stores that run past
`single_hex` reach only the buffer of the offset, which is read no more. -/
theorem mainBody_eq (data : ℕ) {block : List Byte} (hlen : block.length ≤ 16) {total : ℕ}
    {s : Process} (hread : s.memory.read data (block.length + 1) = block ++ [0])
    (hoffset : s.memory.load64 (data + offset) = BitVec.ofNat 64 total)
    (hreadlength : s.memory.load64 (data + readlength) = BitVec.ofNat 64 block.length) :
    (mainBody data s).output = s.output ++ row total (16 - block.length) block ∧
      (mainBody data s).memory.load64 (data + offset) =
        BitVec.ofNat 64 (total + block.length) := by
  have htotal : hexOffset (BitVec.ofNat 64 total).toNat = hexOffset total := by
    apply hexOffset_congr
    rw [BitVec.toNat_ofNat]
    omega
  let s1 : Process := ⟨s.memory.write (data + offsetHex) (hexOffset total ++ [0]),
    s.output ++ hexOffset total ++ text ": "⟩
  have hprint1 : hexWriteString (literal ": ")
      (printOffset (BitVec.ofNat 64 total) (data + offsetHex) s) = s1 := by
    rw [printOffset_eq, htotal, prints.literal (by decide) (by decide)]
  have hread1 : s1.memory.read data block.length = block := by
    rw [Memory.read_write_of_disjoint _ _ (by simp [hexOffset, offsetHex]; omega), read_block hread]
  obtain ⟨bytes, hbytes, hloop⟩ := prints.digits (s := s1) (List.replicate 7 0)
    (fun b a m => hexFormatByteAsHex_eq b a m) (data + singleHex)
    (by simp only [singleHex, List.length_replicate]; omega) hread1
  rw [List.length_replicate] at hbytes
  let s2 : Process := ⟨s1.memory.write (data + singleHex) bytes,
    s1.output ++ block.flatMap (fun b => hexByte b ++ text " ")⟩
  have hprint2 : printInputChars (BitVec.ofNat 64 block.length) data (data + singleHex)
      (literal " ") s1 = s2 := by
    rw [printInputChars, toInt_ofNat hlen, Int.toNat_natCast, hloop]
  let s3 : Process := ⟨s2.memory,
    s2.output ++ (List.replicate (16 - block.length) (text "   ")).flatten ++ text " "⟩
  have hprint3 : printsupplement (BitVec.ofNat 64 block.length) (literal " ") (literal "   ") s2 =
      s3 := printsupplement_eq hlen s2
  have hread3 : s3.memory.read data block.length = block := by
    rw [Memory.read_write_of_disjoint _ _ (by simp only [singleHex]; omega), hread1]
  let s4 : Process := ⟨s3.memory.write (data + printable) (block.map printableByte ++ [0]),
    s3.output ++ block.map printableByte⟩
  have hprint4 : printPrintable (BitVec.ofNat 64 block.length) (data + printable) data s3 = s4 :=
    printPrintable_eq hlen (by simp only [printable]; omega) hread3
  -- the two quad words lie behind everything that was written
  have hquad : ∀ p, data + offset ≤ p → s1.memory.load64 p = s.memory.load64 p ∧
      s2.memory.load64 p = s.memory.load64 p ∧ s4.memory.load64 p = s.memory.load64 p := by
    intro p hp
    rw [offset] at hp
    have hquad1 : s1.memory.load64 p = s.memory.load64 p :=
      Memory.load64_write_of_disjoint _ _ (by simp [hexOffset, offsetHex]; omega)
    have hquad2 : s2.memory.load64 p = s1.memory.load64 p :=
      Memory.load64_write_of_disjoint _ _ (by simp only [singleHex]; omega)
    have hquad4 : s4.memory.load64 p = s2.memory.load64 p :=
      Memory.load64_write_of_disjoint _ _ (by simp [printable]; omega)
    exact ⟨hquad1, hquad2.trans hquad1, hquad4.trans (hquad2.trans hquad1)⟩
  obtain ⟨hlen1, hlen2, hlen4⟩ := hquad (data + readlength) (by simp only [offset, readlength]; omega)
  obtain ⟨-, -, htotal4⟩ := hquad (data + offset) (le_refl _)
  have hnewline : ∀ s, hexWriteString (literal "\n") s = ⟨s.memory, s.output ++ text "\n"⟩ :=
    prints.literal (by decide) (by decide)
  have hsum : BitVec.ofNat 64 total + BitVec.ofNat 64 block.length =
      BitVec.ofNat 64 (total + block.length) := (BitVec.ofNat_add _ _).symm
  have hbody : mainBody data s =
      ⟨s4.memory.store64 (data + offset) (BitVec.ofNat 64 (total + block.length)),
        s4.output ++ text "\n"⟩ := by
    simp only [mainBody, hoffset, hprint1, hlen1, hreadlength, hprint2, hlen2, hprint3,
      show s3.memory = s2.memory from rfl, hprint4, hnewline, hlen4, htotal4, hsum]
  rw [hbody]
  refine ⟨?_, Memory.load64_store64 _ _ _⟩
  simp only [s1, s2, s3, s4, row, List.append_assoc]

/-- The state of the main loop behind a read. -/
def afterRead (data : ℕ) (block : List Byte) (s : Process) : Process :=
  ⟨(s.memory.write data (block ++ 0 :: List.replicate 7 0)).store64 (data + readlength)
    (BitVec.ofNat 64 block.length), s.output⟩

theorem afterRead_read (data : ℕ) {block : List Byte} (hlen : block.length ≤ 16) (s : Process) :
    (afterRead data block s).memory.read data (block.length + 1) = block ++ [0] :=
  (Memory.read_write_of_disjoint _ _ (by simp only [readlength]; omega)).trans
    (read_data_write _ _ _ _)

theorem afterRead_readlength (data : ℕ) (block : List Byte) (s : Process) :
    (afterRead data block s).memory.load64 (data + readlength) = BitVec.ofNat 64 block.length :=
  Memory.load64_store64 _ _ _

theorem afterRead_offset (data : ℕ) {block : List Byte} (hlen : block.length ≤ 16) (s : Process) :
    (afterRead data block s).memory.load64 (data + offset) = s.memory.load64 (data + offset) :=
  (Memory.load64_write_of_disjoint _ _ (by simp [offset, readlength])).trans
    (Memory.load64_write_of_disjoint _ _ (by simp [offset]; omega))

theorem mainLoop_cons (data : ℕ) {block : List Byte} (hpos : 1 ≤ block.length)
    (hlen : block.length ≤ 16) (reads : List (List Byte)) (s : Process) :
    mainLoop data (block :: reads) s = mainLoop data reads (mainBody data (afterRead data block s)) := by
  have hnonempty : (BitVec.ofNat 64 block.length).sle 0 = false := by
    have hlt : (0 : ℤ) < block.length := by omega
    rw [BitVec.sle, toInt_ofNat hlen]
    exact decide_eq_false (not_le.mpr hlt)
  have hload := afterRead_readlength data block s
  rw [mainLoop, hexRead_eq data hlen]
  change (if ((afterRead data block s).memory.load64 (data + readlength)).sle 0 then _ else
    mainLoop data reads (mainBody data (afterRead data block s))) = _
  rw [hload, hnonempty, if_neg Bool.false_ne_true]

/-- The output of the assembly program from a state that has counted `total` bytes. -/
theorem mainLoop_eq (data : ℕ) {reads : List (List Byte)} (hreads : Blocks reads) {total : ℕ}
    {s : Process} (hoffset : s.memory.load64 (data + offset) = BitVec.ofNat 64 total) :
    (mainLoop data reads s).output =
      s.output ++ (rows (fun _ length => 16 - length) total reads).flatten := by
  induction reads generalizing total s with
  | nil => simp [mainLoop, rows, hexRead_eq]
  | cons block reads ih =>
    obtain ⟨⟨hpos, hle⟩, hrest⟩ := List.forall_mem_cons.mp hreads
    obtain ⟨houtput, hcount⟩ := mainBody_eq data hle (afterRead_read data hle s)
      ((afterRead_offset data hle s).trans hoffset) (afterRead_readlength data block s)
    rw [mainLoop_cons data hpos hle, ih hrest hcount, houtput]
    simp only [afterRead, rows, List.flatten_cons, List.append_assoc]

end Asm
end CsfAssignments.Hexdump
