import CsfAssignments.HexdumpOutput

/-!
# Agreement of the two hexdump programs

The assembly program writes the expected line for every block. The C program pads a row by the
running total, reduced modulo 16 as a signed `int`. Its rows are those of the assembly program as
long as every block starts at a multiple of 16 and the total is not negative as an `int`.
-/

namespace CsfAssignments.Hexdump
open CIntegers ByteMemory

theorem C.main_eq (f : C.Frame) (m : Memory) {reads : List (List Byte)} (hreads : Blocks reads) :
    C.main f m reads = (rows (fun total _ => C.supplement (toInt total)) 0 reads).flatten :=
  C.mainLoop_eq f hreads 0 ⟨m, []⟩

theorem Asm.main_eq (data : ℕ) (m : Memory) {reads : List (List Byte)} (hreads : Blocks reads) :
    Asm.main data m reads = (rows (fun _ length => 16 - length) 0 reads).flatten := by
  have hsplit : m.write data (List.replicate 62 0) =
      (m.write data (List.replicate 46 0)).write (data + Asm.offset)
        (List.replicate 8 0 ++ List.replicate 8 0) := by
    rw [List.replicate_append_replicate]
    exact (m.write_append data (List.replicate 46 0) (List.replicate 16 0)).symm
  have hoffset : (m.write data (List.replicate 62 0)).load64 (data + Asm.offset) =
      BitVec.ofNat 64 0 := by
    have hread := (m.write data (List.replicate 46 0)).read_write (data + Asm.offset)
      (List.replicate 8 0) (List.replicate 8 0)
    rw [← hsplit, List.length_replicate] at hread
    rw [Memory.load64, hread]
    decide
  exact Asm.mainLoop_eq data hreads (s := ⟨_, []⟩) hoffset

section Exactness

/-- The line of a block: the number of bytes before it modulo 2 ^ 32, its digits with a space
behind each byte, three spaces for every missing byte and one more, and its characters. -/
def dumpLine (before : ℕ) (block : List Byte) : List Byte :=
  hexOffset (before % 2 ^ 32) ++ text ": " ++ block.flatMap (fun b => hexByte b ++ text " ") ++
    List.replicate (3 * (16 - block.length)) (charByte ' ') ++ text " " ++
    block.map printableByte ++ text "\n"

private theorem row_eq_dumpLine (total : ℕ) (block : List Byte) :
    row total (16 - block.length) block = dumpLine total block := by
  have htriple : text "   " = List.replicate 3 (charByte ' ') := by decide
  have hoffset : hexOffset (total % 2 ^ 32) = hexOffset total :=
    hexOffset_congr (Nat.mod_mod _ _)
  rw [row, dumpLine, hoffset, htriple, List.flatten_replicate_replicate, Nat.mul_comm 3]

/-- Every row with the number of bytes before its block. -/
theorem rows_eq_mapIdx (pad : ℕ → ℕ → ℕ) (total : ℕ) (reads : List (List Byte)) :
    rows pad total reads = reads.mapIdx (fun i block =>
      row (total + (reads.take i).flatten.length)
        (pad (total + (reads.take i).flatten.length + block.length) block.length) block) := by
  induction reads generalizing total with
  | nil => rfl
  | cons block reads ih =>
    rw [rows, ih, List.mapIdx_cons]
    simp only [List.take_zero, List.flatten_nil, List.length_nil, Nat.add_zero, List.take_succ_cons,
      List.flatten_cons, List.length_append, Nat.add_assoc]

/-- The assembly program is exact: on every sequence of blocks of 1 to 16 bytes its output is
the line of each block, although its quad stores run past their buffers. -/
theorem asm_hexdump_exact (data : ℕ) (m : Memory) (reads : List (List Byte))
    (hreads : Blocks reads) :
    Asm.main data m reads =
      (reads.mapIdx (fun i block => dumpLine (reads.take i).flatten.length block)).flatten := by
  rw [Asm.main_eq data m hreads, rows_eq_mapIdx]
  simp only [Nat.zero_add, row_eq_dumpLine]

theorem asm_hexdump_exact_two_reads :
    Asm.main 0 (fun _ => 0) [[97], [10, 98]] = dumpLine 0 [97] ++ dumpLine 1 [10, 98] :=
  asm_hexdump_exact 0 (fun _ => 0) [[97], [10, 98]] (by decide)

example : dumpLine 1 [10, 98] = text ("00000001: 0a 62 " ++ "                                          " ++
    " .b\n") := by decide

end Exactness

section Lines

/-- A line of a text, with its newline. -/
def IsLine (l : List Byte) : Prop := ∃ body, l = body ++ text "\n" ∧ charByte '\n' ∉ body

/-- A text determines its lines. -/
theorem eq_of_flatten_eq {ls ls' : List (List Byte)} (hls : ∀ l ∈ ls, IsLine l)
    (hls' : ∀ l ∈ ls', IsLine l) (h : ls.flatten = ls'.flatten) : ls = ls' := by
  induction ls generalizing ls' with
  | nil =>
    cases ls' with
    | nil => rfl
    | cons l' ls' =>
      obtain ⟨body, rfl, -⟩ := hls' _ List.mem_cons_self
      simp [text] at h
  | cons l ls ih =>
    obtain ⟨⟨body, rfl, hbody⟩, htail⟩ := List.forall_mem_cons.mp hls
    cases ls' with
    | nil => simp [text] at h
    | cons l' ls' =>
      obtain ⟨⟨body', rfl, hbody'⟩, htail'⟩ := List.forall_mem_cons.mp hls'
      have htake : ∀ {body : List Byte} (rest : List Byte), charByte '\n' ∉ body →
          (body ++ text "\n" ++ rest).takeWhile (fun b => b ≠ charByte '\n') = body := by
        intro body rest hbody
        rw [List.append_assoc, List.takeWhile_append_of_pos fun b hb => by
          simpa using ne_of_mem_of_not_mem hb hbody]
        simp [text]
      rw [List.flatten_cons, List.flatten_cons] at h
      have heq : body = body' := by
        rw [← htake ls.flatten hbody, h, htake ls'.flatten hbody']
      subst heq
      rw [ih htail htail' (List.append_cancel_left h)]

private theorem newline_notMem_hexDigit : ∀ n < 16, hexDigit n ≠ charByte '\n' := by decide

private theorem printableByte_ne_newline : ∀ b : Byte, printableByte b ≠ charByte '\n' := by
  decide +kernel

theorem isLine_row (total pad : ℕ) (block : List Byte) : IsLine (row total pad block) := by
  refine ⟨_, rfl, ?_⟩
  have hoffset : charByte '\n' ∉ hexOffset total := by
    simp only [hexOffset, List.mem_map, not_exists, not_and]
    exact fun i _ => newline_notMem_hexDigit _ (Nat.mod_lt _ (by decide))
  have hdigits : charByte '\n' ∉ block.flatMap (fun b => hexByte b ++ text " ") := by
    simp only [List.mem_flatMap, not_exists, not_and, List.mem_append, not_or]
    refine fun b _ => ⟨?_, by decide⟩
    have hb := b.isLt
    simp only [hexByte, List.mem_cons, List.not_mem_nil, or_false, not_or]
    exact ⟨(newline_notMem_hexDigit _ (by omega)).symm, (newline_notMem_hexDigit _ (by omega)).symm⟩
  have hpad : charByte '\n' ∉ (List.replicate pad (text "   ")).flatten := by
    simp only [List.mem_flatten, List.mem_replicate, not_exists, not_and]
    rintro l ⟨-, rfl⟩
    decide
  have hprintable : charByte '\n' ∉ block.map printableByte := by
    simp only [List.mem_map, not_exists, not_and]
    exact fun b _ => printableByte_ne_newline b
  have hcolon : charByte '\n' ∉ text ": " := by decide
  have hspace : charByte '\n' ∉ text " " := by decide
  simp only [List.mem_append, not_or]
  exact ⟨⟨⟨⟨⟨hoffset, hcolon⟩, hdigits⟩, hpad⟩, hspace⟩, hprintable⟩

theorem isLine_rows (pad : ℕ → ℕ → ℕ) (total : ℕ) (reads : List (List Byte)) :
    ∀ l ∈ rows pad total reads, IsLine l := by
  induction reads generalizing total with
  | nil => simp [rows]
  | cons block reads ih =>
    rw [rows, List.forall_mem_cons]
    exact ⟨isLine_row _ _ _, ih _⟩

theorem row_inj {total pad pad' : ℕ} {block : List Byte} :
    row total pad block = row total pad' block ↔ pad = pad' := by
  refine ⟨fun h => ?_, fun h => h ▸ rfl⟩
  have htext : (text "   ").length = 3 := by decide
  have hlen := congrArg List.length h
  simp only [row, List.length_append, List.length_flatten, List.map_replicate, List.sum_replicate_nat,
    htext] at hlen
  omega

end Lines

section Padding

private theorem supplement_natCast (n : ℕ) : C.supplement n = (16 - n % 16) % 16 := by
  have hmod : (n : ℤ).tmod 16 = ((n % 16 : ℕ) : ℤ) := by
    rw [Int.tmod_eq_emod_of_nonneg (by omega)]
    rfl
  rw [C.supplement, hmod]
  split_ifs <;> omega

private theorem supplement_neg (n : ℕ) :
    C.supplement (-n) = if n % 16 = 0 then 0 else 16 + n % 16 := by
  have hmod : (-(n : ℤ)).tmod 16 = -((n % 16 : ℕ) : ℤ) := by
    rw [Int.neg_tmod, Int.tmod_eq_emod_of_nonneg (by omega)]
    rfl
  rw [C.supplement, hmod]
  split_ifs <;> omega

private theorem supplement_toInt (n : ℕ) : C.supplement (toInt n) =
    if n % 2 ^ 32 < 2 ^ 31 then (16 - n % 16) % 16 else if n % 16 = 0 then 0 else 32 - n % 16 := by
  split_ifs with hlt hzero
  · have hint : toInt n = ((n % 2 ^ 32 : ℕ) : ℤ) := by
      rw [toInt]
      omega
    rw [hint, supplement_natCast]
    omega
  · have hint : toInt n = -((2 ^ 32 - n % 2 ^ 32 : ℕ) : ℤ) := by
      rw [toInt]
      omega
    rw [hint, supplement_neg, if_pos (by omega)]
  · have hint : toInt n = -((2 ^ 32 - n % 2 ^ 32 : ℕ) : ℤ) := by
      rw [toInt]
      omega
    rw [hint, supplement_neg, if_neg (by omega)]
    omega

/-- Behind a multiple of 16 bytes the padding is right unless the block is short and the
total is negative as an `int`. -/
private theorem supplement_aligned {total n : ℕ} (htotal : total % 16 = 0) (hpos : 1 ≤ n)
    (hle : n ≤ 16) : C.supplement (toInt (total + n : ℕ)) = 16 - n ↔
      n = 16 ∨ (total + n) % 2 ^ 32 < 2 ^ 31 := by
  rw [supplement_toInt]
  split_ifs <;> omega

private theorem supplement_unaligned {total n : ℕ} (htotal : total % 16 ≠ 0) (hpos : 1 ≤ n)
    (hle : n ≤ 16) : C.supplement (toInt (total + n : ℕ)) ≠ 16 - n := by
  rw [supplement_toInt]
  split_ifs <;> omega

end Padding

private theorem dropLast_getLast?_cons {p q : List Byte → Prop} {block : List Byte}
    {reads : List (List Byte)} (hreads : reads ≠ []) :
    ((∀ b ∈ (block :: reads).dropLast, p b) ∧ ∀ b ∈ (block :: reads).getLast?, q b) ↔
      p block ∧ (∀ b ∈ reads.dropLast, p b) ∧ ∀ b ∈ reads.getLast?, q b := by
  obtain ⟨c, reads, rfl⟩ := List.exists_cons_of_ne_nil hreads
  rw [List.dropLast_cons_cons, List.getLast?_cons_cons, List.forall_mem_cons, and_assoc]

/-- Behind a multiple of 16 bytes the rows agree exactly when all blocks but the last are
full and the last is full or followed by a total that is not negative as an `int`. -/
theorem rows_eq_iff {reads : List (List Byte)} (hreads : Blocks reads) {total : ℕ}
    (htotal : total % 16 = 0) :
    rows (fun total _ => C.supplement (toInt total)) total reads =
        rows (fun _ length => 16 - length) total reads ↔
      (∀ b ∈ reads.dropLast, b.length = 16) ∧
        ∀ b ∈ reads.getLast?, b.length = 16 ∨ (total + reads.flatten.length) % 2 ^ 32 < 2 ^ 31 := by
  induction reads generalizing total with
  | nil => simp [rows]
  | cons block reads ih =>
    obtain ⟨⟨hpos, hle⟩, hrest⟩ := List.forall_mem_cons.mp hreads
    rw [rows, rows, List.cons.injEq, row_inj, supplement_aligned htotal hpos hle]
    by_cases hnil : reads = []
    · subst hnil
      simp [rows]
    rw [dropLast_getLast?_cons hnil, List.flatten_cons, List.length_append, ← Nat.add_assoc]
    by_cases hfull : block.length = 16
    · rw [ih hrest (by omega)]
      simp [hfull]
    · refine iff_of_false (fun h => ?_) fun h => hfull h.1
      -- the next row begins inside a line
      obtain ⟨next, reads, rfl⟩ := List.exists_cons_of_ne_nil hnil
      obtain ⟨hpos', hle'⟩ := hrest next List.mem_cons_self
      rw [rows, rows, List.cons.injEq, row_inj] at h
      exact supplement_unaligned (by omega) hpos' hle' h.2.1

/-- The outputs agree exactly when all blocks but the last have 16 bytes, and the last has 16
as well or the number of bytes modulo 2 ^ 32 is below 2 ^ 31. -/
theorem hexdumps_agree_iff (f : C.Frame) (m : Memory) (data : ℕ) (m' : Memory)
    (reads : List (List Byte)) (hreads : Blocks reads) :
    C.main f m reads = Asm.main data m' reads ↔
      (∀ b ∈ reads.dropLast, b.length = 16) ∧
        ∀ b ∈ reads.getLast?, b.length = 16 ∨ reads.flatten.length % 2 ^ 32 < 2 ^ 31 := by
  have hrows := rows_eq_iff hreads (Nat.zero_mod 16)
  rw [Nat.zero_add] at hrows
  rw [C.main_eq f m hreads, Asm.main_eq data m' hreads, ← hrows]
  exact ⟨eq_of_flatten_eq (isLine_rows _ _ _) (isLine_rows _ _ _), fun h => by rw [h]⟩

/-- The local arrays one behind the other. -/
def adjacentFrame : C.Frame where
  offset := 0
  data := 9
  hex := 26
  offset_data := by decide
  offset_hex := by decide
  data_hex := by decide

theorem hexdumps_agree_one_byte :
    C.main adjacentFrame (fun _ => 0) [[97]] = Asm.main 0 (fun _ => 0) [[97]] ↔
      (∀ b ∈ [[(97 : Byte)]].dropLast, b.length = 16) ∧ ∀ b ∈ [[(97 : Byte)]].getLast?,
        b.length = 16 ∨ [[(97 : Byte)]].flatten.length % 2 ^ 32 < 2 ^ 31 :=
  hexdumps_agree_iff adjacentFrame (fun _ => 0) 0 (fun _ => 0) [[97]] (by decide)

/-- Two reads of one byte: the second row of the C program lacks a column of padding. -/
theorem hexdumps_differ_on_short_reads :
    ¬∀ (f : C.Frame) (m : Memory) (data : ℕ) (m' : Memory) (reads : List (List Byte)),
      Blocks reads → C.main f m reads = Asm.main data m' reads := by
  intro h
  have hblocks : Blocks [[97], [98]] := by decide
  have heq := h adjacentFrame (fun _ => 0) 0 (fun _ => 0) [[97], [98]] hblocks
  rw [C.main_eq _ _ hblocks, Asm.main_eq _ _ hblocks] at heq
  exact absurd heq (by decide)

end CsfAssignments.Hexdump
