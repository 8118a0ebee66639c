import CsfAssignments.HexdumpDecoding

/-!
# The text column of the C hexdump

A row of `n` bytes is padded by `16 - n` groups exactly when its characters begin at column 59.
The C program takes the padding from the running total as an `int`, so a short last row is
padded too far when the total is negative as an `int`.
-/

namespace CsfAssignments.Hexdump
open CIntegers ByteMemory

theorem spacedLine_inj {before pad pad' : ℕ} {block : List Byte} :
    spacedLine before (3 * pad + 1) block = spacedLine before (3 * pad' + 1) block ↔ pad = pad' := by
  have hrow := @row_inj before pad pad' block
  rwa [row_eq_spacedLine, row_eq_spacedLine, List.append_left_inj] at hrow

private theorem length_groups (block : List Byte) :
    (block.flatMap (fun b => hexByte b ++ text " ")).length = 3 * block.length := by
  induction block with
  | nil => rfl
  | cons b block ih =>
    have hgroup : (hexByte b ++ text " ").length = 3 := rfl
    rw [List.flatMap_cons, List.length_append, ih, hgroup, List.length_cons]
    omega

/-- The characters begin at column 59 exactly when the missing bytes are padded. -/
theorem drop_spacedLine_iff {before pad : ℕ} {block : List Byte} (hpos : 1 ≤ block.length)
    (hle : block.length ≤ 16) :
    (spacedLine before (3 * pad + 1) block).drop 59 = block.map printableByte ↔
      pad = 16 - block.length := by
  have hfront : (hexOffset (before % 2 ^ 32) ++ text ": " ++
      block.flatMap (fun b => hexByte b ++ text " ") ++
        List.replicate (3 * pad + 1) (charByte ' ')).length = 10 + 3 * block.length + (3 * pad + 1) := by
    rw [List.length_append, List.length_append, List.length_append, length_groups, hexOffset,
      List.length_map, List.length_range, List.length_replicate]
    rfl
  constructor
  · intro h
    have hlen := congrArg List.length h
    rw [List.length_drop, spacedLine, List.length_append, hfront, List.length_map] at hlen
    omega
  · intro h
    rw [spacedLine]
    exact List.drop_left' (by omega)

section Lines
variable (f : C.Frame) (m : Memory) {reads : List (List Byte)} (hreads : Blocks reads)
include hreads

theorem C.padding_iff : lines (C.main f m reads) = reads.mapIdx (fun i block =>
      spacedLine (reads.take i).flatten.length (3 * (16 - block.length) + 1) block) ↔
    ∀ i (hi : i < reads.length), C.linePad reads i = 16 - reads[i].length := by
  rw [(C.lines_main f m hreads).1, List.mapIdx_eq_mapIdx_iff]
  simp only [spacedLine_inj]

theorem C.text_column_iff :
    (lines (C.main f m reads)).map (List.drop 59) = reads.map (List.map printableByte) ↔
      ∀ i (hi : i < reads.length), C.linePad reads i = 16 - reads[i].length := by
  have hline : ∀ i (hi : i < reads.length),
      (spacedLine (reads.take i).flatten.length (3 * C.linePad reads i + 1) reads[i]).drop 59 =
        reads[i].map printableByte ↔ C.linePad reads i = 16 - reads[i].length := by
    intro i hi
    obtain ⟨hpos, hle⟩ := hreads _ (List.getElem_mem hi)
    exact drop_spacedLine_iff hpos hle
  rw [(C.lines_main f m hreads).1, List.ext_getElem_iff]
  simp only [List.length_map, List.length_mapIdx, List.getElem_map, List.getElem_mapIdx, true_and]
  exact forall₂_congr fun i hi => by rw [← hline i hi, forall_prop_of_true hi]

end Lines

/-- Every line of the C program is padded by the missing bytes exactly when the last block is
full or the total is not negative as an `int`. -/
theorem C.linePad_eq_iff {reads : List (List Byte)} (hreads : Blocks reads)
    (hfull : ∀ b ∈ reads.dropLast, b.length = 16) :
    (∀ i (hi : i < reads.length), C.linePad reads i = 16 - reads[i].length) ↔
      ∀ b ∈ reads.getLast?, b.length = 16 ∨ reads.flatten.length % 2 ^ 32 < 2 ^ 31 := by
  have hrows := rows_eq_iff hreads (Nat.zero_mod 16)
  rw [rows_eq_mapIdx, rows_eq_mapIdx, List.mapIdx_eq_mapIdx_iff, Nat.zero_add,
    and_iff_right hfull] at hrows
  rw [← hrows]
  refine forall₂_congr fun i hi => ?_
  rw [row_inj, C.linePad, List.take_succ_eq_append_getElem hi, List.flatten_append,
    List.flatten_singleton, List.length_append, Nat.zero_add]

/-- On 16-byte reads and at most one shorter last one, the characters of every line begin at
column 59 exactly when the last read is full or the number of bytes modulo 2 ^ 32 is below
2 ^ 31, and exactly then every line has three spaces for each missing byte and one more. -/
theorem c_hexdump_aligned_iff (f : C.Frame) (m : Memory) (reads : List (List Byte))
    (hreads : Blocks reads) (hfull : ∀ b ∈ reads.dropLast, b.length = 16) :
    ((lines (C.main f m reads)).map (List.drop 59) = reads.map (List.map printableByte) ↔
      ∀ b ∈ reads.getLast?, b.length = 16 ∨ reads.flatten.length % 2 ^ 32 < 2 ^ 31) ∧
    (lines (C.main f m reads) = reads.mapIdx (fun i block =>
        spacedLine (reads.take i).flatten.length (3 * (16 - block.length) + 1) block) ↔
      ∀ b ∈ reads.getLast?, b.length = 16 ∨ reads.flatten.length % 2 ^ 32 < 2 ^ 31) := by
  rw [← C.linePad_eq_iff hreads hfull]
  exact ⟨C.text_column_iff f m hreads, C.padding_iff f m hreads⟩

theorem c_hexdump_aligned_two_reads :
    ((lines (C.main adjacentFrame (fun _ => 0) [List.replicate 16 97, [98]])).map (List.drop 59) =
        [List.replicate 16 97, [98]].map (List.map printableByte) ↔
      ∀ b ∈ [List.replicate 16 97, [(98 : Byte)]].getLast?, b.length = 16 ∨
        [List.replicate 16 97, [(98 : Byte)]].flatten.length % 2 ^ 32 < 2 ^ 31) :=
  (c_hexdump_aligned_iff adjacentFrame (fun _ => 0) [List.replicate 16 97, [98]]
    (by decide) (by decide)).1

/-- A file of 2 ^ 31 + 1 bytes: the last row is padded by 31 groups for its missing 15 bytes. -/
theorem c_hexdump_misaligned :
    ¬∀ (f : C.Frame) (m : Memory) (reads : List (List Byte)), Blocks reads →
      (∀ b ∈ reads.dropLast, b.length = 16) →
      (lines (C.main f m reads)).map (List.drop 59) = reads.map (List.map printableByte) := by
  intro h
  obtain ⟨full, hfull, hlen⟩ : ∃ full : List (List Byte), (∀ b ∈ full, b.length = 16) ∧
      full.flatten.length = 2 ^ 31 := by
    refine ⟨List.replicate (2 ^ 27) (List.replicate 16 97), fun b hb => ?_, ?_⟩
    · rw [List.eq_of_mem_replicate hb, List.length_replicate]
    · rw [List.length_flatten, List.map_replicate, List.length_replicate, List.sum_replicate_nat]
      norm_num
  have hreads : Blocks (full ++ [[97]]) := by
    refine List.forall_mem_append.mpr ⟨fun b hb => ?_, by decide⟩
    rw [hfull b hb]
    decide
  have hfront : ∀ b ∈ (full ++ [[97]]).dropLast, b.length = 16 := by
    rwa [List.dropLast_concat]
  have hlast := (C.linePad_eq_iff hreads hfront).mp
    ((C.text_column_iff adjacentFrame (fun _ => 0) hreads).mp (h _ _ _ hreads hfront))
  have htotal : (full ++ [[97]]).flatten.length = 2 ^ 31 + 1 := by
    rw [List.flatten_append, List.length_append, hlen, List.flatten_singleton, List.length_singleton]
  have hcases := hlast [97] (by rw [List.getLast?_concat]; rfl)
  rw [htotal, List.length_singleton] at hcases
  exact absurd hcases (by norm_num)

end CsfAssignments.Hexdump
