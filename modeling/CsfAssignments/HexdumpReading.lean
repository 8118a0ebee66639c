import CsfAssignments.HexdumpColumns

/-!
# The two hexdumps read side by side

The dump of the assembly program can be read back as well, and its characters are always aligned.
The same reader restores a file from either dump, whatever reads it came in.
-/

namespace CsfAssignments.Hexdump
open ByteMemory

section Reading
variable {reads : List (List Byte)}

/-- The lines of the assembly program: the missing bytes are padded in every one. -/
theorem Asm.lines_main (data : ℕ) (m : Memory) (hreads : Blocks reads) :
    lines (Asm.main data m reads) = reads.mapIdx (fun i block =>
      spacedLine (reads.take i).flatten.length (3 * (16 - block.length) + 1) block) := by
  have hmain : Asm.main data m reads = ((reads.mapIdx (fun i block =>
      spacedLine (reads.take i).flatten.length (3 * (16 - block.length) + 1) block)).map
        (fun l => l ++ text "\n")).flatten := by
    rw [Asm.main_eq data m hreads, rows_eq_mapIdx]
    congr 1
    refine List.ext_getElem (by simp) fun i _ _ => ?_
    simp only [List.getElem_mapIdx, List.getElem_map, row_eq_spacedLine, Nat.zero_add]
  rw [hmain]
  refine lines_flatten fun l hl => ?_
  obtain ⟨i, hi, rfl⟩ := List.mem_mapIdx.mp hl
  exact newline_notMem_spacedLine _ _ _

/-- The dump of the assembly program is read back block by block. -/
theorem Asm.decode_main (data : ℕ) (m : Memory) (hreads : Blocks reads) :
    decode (Asm.main data m reads) = reads := by
  rw [decode, Asm.lines_main data m hreads]
  refine List.ext_getElem (by simp) fun i hi _ => ?_
  simp only [List.getElem_map, List.getElem_mapIdx]
  exact readGroups_spacedLine _ (Nat.le_add_left 1 _) _

/-- The characters of every line of the assembly program begin at column 59. -/
theorem Asm.text_column (data : ℕ) (m : Memory) (hreads : Blocks reads) :
    (lines (Asm.main data m reads)).map (List.drop 59) = reads.map (List.map printableByte) := by
  rw [Asm.lines_main data m hreads]
  refine List.ext_getElem (by simp) fun i _ hi => ?_
  rw [List.length_map] at hi
  obtain ⟨hpos, hle⟩ := hreads _ (List.getElem_mem hi)
  simp only [List.getElem_map, List.getElem_mapIdx]
  exact (drop_spacedLine_iff hpos hle).mpr rfl

/-- One reader for both dumps. Whatever blocks of 1 to 16 bytes the two programs read, the dump of
the assembly program is read back block by block and its characters are aligned in every line; the
two dumps are read back as the same file exactly if they were made of the same file; and equal
dumps were made of the same blocks. -/
theorem hexdumps_restore (f : C.Frame) (m : Memory) (data : ℕ) (m' : Memory)
    (reads reads' : List (List Byte)) (hreads : Blocks reads) (hreads' : Blocks reads') :
    decode (Asm.main data m' reads') = reads' ∧
      (lines (Asm.main data m' reads')).map (List.drop 59) = reads'.map (List.map printableByte) ∧
      ((decode (C.main f m reads)).flatten = (decode (Asm.main data m' reads')).flatten ↔
        reads.flatten = reads'.flatten) ∧
      (C.main f m reads = Asm.main data m' reads' → reads = reads') := by
  have hread := C.decode_main f m hreads
  have hread' := Asm.decode_main data m' hreads'
  refine ⟨hread', Asm.text_column data m' hreads', by rw [hread, hread'], fun h => ?_⟩
  rw [← hread, h, hread']

theorem hexdumps_restore_short_reads :
    (decode (C.main adjacentFrame (fun _ => 0) [[97, 98, 99]])).flatten =
        (decode (Asm.main 0 (fun _ => 0) [[97], [98, 99]])).flatten ↔
      [[97, 98, 99]].flatten = [[(97 : Byte)], [98, 99]].flatten :=
  (hexdumps_restore adjacentFrame (fun _ => 0) 0 (fun _ => 0) [[97, 98, 99]] [[97], [98, 99]]
    (by decide) (by decide)).2.2.1

end Reading

end CsfAssignments.Hexdump
