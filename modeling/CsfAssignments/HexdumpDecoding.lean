import CsfAssignments.HexdumpAgreement

/-!
# Reading a hexdump back

Whatever its padding, a line begins with eight digits and a colon, and its groups of two digits
end at the first space that separates no groups. So the blocks can be read from the output, and
two inputs that were read in different blocks have different dumps.
-/

namespace CsfAssignments.Hexdump
open CIntegers ByteMemory

/-- The lines of a text, without their newlines. -/
def lines : List Byte → List (List Byte)
  | [] => []
  | b :: rest =>
      if b = charByte '\n' then [] :: lines rest
      else
        match lines rest with
        | [] => [[b]]
        | l :: ls => (b :: l) :: ls

/-- The value of a digit. -/
def digitValue (b : Byte) : ℕ := if b.toNat < 58 then b.toNat - 48 else b.toNat - 87

/-- The bytes of the groups of two digits and a separator, up to a space in the place of a
digit. -/
def readGroups : List Byte → List Byte
  | high :: low :: _ :: rest =>
      if high = charByte ' ' then []
      else BitVec.ofNat 8 (16 * digitValue high + digitValue low) :: readGroups rest
  | _ => []

/-- The groups of every line from column 10 on. -/
def decode (out : List Byte) : List (List Byte) := (lines out).map (fun l => readGroups (l.drop 10))

/-- A line with some number of spaces between the digits and the characters, without its
newline. -/
def spacedLine (before spaces : ℕ) (block : List Byte) : List Byte :=
  hexOffset (before % 2 ^ 32) ++ text ": " ++ block.flatMap (fun b => hexByte b ++ text " ") ++
    List.replicate spaces (charByte ' ') ++ block.map printableByte

private theorem lines_append {body : List Byte} (hbody : charByte '\n' ∉ body) (rest : List Byte) :
    lines (body ++ text "\n" ++ rest) = body :: lines rest := by
  induction body with
  | nil => exact if_pos rfl
  | cons b body ih =>
    rw [List.mem_cons, not_or] at hbody
    rw [List.cons_append, List.cons_append, lines, if_neg (Ne.symm hbody.1), ih hbody.2]

theorem lines_flatten {bodies : List (List Byte)} (hbodies : ∀ l ∈ bodies, charByte '\n' ∉ l) :
    lines (bodies.map (fun l => l ++ text "\n")).flatten = bodies := by
  induction bodies with
  | nil => rfl
  | cons body bodies ih =>
    obtain ⟨hbody, hrest⟩ := List.forall_mem_cons.mp hbodies
    rw [List.map_cons, List.flatten_cons, lines_append hbody, ih hrest]

private theorem digitValue_hexDigit : ∀ n < 16,
    digitValue (hexDigit n) = n ∧ hexDigit n ≠ charByte ' ' := by decide

/-- A group is read as the byte that it was made of. -/
private theorem readGroups_hexByte (b : Byte) (rest : List Byte) :
    readGroups (hexByte b ++ text " " ++ rest) = b :: readGroups rest := by
  have hb := b.isLt
  obtain ⟨hhigh, hne⟩ := digitValue_hexDigit (b.toNat / 16) (by omega)
  obtain ⟨hlow, -⟩ := digitValue_hexDigit (b.toNat % 16) (by omega)
  have hvalue : BitVec.ofNat 8 (16 * (b.toNat / 16) + b.toNat % 16) = b := by
    rw [Nat.div_add_mod, BitVec.ofNat_toNat, BitVec.setWidth_eq]
  have hgroup : hexByte b ++ text " " ++ rest =
      hexDigit (b.toNat / 16) :: hexDigit (b.toNat % 16) :: charByte ' ' :: rest := rfl
  rw [hgroup, readGroups, if_neg hne, hhigh, hlow, hvalue]

/-- The groups end at a space. -/
private theorem readGroups_space (rest : List Byte) : readGroups (charByte ' ' :: rest) = [] := by
  match rest with
  | [] => rfl
  | [_] => rfl
  | _ :: _ :: _ => exact if_pos rfl

theorem readGroups_flatMap (block rest : List Byte) :
    readGroups (block.flatMap (fun b => hexByte b ++ text " ") ++ charByte ' ' :: rest) =
      block := by
  induction block with
  | nil => exact readGroups_space rest
  | cons b block ih => rw [List.flatMap_cons, List.append_assoc, readGroups_hexByte, ih]

theorem readGroups_spacedLine (before : ℕ) {spaces : ℕ} (hspaces : 1 ≤ spaces)
    (block : List Byte) : readGroups ((spacedLine before spaces block).drop 10) = block := by
  obtain ⟨n, rfl⟩ := Nat.exists_eq_add_of_le' hspaces
  have hlen : (hexOffset (before % 2 ^ 32) ++ text ": ").length = 10 := by
    rw [List.length_append, hexOffset, List.length_map, List.length_range]
    decide
  rw [spacedLine, List.append_assoc, List.append_assoc, List.drop_left' hlen, List.replicate_succ]
  exact readGroups_flatMap block _

theorem row_eq_spacedLine (total pad : ℕ) (block : List Byte) :
    row total pad block = spacedLine total (3 * pad + 1) block ++ text "\n" := by
  have htriple : text "   " = List.replicate 3 (charByte ' ') := by decide
  have hspace : text " " = List.replicate 1 (charByte ' ') := by decide
  have hoffset : hexOffset (total % 2 ^ 32) = hexOffset total :=
    hexOffset_congr (Nat.mod_mod _ _)
  rw [row, spacedLine, hoffset, htriple, List.flatten_replicate_replicate, Nat.mul_comm 3,
    List.replicate_add, ← hspace]
  simp only [List.append_assoc]

theorem newline_notMem_spacedLine (total pad : ℕ) (block : List Byte) :
    charByte '\n' ∉ spacedLine total (3 * pad + 1) block := by
  obtain ⟨body, hrow, hbody⟩ := isLine_row total pad block
  rw [row_eq_spacedLine] at hrow
  rwa [List.append_cancel_right hrow]

/-- The number of groups of padding that the C program writes in a line. -/
def C.linePad (reads : List (List Byte)) (i : ℕ) : ℕ :=
  C.supplement (toInt (reads.take (i + 1)).flatten.length)

/-- The output of the C program, line by line. -/
theorem C.main_eq_spacedLines (f : C.Frame) (m : Memory) {reads : List (List Byte)}
    (hreads : Blocks reads) :
    C.main f m reads = ((reads.mapIdx (fun i block =>
      spacedLine (reads.take i).flatten.length (3 * C.linePad reads i + 1) block)).map
        (fun l => l ++ text "\n")).flatten := by
  rw [C.main_eq f m hreads, rows_eq_mapIdx]
  congr 1
  refine List.ext_getElem (by simp) fun i hi _ => ?_
  rw [List.length_mapIdx] at hi
  simp only [List.getElem_mapIdx, List.getElem_map, row_eq_spacedLine, Nat.zero_add, C.linePad,
    List.take_succ_eq_append_getElem hi, List.flatten_append, List.flatten_singleton,
    List.length_append]

/-- The lines of the output, each behind the number of bytes before its block. -/
theorem C.lines_main (f : C.Frame) (m : Memory) {reads : List (List Byte)}
    (hreads : Blocks reads) :
    lines (C.main f m reads) = reads.mapIdx (fun i block =>
      spacedLine (reads.take i).flatten.length (3 * C.linePad reads i + 1) block) ∧
    C.main f m reads = ((lines (C.main f m reads)).map (fun l => l ++ text "\n")).flatten := by
  have hmain := C.main_eq_spacedLines f m hreads
  have hbodies : lines (C.main f m reads) = reads.mapIdx (fun i block =>
      spacedLine (reads.take i).flatten.length (3 * C.linePad reads i + 1) block) := by
    rw [hmain]
    refine lines_flatten fun l hl => ?_
    obtain ⟨i, hi, rfl⟩ := List.mem_mapIdx.mp hl
    exact newline_notMem_spacedLine _ _ _
  refine ⟨hbodies, ?_⟩
  rw [hbodies]
  exact hmain

theorem C.decode_main (f : C.Frame) (m : Memory) {reads : List (List Byte)}
    (hreads : Blocks reads) : decode (C.main f m reads) = reads := by
  obtain ⟨hbodies, -⟩ := C.lines_main f m hreads
  rw [decode, hbodies]
  refine List.ext_getElem (by simp) fun i hi _ => ?_
  simp only [List.getElem_map, List.getElem_mapIdx]
  exact readGroups_spacedLine _ (Nat.le_add_left 1 _) _

/-- The C program is lossless: it writes one line for each block, and the digits of the lines
are the blocks, so the output determines how the input was read. -/
theorem c_hexdump_lossless (f : C.Frame) (m : Memory) (reads : List (List Byte))
    (hreads : Blocks reads) :
    (∃ spaces : ℕ → ℕ, (∀ i, 1 ≤ spaces i) ∧
      lines (C.main f m reads) = reads.mapIdx (fun i block =>
        spacedLine (reads.take i).flatten.length (spaces i) block) ∧
      C.main f m reads = ((lines (C.main f m reads)).map (fun l => l ++ text "\n")).flatten) ∧
    decode (C.main f m reads) = reads ∧
    ∀ (f' : C.Frame) (m' : Memory) (reads' : List (List Byte)), Blocks reads' →
      C.main f' m' reads' = C.main f m reads → reads' = reads := by
  refine ⟨?_, C.decode_main f m hreads, fun f' m' reads' hreads' h => ?_⟩
  · obtain ⟨hbodies, hmain⟩ := C.lines_main f m hreads
    exact ⟨fun i => 3 * C.linePad reads i + 1, fun i => Nat.le_add_left 1 _, hbodies, hmain⟩
  · rw [← C.decode_main f' m' hreads', h, C.decode_main f m hreads]

theorem c_hexdump_lossless_two_reads :
    decode (C.main adjacentFrame (fun _ => 0) [[97], [0, 10, 255]]) = [[97], [0, 10, 255]] :=
  (c_hexdump_lossless adjacentFrame (fun _ => 0) [[97], [0, 10, 255]] (by decide)).2.1

end CsfAssignments.Hexdump
