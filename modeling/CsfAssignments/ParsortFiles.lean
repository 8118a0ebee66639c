import CsfAssignments.ByteMemory
import CsfAssignments.ParsortInvariant
import Mathlib.Data.List.Chain

/-!
# Files of elements

A file is a list of bytes, and its elements are the little-endian words of eight bytes each; a
few bytes behind the last element may be left over. `is_sorted.c` reads the elements one after
the other and compares each with the one before.
-/

namespace CsfAssignments.Parsort
open ByteMemory Memory

/-- The element stored in eight bytes. -/
def word (bytes : List Byte) : Int64 := Int64.ofBitVec (BitVec.ofNat 64 (fromLittleEndian bytes))

/-- The elements of a file, as its mapping shows them. -/
def words (file : List Byte) : List Int64 :=
  (List.range (file.length / 8)).map fun i => word ((file.drop (8 * i)).take 8)

/-- The bytes behind the last element. -/
def leftover (file : List Byte) : List Byte := file.drop (8 * (file.length / 8))

/-- The bytes of an array. -/
def wordBytes (arr : List Int64) : List Byte :=
  arr.flatMap fun x => littleEndian x.toBitVec.toNat 8

/-- `fread` of one element; a few bytes before the end are no element. -/
def fread (file : List Byte) : Option (Int64 × List Byte) :=
  if 8 ≤ file.length then some (word (file.take 8), file.drop 8) else none

theorem fread_length {file rest : List Byte} {x : Int64} (h : fread file = some (x, rest)) :
    rest.length < file.length := by
  rw [fread] at h
  split_ifs at h with hlen
  cases h
  rw [List.length_drop]
  omega

/-- What `is_sorted` finds out about a file that it can open. -/
inductive Verdict
  | noData
  | notSorted (numElts : ℕ)
  | sorted
  deriving DecidableEq, Repr

/-- The exit code, and the line that is written. -/
def Verdict.report : Verdict → ℕ × String
  | .noData => (0, "Could not read first data value (file is empty?)\n")
  | .notSorted numElts => (1, "Data values are not sorted! (element " ++ toString numElts ++
      " is less than element " ++ toString (numElts - 1) ++ ")\n")
  | .sorted => (0, "Data values are sorted!\n")

/-- The loop over the remaining elements. -/
def checkLoop (prev : Int64) (numElts : ℕ) (file : List Byte) : Verdict :=
  match h : fread file with
  | none => .sorted
  | some (curr, rest) =>
      if curr < prev then .notSorted (numElts + 1) else checkLoop curr (numElts + 1) rest
termination_by file.length
decreasing_by exact fread_length h

def isSorted (file : List Byte) : Verdict :=
  match fread file with
  | none => .noData
  | some (prev, rest) => checkLoop prev 1 rest

section Words
variable {file rest : List Byte} {x : Int64}

theorem length_words (file : List Byte) : (words file).length = file.length / 8 := by
  rw [words, List.length_map, List.length_range]

theorem words_of_fread (h : fread file = some (x, rest)) : words file = x :: words rest := by
  rw [fread] at h
  split_ifs at h with hlen
  cases h
  have hsize : file.length / 8 = (file.drop 8).length / 8 + 1 := by
    rw [List.length_drop]
    omega
  rw [words, hsize, List.range_succ_eq_map, List.map_cons, List.map_map, words]
  refine congrArg₂ _ rfl (List.map_congr_left fun i _ => ?_)
  simp only [Function.comp_apply, List.drop_drop, Nat.mul_succ, Nat.add_comm]

theorem words_of_fread_none (h : fread file = none) : words file = [] := by
  rw [fread] at h
  split_ifs at h with hlen
  rw [words, Nat.div_eq_of_lt (not_le.mp hlen)]
  rfl

theorem word_littleEndian (x : Int64) : word (littleEndian x.toBitVec.toNat 8) = x := by
  have hlt : x.toBitVec.toNat % 256 ^ 8 = x.toBitVec.toNat :=
    Nat.mod_eq_of_lt (x.toBitVec.isLt.trans_le (by norm_num))
  rw [word, fromLittleEndian_littleEndian, hlt, BitVec.ofNat_toNat, BitVec.setWidth_eq]
  exact Int64.ofBitVec_toBitVec x

theorem length_wordBytes (arr : List Int64) : (wordBytes arr).length = 8 * arr.length := by
  induction arr with
  | nil => rfl
  | cons x arr ih =>
    rw [wordBytes, List.flatMap_cons, List.length_append, length_littleEndian, List.length_cons]
    rw [wordBytes] at ih
    omega

/-- The elements of an array are read back from its bytes. -/
theorem words_wordBytes (arr : List Int64) {tail : List Byte} (htail : tail.length < 8) :
    words (wordBytes arr ++ tail) = arr := by
  induction arr with
  | nil => exact words_of_fread_none (if_neg (not_le.mpr htail))
  | cons x arr ih =>
    have hread : fread (wordBytes (x :: arr) ++ tail) = some (x, wordBytes arr ++ tail) := by
      have hlen := length_littleEndian x.toBitVec.toNat 8
      rw [wordBytes, List.flatMap_cons, List.append_assoc, fread,
        if_pos (by rw [List.length_append, hlen]; omega), List.take_left' hlen,
        List.drop_left' hlen, word_littleEndian, wordBytes]
    rw [words_of_fread hread, ih]

theorem leftover_wordBytes (arr : List Int64) {tail : List Byte} (htail : tail.length < 8) :
    leftover (wordBytes arr ++ tail) = tail := by
  have hlen := length_wordBytes arr
  have hsize : 8 * ((wordBytes arr ++ tail).length / 8) = (wordBytes arr).length := by
    rw [List.length_append]
    omega
  rw [leftover, hsize, List.drop_left]

theorem length_leftover (file : List Byte) : (leftover file).length = file.length % 8 := by
  rw [leftover, List.length_drop]
  omega

end Words

section Verdicts

/-- Where the elements stop being ascending: `n` is the number of the element that is less than
the one before it, counted from `first`. -/
def FirstDescent (elements : List Int64) (first n : ℕ) : Prop :=
  ∃ before prev curr after, elements = before ++ prev :: curr :: after ∧
    (before ++ [prev]).IsChain (· ≤ ·) ∧ curr < prev ∧ n = first + before.length + 1

private theorem firstDescent_cons {x y : Int64} {rest : List Int64} {first n : ℕ} (hle : x ≤ y) :
    FirstDescent (x :: y :: rest) first n ↔ FirstDescent (y :: rest) (first + 1) n := by
  constructor
  · rintro ⟨before, prev, curr, after, heq, hchain, hlt, rfl⟩
    cases before with
    | nil =>
      cases heq
      exact absurd hlt (not_lt.mpr hle)
    | cons z before =>
      obtain ⟨rfl, htail⟩ := List.cons.inj heq
      exact ⟨before, prev, curr, after, htail, hchain.tail, hlt, by simp only [List.length_cons]; omega⟩
  · rintro ⟨before, prev, curr, after, heq, hchain, hlt, rfl⟩
    refine ⟨x :: before, prev, curr, after, by rw [heq]; rfl, ?_, hlt, by
      simp only [List.length_cons]; omega⟩
    refine List.isChain_cons.mpr ⟨fun z hz => ?_, hchain⟩
    cases before with
    | nil =>
      cases heq
      exact Option.some.inj hz ▸ hle
    | cons w before =>
      obtain ⟨rfl, -⟩ := List.cons.inj heq
      exact Option.some.inj hz ▸ hle

private theorem checkLoop_spec (file : List Byte) (prev : Int64) (numElts : ℕ) :
    (checkLoop prev numElts file = .sorted ↔ (prev :: words file).IsChain (· ≤ ·)) ∧
      (∀ n, checkLoop prev numElts file = .notSorted n ↔
        FirstDescent (prev :: words file) numElts n) ∧
      checkLoop prev numElts file ≠ .noData := by
  fun_induction checkLoop prev numElts file with
  | case1 prev numElts file hread =>
    rw [words_of_fread_none hread]
    refine ⟨by simp, fun n => ⟨nofun, ?_⟩, nofun⟩
    rintro ⟨before, x, y, after, heq, -⟩
    have hlen := congrArg List.length heq
    simp only [List.length_cons, List.length_nil, List.length_append] at hlen
    omega
  | case2 prev numElts file curr rest hread hlt =>
    rw [words_of_fread hread]
    refine ⟨⟨nofun, fun h => ?_⟩, fun n => ⟨fun h => ?_, ?_⟩, nofun⟩
    · exact absurd hlt (not_lt.mpr (List.isChain_cons_cons.mp h).1)
    · cases h
      exact ⟨[], prev, curr, words rest, rfl, by simp, hlt, rfl⟩
    · rintro ⟨before, x, y, after, heq, hchain, -, rfl⟩
      cases before with
      | nil => rfl
      | cons z before =>
        obtain ⟨rfl, htail⟩ := List.cons.inj heq
        have hhead : curr ∈ (before ++ [x]).head? := by
          cases before with
          | nil => exact congrArg some (List.cons.inj htail).1.symm
          | cons w before => exact congrArg some (List.cons.inj htail).1.symm
        exact absurd hlt (not_lt.mpr ((List.isChain_cons.mp hchain).1 curr hhead))
  | case3 prev numElts file curr rest hread hlt ih =>
    have hle := not_lt.mp hlt
    rw [words_of_fread hread]
    refine ⟨?_, fun n => ?_, ih.2.2⟩
    · rw [ih.1, List.isChain_cons_cons]
      exact (and_iff_right hle).symm
    · rw [ih.2.1 n]
      exact (firstDescent_cons hle).symm

/-- The verdicts are told apart by the elements. -/
theorem isSorted_spec (file : List Byte) :
    (isSorted file = .noData ↔ words file = []) ∧
      (isSorted file = .sorted ↔
        words file ≠ [] ∧ (words file).Pairwise (fun a b => a ≤ b)) ∧
      ∀ n, isSorted file = .notSorted n ↔ FirstDescent (words file) 1 n := by
  rw [isSorted]
  cases hread : fread file with
  | none =>
    rw [words_of_fread_none hread]
    refine ⟨by simp, by simp, fun n => ⟨nofun, ?_⟩⟩
    rintro ⟨before, x, y, after, heq, -⟩
    simp at heq
  | some next =>
    obtain ⟨prev, rest⟩ := next
    obtain ⟨hsorted, hnot, hdata⟩ := checkLoop_spec rest prev 1
    rw [words_of_fread hread]
    rw [List.isChain_iff_pairwise] at hsorted
    exact ⟨⟨fun h => absurd h hdata, nofun⟩, hsorted.trans (and_iff_right nofun).symm, hnot⟩

/-- The exit code is zero for no elements and for ascending ones. -/
theorem report_eq_zero_iff (file : List Byte) :
    (isSorted file).report.1 = 0 ↔ (words file).Pairwise (fun a b => a ≤ b) := by
  obtain ⟨hdata, hsorted, -⟩ := isSorted_spec file
  have hcode : (isSorted file).report.1 = 0 ↔ isSorted file = .noData ∨ isSorted file = .sorted := by
    cases isSorted file <;> simp [Verdict.report]
  rw [hcode, hdata, hsorted]
  by_cases hnil : words file = []
  · simp [hnil]
  · simp [hnil]

/-- `is_sorted` is exact. It says that there is no data, that the elements are sorted, or which
element is the first that is less than the one before it, and each of them exactly when that is
so, whatever bytes are left over; its exit code is zero when the elements are ascending. -/
theorem isSorted_exact (file : List Byte) :
    (isSorted file = .noData ↔ words file = []) ∧
      (isSorted file = .sorted ↔
        words file ≠ [] ∧ (words file).Pairwise (fun a b => a ≤ b)) ∧
      (∀ n, isSorted file = .notSorted n ↔ FirstDescent (words file) 1 n) ∧
      ((isSorted file).report.1 = 0 ↔ (words file).Pairwise (fun a b => a ≤ b)) := by
  obtain ⟨hdata, hsorted, hnot⟩ := isSorted_spec file
  exact ⟨hdata, hsorted, hnot, report_eq_zero_iff file⟩

end Verdicts
end CsfAssignments.Parsort
