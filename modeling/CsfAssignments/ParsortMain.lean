import CsfAssignments.CNumerals
import CsfAssignments.ParsortFailures
import CsfAssignments.ParsortFiles
import CsfAssignments.UInt256Hex

/-!
# Sorting a file

`main` of `parsort.c` maps a file and calls `merge_sort` on its elements. What its exit code says
about the bytes of the file, and how it ends when nothing fails. Its messages stand without what
`perror` appends to them.
-/

namespace CsfAssignments.Parsort
open ByteMemory CIntegers CNumerals ListSegments
open Limbs (isSpace skipSign)

/-- `strtoul(nptr, &end, 10)`: the value, and what `end` points to. -/
def strtoul (nptr : List Char) : ℕ × List Char :=
  let (negative, s) := skipSign (nptr.dropWhile isSpace)
  match numeral 10 s with
  | none => (0, nptr)
  | some (n, rest) =>
      if n < 2 ^ 64 then (if negative then toUInt64 (-n) else n, rest) else (2 ^ 64 - 1, rest)

/-- The exit code of `main` and its message. -/
abbrev Exit := ℕ × String

def mainArguments : List String → Except Exit ℕ
  | [_, _, arg2] =>
      let (threshold, rest) := strtoul arg2.toList
      if rest ≠ [] then .error (2, "Error: Invalid threshold value")
      else if threshold < 1 then .error (2, "Error: Invalid threshold value")
      else .ok threshold
  | argv => .error (1, "Usage: " ++ argv.headD "" ++ " <filename> <sequential threshold>\n")

/-- The system calls of `main` itself, and whether they succeed. -/
structure Calls where
  opens : Bool
  stats : Bool
  maps : Bool
  unmaps : Bool
  closes : Bool

/-- The elements that `main` has mapped; a mapping of no bytes fails. -/
def mapFile (calls : Calls) (file : List Byte) : Except Exit (List Int64) :=
  if !calls.opens then .error (1, "Error: opening file")
  else if !calls.stats then .error (1, "Error: getting file size")
  else if !calls.maps || file = [] then .error (1, "Error: mapping file")
  else .ok (words file)

/-- `main` up to its call of `merge_sort`. -/
def mainStart (argv : List String) (calls : Calls) (file : List Byte) :
    Except Exit (ℕ × List Int64) := do
  let threshold ← mainArguments argv
  let mapped ← mapFile calls file
  return (threshold, mapped)

/-- `main` behind its call. -/
def mainEnd (calls : Calls) : Exit :=
  if !calls.unmaps then (3, "Error: unmapping file")
  else if !calls.closes then (3, "Error: closing file")
  else (0, "")

/-- How `main` has ended, if it has. It may end inside `merge_sort`. -/
def mainStatus (calls : Calls) : Process → Option Status
  | .node .returned _ _ _ _ => some (.exited (BitVec.ofNat 8 (mainEnd calls).1))
  | p => p.status?

/-- The file after a schedule of moves of the process tree, and how `main` has ended. -/
def main (qsort : (Int64 → Int64 → ℤ) → List Int64 → List Int64) (argv : List String)
    (calls : Calls) (schedule : List (Action × List Bool)) (file : List Byte) :
    Option (List Byte × Option Status) :=
  match mainStart argv calls file with
  | .error (code, _) =>
      if schedule = [] then some (file, some (.exited (BitVec.ofNat 8 code))) else none
  | .ok (threshold, mapped) => do
      let (arr, p) ← runFailing qsort threshold (mergeSort mapped 0 (file.length / 8)) schedule
      return (wordBytes arr ++ leftover file, mainStatus calls p)

section Start

/-- A start that is refused has an exit code of one or two; any other maps the elements. -/
theorem mainStart_cases (argv : List String) (calls : Calls) (file : List Byte) :
    (∃ code message, mainStart argv calls file = .error (code, message) ∧
      (code = 1 ∨ code = 2)) ∨
      ∃ threshold, 1 ≤ threshold ∧ mainStart argv calls file = .ok (threshold, words file) := by
  have hargs : (∃ code message, mainArguments argv = .error (code, message) ∧
      (code = 1 ∨ code = 2)) ∨ ∃ threshold, 1 ≤ threshold ∧ mainArguments argv = .ok threshold := by
    unfold mainArguments
    split
    · dsimp only
      split_ifs with hrest hsmall
      · exact .inl ⟨_, _, rfl, .inr rfl⟩
      · exact .inl ⟨_, _, rfl, .inr rfl⟩
      · exact .inr ⟨_, by omega, rfl⟩
    · exact .inl ⟨_, _, rfl, .inl rfl⟩
  have hmap : (∃ message, mapFile calls file = .error (1, message)) ∨
      mapFile calls file = .ok (words file) := by
    unfold mapFile
    split_ifs
    · exact .inl ⟨_, rfl⟩
    · exact .inl ⟨_, rfl⟩
    · exact .inl ⟨_, rfl⟩
    · exact .inr rfl
  rcases hargs with ⟨code, message, hargs, hcode⟩ | ⟨threshold, hthreshold, hargs⟩
  · exact .inl ⟨code, message, by rw [mainStart, hargs]; rfl, hcode⟩
  · rcases hmap with ⟨message, hmap⟩ | hmap
    · exact .inl ⟨1, message, by rw [mainStart, hargs, hmap]; rfl, .inl rfl⟩
    · exact .inr ⟨threshold, hthreshold, by rw [mainStart, hargs, hmap]; rfl⟩

/-- Every threshold from one up to `ULONG_MAX` can be given in decimal. -/
theorem mainArguments_decimal (program filename : String) {threshold : ℕ}
    (hlow : 1 ≤ threshold) (hhigh : threshold < 2 ^ 64) :
    mainArguments [program, filename, String.ofList (decimal threshold)] = .ok threshold := by
  have hdecimal : decimal (threshold : ℤ) = Nat.toDigits 10 threshold := if_neg (by omega)
  have hread : strtoul (Nat.toDigits 10 threshold) = (threshold, []) := by
    obtain ⟨c, s, hcons⟩ :=
      List.exists_cons_of_ne_nil (Nat.toDigits_ne_nil (n := threshold) (b := 10))
    have hmem : c ∈ HexNumerals.hexDigits := mem_hexDigits_of_mem_toDigits (by norm_num)
      (by norm_num) threshold c (hcons ▸ List.mem_cons_self)
    have hnumeral : numeral 10 (Nat.toDigits 10 threshold ++ []) = some (threshold, []) :=
      numeral_toDigits (by norm_num) (by norm_num) threshold (by simp)
    rw [List.append_nil, hcons] at hnumeral
    rw [strtoul, hcons, Limbs.skipSign_of_mem hmem]
    simp only [hnumeral, if_pos hhigh, Bool.false_eq_true, if_false]
  simp only [mainArguments, String.toList_ofList, hdecimal, hread, ne_eq, not_true_eq_false,
    if_false, if_neg (not_lt.mpr hlow)]

end Start

section Ends
variable {qsort : (Int64 → Int64 → ℤ) → List Int64 → List Int64} {threshold : ℕ}
  {arr arr' : List Int64} {p p' : Process}

/-- A process that may only be killed any more, and whose kids have exited. -/
def Quiet : Process → Prop
  | .node .returned _ _ left right => Finished left ∧ Finished right
  | p => Finished p

private theorem move_quiet {action : Action} {path : List Bool} (h : Quiet p)
    (hmove : move qsort threshold action false path arr p = some (arr', p')) :
    arr' = arr ∧ Quiet p' := by
  cases p with
  | absent => rw [move_finished (show Finished .absent from trivial)] at hmove; cases hmove
  | node point lo hi left right =>
    cases point with
    | returned =>
      cases path with
      | nil =>
        cases action with
        | run => cases hmove
        | syscallFails => cases hmove
        | kill torn =>
          cases hmove
          exact ⟨rfl, h⟩
      | cons side path =>
        cases side <;> simp [move, move_finished h.1, move_finished h.2] at hmove
    | ended status => rw [move_finished h] at hmove; cases hmove
    | _ => exact h.elim

/-- Nothing writes to the array any more. -/
private theorem runFailing_quiet {schedule : List (Action × List Bool)} (h : Quiet p)
    (hrun : runFailing qsort threshold (arr, p) schedule = some (arr', p')) : arr' = arr := by
  induction schedule generalizing arr p with
  | nil =>
    cases hrun
    rfl
  | cons next schedule ih =>
    obtain ⟨⟨arr₁, p₁⟩, hmove, hrest⟩ := Option.bind_eq_some_iff.mp hrun
    obtain ⟨rfl, hquiet⟩ := move_quiet h hmove
    exact ih hquiet hrest

theorem runFailing_append (s : State) (schedule more : List (Action × List Bool)) :
    runFailing qsort threshold s (schedule ++ more) =
      (runFailing qsort threshold s schedule).bind (runFailing qsort threshold · more) := by
  induction schedule generalizing s with
  | nil => rfl
  | cons next schedule ih =>
    rw [List.cons_append, runFailing, runFailing, Option.bind_assoc]
    exact congrArg _ (funext fun s => ih s)

theorem mainStatus_of_returned {calls : Calls} (h : Returned p) :
    mainStatus calls p = some (.exited (BitVec.ofNat 8 (mainEnd calls).1)) := by
  cases p with
  | absent => exact h.elim
  | node point lo hi left right =>
    cases point with
    | returned => rfl
    | _ => exact h.elim

theorem mainStatus_of_not_returned {calls : Calls} (h : ¬Returned p) :
    mainStatus calls p = p.status? := by
  cases p with
  | absent => rfl
  | node point lo hi left right =>
    cases point with
    | returned => exact absurd trivial h
    | _ => rfl

/-- What an exit code of zero says about the elements. -/
private theorem sound_of_exit {calls : Calls} {orig : List Int64} {lo hi : ℕ}
    (h : Sound threshold arr orig lo hi p) (hstatus : mainStatus calls p = some (.exited 0)) :
    Quiet p ∧ segment arr lo hi = sorted orig := by
  cases p with
  | absent => exact h.elim
  | node point lo' hi' left right =>
    cases point with
    | returned =>
      obtain ⟨-, -, hleft, hright, hsorted⟩ := h
      exact ⟨⟨hleft, hright⟩, hsorted⟩
    | ended status => exact h.of_status hstatus
    | _ => cases hstatus

/-- The elements `main` maps lie within `merge_sort`'s range. -/
private theorem fits_words {file : List Byte} (hsize : file.length < 2 ^ 34) :
    Fits (words file) 0 (file.length / 8) :=
  ⟨Nat.zero_le _, (length_words file).ge, by rw [length_words]; omega⟩

private theorem mergeSort_words (threshold : ℕ) (file : List Byte) : Shaped 0 (file.length / 8)
      (mergeSort (words file) 0 (file.length / 8)).2 ∧
    Inv threshold (words file) (words file) 0 (file.length / 8)
      (mergeSort (words file) 0 (file.length / 8)).2 := by
  refine ⟨⟨rfl, rfl, trivial, trivial⟩, rfl, rfl, rfl, rfl, ?_⟩
  rw [← length_words, segment_zero_length]

private theorem segment_words {file : List Byte} {arr : List Int64}
    (hlen : arr.length = (words file).length) : segment arr 0 (file.length / 8) = arr := by
  rw [← length_words, ← hlen, segment_zero_length]

variable {argv : List String} {calls : Calls} {file : List Byte}

private theorem main_eq_some_iff (hstart : mainStart argv calls file = .ok (threshold, words file))
    {schedule : List (Action × List Bool)} {result : List Byte × Option Status} :
    main qsort argv calls schedule file = some result ↔
      ∃ arr p, runFailing qsort threshold (mergeSort (words file) 0 (file.length / 8)) schedule =
        some (arr, p) ∧ (wordBytes arr ++ leftover file, mainStatus calls p) = result := by
  simp only [main, hstart, Option.bind_eq_bind, Option.bind_eq_some_iff, Option.pure_def,
    Option.some.injEq, Prod.exists]

variable (hqsort : SortsRange qsort) (hsize : file.length < 2 ^ 34)
include hqsort hsize

/-- The exit code of `parsort` can be relied on. Whatever its arguments are, whatever system calls
fail and whatever processes are killed at whatever points, the length of the file and the bytes
behind its last element stay; and when `main` has exited with zero, the elements of the file are
a sorted permutation of what they were, `is_sorted` agrees, and no other process changes the file
any more. -/
theorem parsort_exit_zero (schedule : List (Action × List Bool)) (file' : List Byte)
    (status : Option Status) (hrun : main qsort argv calls schedule file = some (file', status)) :
    file'.length = file.length ∧ leftover file' = leftover file ∧
      (status = some (.exited 0) →
        (words file').Pairwise (fun a b => a ≤ b) ∧ (words file').Perm (words file) ∧
          (isSorted file').report.1 = 0 ∧
          ∀ more next, main qsort argv calls (schedule ++ more) file = some next →
            next.1 = file') := by
  rcases mainStart_cases argv calls file with
    ⟨code, message, hstart, hcode⟩ | ⟨threshold, hthreshold, hstart⟩
  · simp only [main, hstart, Option.ite_none_right_eq_some, Option.some.injEq] at hrun
    obtain ⟨-, heq⟩ := hrun
    cases heq
    refine ⟨rfl, rfl, fun hzero => ?_⟩
    rcases hcode with rfl | rfl <;> exact absurd hzero (by decide)
  · have htail : (leftover file).length < 8 := by
      rw [length_leftover]
      exact Nat.mod_lt _ (by norm_num)
    obtain ⟨arr, p, hfail, heq⟩ := (main_eq_some_iff hstart).mp hrun
    cases heq
    obtain ⟨hshape, hinv⟩ := mergeSort_words threshold file
    obtain ⟨hsound, hlen⟩ := runFailing_sound hqsort hthreshold (fits_words hsize) hshape hinv
      hfail
    refine ⟨?_, leftover_wordBytes arr htail, fun hzero => ?_⟩
    · rw [List.length_append, length_wordBytes, hlen, length_words, length_leftover]
      exact Nat.div_add_mod _ _
    · obtain ⟨hquiet, hsorted⟩ := sound_of_exit hsound hzero
      rw [segment_words hlen] at hsorted
      have hascending := sorted_pairwise (words file)
      rw [words_wordBytes arr htail, hsorted]
      refine ⟨hascending, sorted_perm _, ?_, fun more next hnext => ?_⟩
      · rwa [report_eq_zero_iff, words_wordBytes _ htail]
      · obtain ⟨arr', p', hmore, rfl⟩ := (main_eq_some_iff hstart).mp hnext
        rw [runFailing_append, hfail] at hmore
        rw [← hsorted, runFailing_quiet hquiet hmore]

/-- The schedule in which nothing fails. -/
def smoothly (schedule : List (List Bool)) : List (Action × List Bool) :=
  schedule.map fun path => (.run, path)

omit hqsort hsize in
theorem runFailing_smoothly (s : State) (schedule : List (List Bool)) :
    runFailing qsort threshold s (smoothly schedule) = run qsort threshold s schedule := by
  induction schedule generalizing s with
  | nil => rfl
  | cons path schedule ih =>
    rw [smoothly, List.map_cons, runFailing, run]
    exact congrArg _ (funext fun s => ih s)

/-- Without failures `parsort` ends. Whatever the schedule of its processes is, the number of their
moves is bounded, some process can move until `main` has exited, and then the exit code is zero
and the file is the same one for all schedules: the sorted elements, and the bytes behind them. -/
theorem parsort_finishes (hargs : mainArguments argv = .ok threshold) (hfile : file ≠ []) :
    ∃ (result : List Byte) (bound : ℕ), (words result).Pairwise (fun a b => a ≤ b) ∧
      (words result).Perm (words file) ∧ leftover result = leftover file ∧
      ∀ schedule file' status,
        main qsort argv ⟨true, true, true, true, true⟩ (smoothly schedule) file =
            some (file', status) →
          schedule.length ≤ bound ∧
            (status = some (.exited 0) ∧ file' = result ∨
              status = none ∧ ∃ path, (main qsort argv ⟨true, true, true, true, true⟩
                (smoothly (schedule ++ [path])) file).isSome) := by
  have hstart : mainStart argv ⟨true, true, true, true, true⟩ file =
      .ok (threshold, words file) := by
    rw [mainStart, hargs, mapFile]
    simp [hfile]
    rfl
  have hthreshold : 1 ≤ threshold := by
    rcases mainStart_cases argv ⟨true, true, true, true, true⟩ file with
      ⟨code, message, h, -⟩ | ⟨threshold', hpos, h⟩
    · rw [hstart] at h
      cases h
    · rw [hstart] at h
      cases h
      exact hpos
  have htail : (leftover file).length < 8 := by
    rw [length_leftover]
    exact Nat.mod_lt _ (by norm_num)
  have hfits := fits_words hsize
  obtain ⟨-, hinv⟩ := mergeSort_words threshold file
  refine ⟨wordBytes (sorted (words file)) ++ leftover file,
    weight threshold (mergeSort (words file) 0 (file.length / 8)).2, ?_, ?_,
    leftover_wordBytes _ htail, fun schedule file' status hrun => ?_⟩
  · rw [words_wordBytes _ htail]
    exact sorted_pairwise _
  · rw [words_wordBytes _ htail]
    exact sorted_perm _
  · obtain ⟨arr, p, hmoves, heq⟩ := (main_eq_some_iff hstart).mp hrun
    cases heq
    rw [runFailing_smoothly] at hmoves
    obtain ⟨hroot, hinv', hlen, -, hweight⟩ :=
      run_advances hqsort hthreshold hfits hinv rfl hmoves
    refine ⟨by omega, ?_⟩
    by_cases hreturned : Returned p
    · have hsorted := segment_of_returned hinv' hreturned
      rw [segment_words hlen] at hsorted
      exact .inl ⟨mainStatus_of_returned hreturned, by rw [hsorted]⟩
    · refine .inr ⟨(mainStatus_of_not_returned hreturned).trans hroot, ?_⟩
      rcases exists_move qsort false (hfits.of_length hlen) hinv' with
        ⟨path, hpath⟩ | ⟨-, h⟩ | hstatus
      · obtain ⟨⟨arr', p'⟩, hmove⟩ := Option.isSome_iff_exists.mp hpath
        refine ⟨path, Option.isSome_iff_exists.mpr
          ⟨_, (main_eq_some_iff hstart).mpr ⟨arr', p', ?_, rfl⟩⟩⟩
        rw [smoothly, List.map_append, runFailing_append]
        rw [← runFailing_smoothly, smoothly] at hmoves
        rw [hmoves, List.map_singleton]
        simp [runFailing, hmove]
      · exact absurd h hreturned
      · rw [hroot] at hstatus
        cases hstatus

end Ends

/-- The moves that sort two elements, when the threshold is one. -/
def sortTwo : List (List Bool) :=
  [[], [], [true], [true], [false], [false], [], [], [], [], [], [], [], []]

theorem parsort_exit_zero_two :
    ∃ file', main sortBy ["parsort", "data", "1"] ⟨true, true, true, true, true⟩
        (smoothly sortTwo) (wordBytes [2, 1] ++ [7]) = some (file', some (.exited 0)) ∧
      file'.length = 17 ∧ leftover file' = [7] ∧
      (words file').Pairwise (fun a b => a ≤ b) ∧ (words file').Perm [2, 1] ∧
      (isSorted file').report.1 = 0 := by
  have hrun : main sortBy ["parsort", "data", "1"] ⟨true, true, true, true, true⟩
      (smoothly sortTwo) (wordBytes [2, 1] ++ [7]) =
        some (wordBytes [1, 2] ++ [7], some (.exited 0)) := by decide +kernel
  obtain ⟨hlen, hrest, hzero⟩ := parsort_exit_zero sortsRange_sortBy (by decide) _ _ _ hrun
  obtain ⟨hsorted, hperm, hreport, -⟩ := hzero rfl
  rw [words_wordBytes [2, 1] (by decide)] at hperm
  exact ⟨_, hrun, hlen, hrest, hsorted, hperm, hreport⟩

/-- Every schedule leads to this file, and some schedule gets there. -/
theorem parsort_finishes_two :
    ∃ bound, (∀ schedule file' status,
        main sortBy ["parsort", "data", "1"] ⟨true, true, true, true, true⟩ (smoothly schedule)
            (wordBytes [2, 1] ++ [7]) = some (file', status) →
          schedule.length ≤ bound ∧
            (status = some (.exited 0) ∧ file' = wordBytes [1, 2] ++ [7] ∨
              status = none ∧ ∃ path, (main sortBy ["parsort", "data", "1"]
                ⟨true, true, true, true, true⟩ (smoothly (schedule ++ [path]))
                (wordBytes [2, 1] ++ [7])).isSome)) ∧
      main sortBy ["parsort", "data", "1"] ⟨true, true, true, true, true⟩ (smoothly sortTwo)
        (wordBytes [2, 1] ++ [7]) = some (wordBytes [1, 2] ++ [7], some (.exited 0)) := by
  obtain ⟨result, bound, -, -, -, hruns⟩ := parsort_finishes sortsRange_sortBy (by decide)
    (mainArguments_decimal "parsort" "data" (le_refl 1) (by norm_num))
    (show wordBytes [2, 1] ++ [7] ≠ [] by decide)
  have hrun : main sortBy ["parsort", "data", "1"] ⟨true, true, true, true, true⟩
      (smoothly sortTwo) (wordBytes [2, 1] ++ [7]) =
        some (wordBytes [1, 2] ++ [7], some (.exited 0)) := by decide +kernel
  obtain ⟨-, ⟨-, rfl⟩ | ⟨hnone, -⟩⟩ := hruns sortTwo _ _ hrun
  · exact ⟨bound, hruns, hrun⟩
  · cases hnone

end CsfAssignments.Parsort
