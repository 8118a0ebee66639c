import CsfAssignments.ParsortMoves

/-!
# The parallel merge sort sorts

Every schedule of a call of `merge_sort` ends after a bounded number of moves with the range
sorted and everything else unchanged, so that the result does not depend on the schedule.
-/

namespace CsfAssignments.Parsort
open CIntegers ListSegments

/-- A call that has returned has sorted its range. -/
theorem segment_of_returned {arr orig : List Int64} {lo hi : ℕ} {p : Process}
    (h : Inv threshold arr orig lo hi p) (hreturned : Returned p) :
    segment arr lo hi = sorted orig := by
  cases p with
  | absent => exact hreturned.elim
  | node point lo' hi' left right =>
    cases point with
    | returned => exact h.2.2.2.2
    | _ => exact hreturned.elim

/-- The sorted range ends where the range does. -/
theorem Fits.add_length_sorted {arr : List Int64} {lo hi : ℕ} (hfits : Fits arr lo hi) :
    lo + (sorted (segment arr lo hi)).length = hi := by
  have hle := hfits.lo_le
  rw [length_sorted, length_segment hfits.hi_le]
  omega

theorem Fits.segment_overwrite_sorted {arr : List Int64} {lo hi : ℕ} (hfits : Fits arr lo hi) :
    segment (overwrite arr lo (sorted (segment arr lo hi))) lo hi = sorted (segment arr lo hi) := by
  have hend := hfits.add_length_sorted
  have hsegment := segment_overwrite (hend.trans_le hfits.hi_le)
  rwa [hend] at hsegment

/-- The array is determined by the sorted range and by what lies outside. -/
theorem eq_overwrite {arr arr' : List Int64} {lo hi : ℕ} (hfits : Fits arr lo hi)
    (hsorted : segment arr' lo hi = sorted (segment arr lo hi))
    (hout : ∀ i, i < lo ∨ hi ≤ i → arr'[i]? = arr[i]?) :
    arr' = overwrite arr lo (sorted (segment arr lo hi)) := by
  have hend := hfits.add_length_sorted
  refine List.ext_getElem? fun i => ?_
  by_cases hi' : i < lo ∨ hi ≤ i
  · rw [hout i hi', getElem?_overwrite_of_outside (hend.trans_le hfits.hi_le) (by rwa [hend])]
  · have hget := congrArg (fun l => l[i - lo]?)
      (hsorted.trans hfits.segment_overwrite_sorted.symm)
    simp only [getElem?_segment] at hget
    rwa [if_pos (by omega), if_pos (by omega), show lo + (i - lo) = i by omega] at hget

section Runs
variable {qsort : (Int64 → Int64 → ℤ) → List Int64 → List Int64} (hqsort : SortsRange qsort)
  {threshold : ℕ} (hthreshold : 1 ≤ threshold)
include hqsort hthreshold

/-- What a schedule of moves does. -/
theorem run_advances {schedule : List (List Bool)} {arr arr' orig : List Int64} {lo hi : ℕ}
    {p p' : Process} (hfits : Fits arr lo hi) (h : Inv threshold arr orig lo hi p)
    (hstatus : p.status? = none) (hrun : run qsort threshold (arr, p) schedule = some (arr', p')) :
    p'.status? = none ∧ Inv threshold arr' orig lo hi p' ∧ arr'.length = arr.length ∧
      (∀ i, i < lo ∨ hi ≤ i → arr'[i]? = arr[i]?) ∧
      schedule.length + weight threshold p' ≤ weight threshold p := by
  induction schedule generalizing arr p with
  | nil =>
    cases hrun
    exact ⟨hstatus, h, rfl, fun _ _ => rfl, by simp⟩
  | cons path schedule ih =>
    obtain ⟨⟨arr1, p1⟩, hmove, hrest⟩ := Option.bind_eq_some_iff.mp hrun
    obtain ⟨hinv, hlen, hout, hlt, hroot⟩ := move_advances hqsort hthreshold path hfits h hmove
    obtain ⟨hstatus', hinv', hlen', hout', hweight⟩ :=
      ih (hfits.of_length hlen) hinv (hroot rfl hstatus) hrest
    refine ⟨hstatus', hinv', hlen'.trans hlen, fun i hi => (hout' i hi).trans (hout i hi), ?_⟩
    rw [List.length_cons]
    omega

/-- A call of `merge_sort` ends after a bounded number of moves of its process tree, whatever
the schedule, with one result: the range is a sorted permutation of what it was and nothing
else has changed. -/
theorem mergeSort_sorts (arr : List Int64) (lo hi : ℕ) (hfits : Fits arr lo hi) :
    ∃ (result : List Int64) (bound : ℕ), result.length = arr.length ∧
      (∀ i, i < lo ∨ hi ≤ i → result[i]? = arr[i]?) ∧
      (segment result lo hi).Pairwise (fun a b => a ≤ b) ∧
      (segment result lo hi).Perm (segment arr lo hi) ∧
      ∀ (schedule : List (List Bool)) (s : State),
        run qsort threshold (mergeSort arr lo hi) schedule = some s →
          schedule.length ≤ bound ∧
          (Returned s.2 → s.1 = result) ∧
          (¬Returned s.2 → ∃ path, (run qsort threshold s [path]).isSome) := by
  have hend := hfits.add_length_sorted
  have hbound := hend.trans_le hfits.hi_le
  have hstart : Inv threshold arr (segment arr lo hi) lo hi (.node .entry lo hi .absent .absent) :=
    ⟨rfl, rfl, rfl, rfl, rfl⟩
  refine ⟨overwrite arr lo (sorted (segment arr lo hi)),
    weight threshold (.node .entry lo hi .absent .absent), length_overwrite hbound,
    fun i hi' => getElem?_overwrite_of_outside hbound (by rwa [hend]), ?_, ?_, ?_⟩
  · rw [hfits.segment_overwrite_sorted]
    exact sorted_pairwise _
  · rw [hfits.segment_overwrite_sorted]
    exact sorted_perm _
  · rintro schedule ⟨arr', p'⟩ hrun
    obtain ⟨hroot, hinv, hlen', hout, hweight⟩ :=
      run_advances hqsort hthreshold hfits hstart rfl hrun
    refine ⟨by omega, fun hreturned => ?_, fun hreturned => ?_⟩
    · exact eq_overwrite hfits (segment_of_returned hinv hreturned) hout
    · rcases exists_move qsort false (hfits.of_length hlen') hinv with
        ⟨path, hpath⟩ | ⟨-, h⟩ | hstatus
      · refine ⟨path, ?_⟩
        obtain ⟨s, hs⟩ := Option.isSome_iff_exists.mp hpath
        simp [run, hs]
      · exact absurd h hreturned
      · exact absurd hstatus (by simp [hroot])

end Runs

/-- A sorting function for any comparison. -/
def sortBy (compare : Int64 → Int64 → ℤ) (l : List Int64) : List Int64 :=
  l.mergeSort (fun a b => compare a b ≤ 0)

theorem sortsRange_sortBy : SortsRange sortBy := by
  intro l
  have heq : sortBy compareI64 l = sorted l := by
    simp only [sortBy, sorted, compareI64_le_zero]
  rw [heq]
  exact ⟨sorted_perm l, (sorted_pairwise l).imp compareI64_le_zero.mpr⟩

theorem mergeSort_sorts_three :
    ∃ bound, ∀ (schedule : List (List Bool)) (s : State),
      run sortBy 1 (mergeSort [3, 1, 2] 0 3) schedule = some s →
        schedule.length ≤ bound ∧ (Returned s.2 → s.1 = [1, 2, 3]) ∧
        (¬Returned s.2 → ∃ path, (run sortBy 1 s [path]).isSome) := by
  obtain ⟨result, bound, hlen, -, hsorted, hperm, hruns⟩ := mergeSort_sorts sortsRange_sortBy
    (le_refl 1) [3, 1, 2] 0 3 ⟨by decide, by decide, by decide⟩
  have hall : segment result 0 3 = result := by
    rw [show 3 = result.length from hlen.symm, segment_zero_length]
  rw [hall] at hsorted hperm
  have hresult : result = [1, 2, 3] :=
    (eq_sorted hperm hsorted).trans (eq_sorted (by decide) (by decide)).symm
  exact ⟨bound, hresult ▸ hruns⟩

end CsfAssignments.Parsort
