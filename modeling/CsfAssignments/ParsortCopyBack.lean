import CsfAssignments.ParsortCorrectness

/-!
# The counter of the copy-back loop

`merge_sort` copies the merged values back in a loop whose counter is an `int`, while the size
of the range is a `size_t`. The process tree has counters without bounds; here the loop has the
counter of the source. It does what the tree does for ranges of less than 2 ^ 31 elements, and
overflows for all others.
-/

namespace CsfAssignments.Parsort
open CIntegers ListSegments

/-- The copy-back loop from a counter on, which is an `int` and compared as a `size_t`. After the
largest `int` the increment is undefined, unless it wraps around. -/
def copyBack (wraps : Bool) (lo n : ℕ) (temp arr : List Int64) (i : ℤ) : Option (List Int64) :=
  if toUInt64 i < n then
    if 0 ≤ i then
      (temp[i.toNat]?).bind fun x =>
        let arr' := arr.set (toUInt64 (lo + i)) x
        if toUInt64 (lo + i) < arr.length then
          if i + 1 < 2 ^ 31 then copyBack wraps lo n temp arr' (i + 1)
          else if wraps then copyBack wraps lo n temp arr' (-2 ^ 31)
          else none
        else none
    else none
  else some arr
termination_by if 0 ≤ i then (2 ^ 31 - i).toNat + 1 else 0
decreasing_by
  · rw [if_pos (by omega), if_pos (by omega)]
    omega
  · rw [if_neg (by decide), if_pos (by omega)]
    omega

/-- Storing the first of the values that are left. -/
private theorem overwrite_next {arr temp : List Int64} {lo i k : ℕ} (hlo : lo + i < arr.length)
    (hi : i < k) {x : Int64} (hx : temp[i]? = some x) :
    overwrite (arr.set (lo + i) x) (lo + (i + 1)) (segment temp (i + 1) k) =
      overwrite arr (lo + i) (segment temp i k) := by
  rw [← Nat.add_assoc, overwrite_set hlo, segment_cons hi hx]

section Loop
variable {wraps : Bool} {lo n : ℕ} {temp arr : List Int64}

/-- The smallest `int` is a large `size_t`. -/
private theorem copyBack_wrapped (hn : n < 2 ^ 61) :
    copyBack wraps lo n temp arr (-2 ^ 31) = some arr := by
  have hlarge : ¬toUInt64 (-2 ^ 31) < n := by
    rw [toUInt64]
    omega
  rw [copyBack, if_neg hlarge]

/-- A round of the loop. -/
theorem copyBack_round (hbound : lo + n ≤ arr.length) (hsize : arr.length < 2 ^ 61)
    (htemp : temp.length = n) {i : ℕ} (hi : i < n) (hint : i < 2 ^ 31) :
    copyBack wraps lo n temp arr i =
      if i + 1 < 2 ^ 31 then copyBack wraps lo n temp (arr.set (lo + i) temp[i]) (i + 1 : ℕ)
      else if wraps then some (arr.set (lo + i) temp[i]) else none := by
  have hcounter : toUInt64 (i : ℤ) = i := toUInt64_natCast (by omega)
  have hindex : toUInt64 ((lo : ℤ) + i) = lo + i := by
    rw [← Nat.cast_add]
    exact toUInt64_natCast (by omega)
  have hget : temp[(i : ℤ).toNat]? = some temp[i] := by
    rw [Int.toNat_natCast]
    exact List.getElem?_eq_getElem (by omega)
  conv_lhs => rw [copyBack]
  rw [if_pos (hcounter.trans_lt hi), if_pos (Int.natCast_nonneg i), hget, Option.bind_some, hindex]
  rw [if_pos (by omega), copyBack_wrapped (by omega)]
  by_cases hnext : i + 1 < 2 ^ 31
  · rw [if_pos hnext, if_pos (by omega)]
    rfl
  · rw [if_neg hnext, if_neg (by omega)]

/-- What is left to do from a counter on. -/
private theorem copyBack_from (wraps : Bool) (hbound : lo + n ≤ arr.length) (hsize : arr.length < 2 ^ 61)
    (htemp : temp.length = n) {i : ℕ} (hi : i ≤ n) (hint : i < 2 ^ 31) :
    copyBack wraps lo n temp arr i =
      if n < 2 ^ 31 then some (overwrite arr (lo + i) (segment temp i n))
      else if wraps then some (overwrite arr (lo + i) (segment temp i (2 ^ 31))) else none := by
  induction hk : 2 ^ 31 - i generalizing i arr with
  | zero => omega
  | succ k ih =>
    rcases hi.lt_or_eq with hlt | rfl
    · have hget : temp[i]? = some temp[i] := List.getElem?_eq_getElem (by omega)
      rw [copyBack_round hbound hsize htemp hlt hint]
      by_cases hnext : i + 1 < 2 ^ 31
      · rw [if_pos hnext, ih (by rwa [List.length_set]) (by rwa [List.length_set]) hlt hnext
          (by omega), overwrite_next (by omega) hlt hget, overwrite_next (by omega) hint hget]
      · have hlast : i + 1 = 2 ^ 31 := by omega
        rw [if_neg hnext, if_neg (show ¬n < 2 ^ 31 by omega), ← overwrite_next (by omega) hint hget, hlast,
          segment_self, overwrite_nil]
    · have hcounter : toUInt64 (i : ℤ) = i := toUInt64_natCast (by omega)
      rw [copyBack, if_neg (by rw [hcounter]; exact lt_irrefl i), if_pos hint, segment_self,
        overwrite_nil]

/-- The whole loop. -/
theorem copyBack_eq (wraps : Bool) {hi : ℕ} (hfits : Fits arr lo hi) (htemp : temp.length = hi - lo) :
    copyBack wraps lo (probSize lo hi) temp arr 0 =
      if hi - lo < 2 ^ 31 then some (overwrite arr lo temp)
      else if wraps then some (overwrite arr lo (temp.take (2 ^ 31))) else none := by
  have hle := hfits.lo_le
  have hhi := hfits.hi_le
  have hsize := hfits.addressable
  have hfrom := copyBack_from wraps (show lo + (hi - lo) ≤ arr.length by omega) (by omega) htemp
    (Nat.zero_le _) (by decide)
  have hall : segment temp 0 (hi - lo) = temp := htemp ▸ segment_zero_length temp
  rw [hall, segment_zero, Nat.add_zero, Nat.cast_zero] at hfrom
  rw [hfits.probSize_eq, hfrom]

/-- Where the counter wraps around, it ends the loop, and the values behind the largest `int` are
not copied back. -/
theorem copyBack_wraps {hi : ℕ} (hfits : Fits arr lo hi) (htemp : temp.length = hi - lo) :
    ∃ arr', copyBack true lo (probSize lo hi) temp arr 0 = some arr' ∧
      ∀ i < hi - lo, arr'[lo + i]? = if i < 2 ^ 31 then temp[i]? else arr[lo + i]? := by
  have hle := hfits.lo_le
  have hhi := hfits.hi_le
  rw [copyBack_eq true hfits htemp]
  by_cases hsmall : hi - lo < 2 ^ 31
  · rw [if_pos hsmall]
    refine ⟨_, rfl, fun i hi' => ?_⟩
    rw [if_pos (hi'.trans hsmall), getElem?_overwrite (by omega) (by omega)]
  · have hlen : (temp.take (2 ^ 31)).length = 2 ^ 31 := by
      rw [List.length_take]
      omega
    rw [if_neg hsmall, if_pos rfl]
    refine ⟨_, rfl, fun i _ => ?_⟩
    by_cases hcopied : i < 2 ^ 31
    · rw [if_pos hcopied, getElem?_overwrite (by omega) (by omega), List.getElem?_take,
        if_pos hcopied]
    · rw [if_neg hcopied, getElem?_overwrite_of_outside (by omega) (by omega)]

end Loop

/-- The copy-back loop never overflows its counter, and has copied everything back when it ends,
if and only if the range has less than 2 ^ 31 elements. -/
theorem copy_back_complete_iff {arr temp : List Int64} {lo hi : ℕ} (hfits : Fits arr lo hi)
    (htemp : temp.length = probSize lo hi) :
    (∃ arr', copyBack false lo (probSize lo hi) temp arr 0 = some arr' ∧
      ∀ i < probSize lo hi, arr'[lo + i]? = temp[i]?) ↔ probSize lo hi < 2 ^ 31 := by
  have hle := hfits.lo_le
  have hhi := hfits.hi_le
  rw [hfits.probSize_eq] at htemp ⊢
  have heq := copyBack_eq false hfits htemp
  rw [hfits.probSize_eq] at heq
  rw [heq]
  constructor
  · rintro ⟨arr', hend, -⟩
    by_contra hlarge
    rw [if_neg hlarge] at hend
    cases hend
  · intro hsmall
    rw [if_pos hsmall]
    exact ⟨_, rfl, fun i hi' => getElem?_overwrite (by omega) (by omega)⟩

theorem copy_back_complete_two :
    ∃ arr', copyBack false 0 (probSize 0 2) [1, 2] [2, 1] 0 = some arr' ∧
      ∀ i < probSize 0 2, arr'[0 + i]? = ([1, 2] : List Int64)[i]? :=
  (copy_back_complete_iff ⟨by decide, by decide, by decide⟩ (by decide)).mpr (by decide)

section Runs
variable {qsort : (Int64 → Int64 → ℤ) → List Int64 → List Int64} {threshold : ℕ}
  {arr temp : List Int64} {lo hi : ℕ} {leftkid rightkid : Process}

/-- The process with a counter without bounds copies back what is left. -/
theorem run_copying (hfits : Fits arr lo hi) (htemp : temp.length = hi - lo) {i : ℕ}
    (hi' : i ≤ hi - lo) :
    run qsort threshold (arr, .node (.copying temp i) lo hi leftkid rightkid)
        (List.replicate (hi - lo - i + 1) []) =
      some (overwrite arr (lo + i) (segment temp i (hi - lo)),
        .node .returned lo hi leftkid rightkid) := by
  have hle := hfits.lo_le
  have hhi := hfits.hi_le
  induction hk : hi - lo - i generalizing i arr with
  | zero =>
    obtain rfl : i = hi - lo := by omega
    simp only [List.replicate, run, move, act, hfits.probSize_eq]
    rw [if_neg (lt_irrefl _), segment_self, overwrite_nil]
    rfl
  | succ k ih =>
    have hget : temp[i]? = some temp[i] := List.getElem?_eq_getElem (by omega)
    have hstep : move qsort threshold .run false [] arr
        (.node (.copying temp i) lo hi leftkid rightkid) =
        some (arr.set (lo + i) temp[i], .node (.copying temp (i + 1)) lo hi leftkid rightkid) := by
      simp only [move, act, hfits.probSize_eq, hget]
      rw [if_pos (by omega), Option.bind_eq_bind, Option.bind_some, if_pos (by omega)]
    rw [List.replicate_succ, run, hstep, Option.bind_some,
      ih (hfits.of_length List.length_set) (by omega) (by rwa [List.length_set]) (by omega),
      overwrite_next (by omega) (by omega) hget]

/-- Where the loop has a result, the process comes to the same one. -/
theorem run_of_copyBack (hfits : Fits arr lo hi) (htemp : temp.length = probSize lo hi)
    {arr' : List Int64} (hloop : copyBack false lo (probSize lo hi) temp arr 0 = some arr') :
    run qsort threshold (arr, .node (.copying temp 0) lo hi leftkid rightkid)
      (List.replicate (probSize lo hi + 1) []) =
        some (arr', .node .returned lo hi leftkid rightkid) := by
  rw [hfits.probSize_eq] at htemp
  have hsmall : hi - lo < 2 ^ 31 := by
    by_contra hlarge
    rw [copyBack_eq false hfits htemp, if_neg hlarge] at hloop
    cases hloop
  rw [copyBack_eq false hfits htemp, if_pos hsmall] at hloop
  cases hloop
  have hall : segment temp 0 (hi - lo) = temp := htemp ▸ segment_zero_length temp
  have hcopied := @run_copying qsort threshold arr temp lo hi leftkid rightkid hfits htemp 0
    (Nat.zero_le _)
  rwa [hall, Nat.sub_zero, Nat.add_zero, ← hfits.probSize_eq] at hcopied

/-- The call at the root has not come to the copy-back loop. -/
def Uncopied : Process → Prop
  | .node point _ _ _ _ =>
      match point with
      | .entry | .forked | .waiting | .waitingRight | .merging _ _ _ => True
      | _ => False
  | .absent => False

/-- The call at the root is about to copy back what it has merged. -/
def AtLoop (lo hi : ℕ) (p : Process) : Prop :=
  ∃ temp leftkid rightkid, temp.length = probSize lo hi ∧
    p = .node (.copying temp 0) lo hi leftkid rightkid

/-- A large call merges all values before it copies them back. -/
private theorem Uncopied.step {arr' orig : List Int64} {p p' : Process} {path : List Bool}
    (hqsort : SortsRange qsort) (hthreshold : 1 ≤ threshold) (hfits : Fits arr lo hi)
    (hlarge : threshold < hi - lo) (h : Inv threshold arr orig lo hi p) (huncopied : Uncopied p)
    (hmove : move qsort threshold .run false path arr p = some (arr', p')) :
    Uncopied p' ∨ AtLoop lo hi p' := by
  have hroot := (move_advances hqsort hthreshold path hfits h hmove).status rfl
  cases p with
  | absent => exact huncopied.elim
  | node point lo' hi' leftkid rightkid =>
    cases path with
    | cons side path =>
      cases side <;>
        (obtain ⟨s, -, heq⟩ := Option.map_eq_some_iff.mp hmove; cases heq; exact .inl huncopied)
    | nil =>
      obtain ⟨rfl, rfl, hpoint⟩ := h
      cases act_step hmove with
      | sorts hsmall =>
        rw [hfits.probSize_eq] at hsmall
        omega
      | skips _ hempty => omega
      | leftFails | rightFails => cases hroot rfl
      | forks | forksRight | leftExits | rightExits | merges => exact .inl trivial
      | @merged left right temp hleft hright =>
        obtain ⟨-, -, hl, hl', hr, hr', hlen, -⟩ := hpoint
        rw [hfits.midpoint_eq] at hleft
        refine .inr ⟨temp, leftkid, rightkid, ?_, rfl⟩
        rw [hfits.probSize_eq]
        omega
      | copies | copied | exits => exact huncopied.elim

/-- Some schedule leads a large call to the copy-back loop. -/
theorem exists_run_atLoop {orig : List Int64} {p : Process} (hqsort : SortsRange qsort)
    (hthreshold : 1 ≤ threshold) (hfits : Fits arr lo hi) (hlarge : threshold < hi - lo)
    (h : Inv threshold arr orig lo hi p) (huncopied : Uncopied p) :
    ∃ schedule arr' p', run qsort threshold (arr, p) schedule = some (arr', p') ∧
      arr'.length = arr.length ∧ AtLoop lo hi p' := by
  induction hweight : weight threshold p using Nat.strong_induction_on generalizing arr p with
  | _ w ih =>
    subst hweight
    rcases exists_move qsort false hfits h with ⟨path, hpath⟩ | ⟨-, hreturned⟩ | hstatus
    · obtain ⟨⟨arr₁, p₁⟩, hmove⟩ := Option.isSome_iff_exists.mp hpath
      obtain ⟨hinv, hlen, -, hlt, -⟩ := move_advances hqsort hthreshold path hfits h hmove
      rcases huncopied.step hqsort hthreshold hfits hlarge h hmove with hun | hloop
      · obtain ⟨schedule, arr', p', hrun, hlen', hloop⟩ :=
          ih _ hlt (hfits.of_length hlen) hinv hun rfl
        refine ⟨path :: schedule, arr', p', ?_, hlen'.trans hlen, hloop⟩
        rw [run, hmove, Option.bind_some, hrun]
      · refine ⟨[path], arr₁, p₁, ?_, hlen, hloop⟩
        rw [run, hmove, Option.bind_some, run]
    · cases p with
      | absent => exact huncopied.elim
      | node point lo' hi' leftkid rightkid =>
        cases point <;> first | exact huncopied.elim | exact hreturned.elim
    · cases p with
      | absent => exact huncopied.elim
      | node point lo' hi' leftkid rightkid =>
        cases point <;> first | exact huncopied.elim | cases hstatus

end Runs

/-- A file of 2 ^ 34 bytes with a threshold of half its elements. -/
theorem copy_back_overflows :
    ∃ schedule arr' temp leftkid rightkid,
      run sortBy (2 ^ 30) (mergeSort (List.replicate (2 ^ 31) 0) 0 (2 ^ 31)) schedule =
        some (arr', .node (.copying temp 0) 0 (2 ^ 31) leftkid rightkid) ∧
      copyBack false 0 (probSize 0 (2 ^ 31)) temp arr' 0 = none := by
  have hfits : Fits (List.replicate (2 ^ 31) 0) 0 (2 ^ 31) :=
    ⟨Nat.zero_le _, by rw [List.length_replicate], by rw [List.length_replicate]; decide⟩
  obtain ⟨schedule, arr', p', hrun, hlen, temp, leftkid, rightkid, htemp, rfl⟩ :=
    exists_run_atLoop sortsRange_sortBy (by decide) hfits (show 2 ^ 30 < 2 ^ 31 - 0 by decide)
      ⟨rfl, rfl, rfl, rfl, rfl⟩ (p := .node .entry 0 (2 ^ 31) .absent .absent) trivial
  have hfits' : Fits arr' 0 (2 ^ 31) := hfits.of_length hlen
  refine ⟨schedule, arr', temp, leftkid, rightkid, hrun, ?_⟩
  rw [hfits.probSize_eq] at htemp
  rw [copyBack_eq false hfits' htemp, if_neg (by decide)]
  rfl

end CsfAssignments.Parsort
