import CsfAssignments.ParsortInvariant
import CsfAssignments.ParsortSteps

/-!
# Moves of the process tree

Every move of a process keeps the invariant of its call, writes inside the range of the call,
and lowers the bound on the moves left. As long as a call has not returned some process of its
tree can move.
-/

namespace CsfAssignments.Parsort
open CIntegers ListSegments

variable {qsort : (Int64 → Int64 → ℤ) → List Int64 → List Int64} (hqsort : SortsRange qsort)
  {threshold : ℕ} (hthreshold : 1 ≤ threshold)

section OwnMoves
variable {arr arr' orig : List Int64} {lo hi : ℕ} {p' : Process}

theorem cost_pos (threshold n : ℕ) : 1 < cost threshold n := by
  unfold cost
  split_ifs <;> omega

private theorem cost_large {n : ℕ} (hlarge : threshold < n) (hthreshold : 1 ≤ threshold) :
    cost threshold n = cost threshold (n / 2) + cost threshold (n - n / 2) + 2 * n + 7 := by
  rw [cost, if_neg (by omega)]

private theorem half_sub (hle : lo ≤ hi) :
    half lo hi - lo = (hi - lo) / 2 ∧ hi - half lo hi = hi - lo - (hi - lo) / 2 := by
  rw [half]
  omega

include hqsort in
/-- A call on a small range sorts it in place. -/
private theorem sorts_advances (hfits : Fits arr lo hi) {kid : Bool} :
    Advances threshold kid arr
      (overwrite arr lo (qsort compareI64 (segment arr lo (lo + probSize lo hi))))
      (segment arr lo hi) lo hi (.node .entry lo hi .absent .absent)
      (.node .returned lo hi .absent .absent) := by
  have hle := hfits.lo_le
  have hhi := hfits.hi_le
  have hcost := cost_pos threshold (hi - lo)
  have hend : lo + (hi - lo) = hi := by omega
  have hlen : (sorted (segment arr lo hi)).length = hi - lo := by
    rw [length_sorted, length_segment hhi]
  have hbound : lo + (sorted (segment arr lo hi)).length ≤ arr.length := by omega
  rw [hfits.probSize_eq, hend, hqsort.eq_sorted]
  refine ⟨⟨rfl, rfl, trivial, trivial, ?_⟩, length_overwrite hbound, fun i hi' => ?_, ?_,
    fun _ _ => rfl⟩
  · have h := segment_overwrite hbound
    rwa [hlen, hend] at h
  · exact getElem?_overwrite_of_outside hbound (by omega)
  · simpa [weight] using hcost

include hthreshold in
/-- A call on a large range forks its left kid. -/
private theorem forks_advances (hfits : Fits arr lo hi) (hsize : threshold < hi - lo) {kid : Bool} :
    Advances threshold kid arr arr (segment arr lo hi) lo hi (.node .entry lo hi .absent .absent)
      (.node .forked lo hi (.node .entry lo (midpoint lo hi) .absent .absent) .absent) := by
  obtain ⟨hlow, hhigh⟩ := half_mem hfits.lo_le
  have hhalf := half_sub hfits.lo_le
  rw [hfits.midpoint_eq]
  refine ⟨⟨rfl, rfl, hsize, rfl, segment arr lo (half lo hi), ⟨rfl, rfl, rfl, rfl, rfl⟩,
    segment_append hlow hhigh⟩, rfl, fun _ _ => rfl, ?_, fun _ _ => rfl⟩
  simp only [weight, cost_large hsize hthreshold, hhalf.1, hhalf.2]
  omega

/-- The merge loop ends with both halves used up. -/
private theorem merged_advances (hfits : Fits arr lo hi) {l r : ℕ} {temp : List Int64}
    {left right : Process} {kid : Bool} (hl : half lo hi ≤ l) (hr : hi ≤ r)
    (h : Inv threshold arr orig lo hi (.node (.merging l r temp) lo hi left right)) :
    Advances threshold kid arr arr orig lo hi (.node (.merging l r temp) lo hi left right)
      (.node (.copying temp 0) lo hi left right) := by
  obtain ⟨hlow, hhigh⟩ := half_mem hfits.lo_le
  obtain ⟨-, -, hfl, hfr, -, hl', -, hr', hlen, hmerge⟩ := h
  obtain rfl : l = half lo hi := le_antisymm hl' hl
  obtain rfl : r = hi := le_antisymm hr' hr
  rw [segment_self, segment_self, List.nil_merge, List.append_nil] at hmerge
  refine ⟨⟨rfl, rfl, hfl, hfr, Nat.zero_le _, by omega, hmerge, ?_⟩, rfl, fun _ _ => rfl, ?_,
    fun _ _ => rfl⟩
  · rw [Nat.add_zero, segment_self, List.take_zero]
  · simp only [weight]
    omega

/-- A round of the merge loop. -/
private theorem merges_advances (hfits : Fits arr lo hi) {l r l' r' : ℕ} {temp : List Int64}
    {x : Int64} {left right : Process} {kid : Bool} (hdone : ¬(half lo hi ≤ l ∧ hi ≤ r))
    (hround : mergeRound arr (half lo hi) hi l r = some (x, l', r'))
    (h : Inv threshold arr orig lo hi (.node (.merging l r temp) lo hi left right)) :
    Advances threshold kid arr arr orig lo hi (.node (.merging l r temp) lo hi left right)
      (.node (.merging l' r' (temp ++ [x])) lo hi left right) := by
  obtain ⟨hlow, hhigh⟩ := half_mem hfits.lo_le
  have hhi := hfits.hi_le
  obtain ⟨-, -, hfl, hfr, hl, hl', hr, hr', hlen, hmerge⟩ := h
  obtain ⟨y, k, m, hround', h1, h2, h3, h4, hsum, hnext⟩ :=
    mergeRound_eq (by omega) hhi hl' hr' hdone
  cases hround.symm.trans hround'
  refine ⟨⟨rfl, rfl, hfl, hfr, by omega, h2, by omega, h4, ?_, ?_⟩, rfl, fun _ _ => rfl, ?_,
    fun _ _ => rfl⟩
  · rw [List.length_append, List.length_singleton]
    omega
  · rw [List.append_assoc, List.singleton_append, ← hnext, hmerge]
  · simp only [weight]
    omega

/-- A round of the copy-back loop. -/
private theorem copies_advances {i : ℕ} {temp : List Int64} {x : Int64} {left right : Process}
    {kid : Bool} (hlt : i < hi - lo) (hget : temp[i]? = some x) (hroom : lo + i < arr.length)
    (h : Inv threshold arr orig lo hi (.node (.copying temp i) lo hi left right)) :
    Advances threshold kid arr (arr.set (lo + i) x) orig lo hi
      (.node (.copying temp i) lo hi left right)
      (.node (.copying temp (i + 1)) lo hi left right) := by
  obtain ⟨-, -, hfl, hfr, -, hlen, htemp, hcopy⟩ := h
  obtain ⟨hi', rfl⟩ := List.getElem?_eq_some_iff.mp hget
  refine ⟨⟨rfl, rfl, hfl, hfr, hlt, hlen, htemp, ?_⟩, List.length_set,
    fun j hj => List.getElem?_set_ne (by omega), ?_, fun _ _ => rfl⟩
  · rw [← Nat.add_assoc, segment_set_succ (by omega) hroom, hcopy,
      List.take_succ_eq_append_getElem hi']
  · simp only [weight]
    omega

/-- The copy-back loop ends with all values copied. -/
private theorem copied_advances (hfits : Fits arr lo hi) {i : ℕ} {temp : List Int64}
    {left right : Process} {kid : Bool} (hge : hi - lo ≤ i)
    (h : Inv threshold arr orig lo hi (.node (.copying temp i) lo hi left right)) :
    Advances threshold kid arr arr orig lo hi (.node (.copying temp i) lo hi left right)
      (.node .returned lo hi left right) := by
  have hle := hfits.lo_le
  obtain ⟨-, -, hfl, hfr, hi', hlen, htemp, hcopy⟩ := h
  obtain rfl : i = hi - lo := le_antisymm hi' hge
  have hend : lo + (hi - lo) = hi := by omega
  refine ⟨⟨rfl, rfl, hfl, hfr, ?_⟩, rfl, fun _ _ => rfl, ?_, fun _ _ => rfl⟩
  · rwa [hend, ← hlen, List.take_length, htemp] at hcopy
  · simp only [weight]
    omega

include hqsort hthreshold in
/-- Every move of the process of a call. -/
theorem act_advances (hfits : Fits arr lo hi) {p : Process} {kid : Bool}
    (h : Inv threshold arr orig lo hi p) (hmove : act qsort threshold kid arr p = some (arr', p')) :
    Advances threshold kid arr arr' orig lo hi p p' := by
  cases p with
  | absent => exact h.elim
  | node point lo' hi' left right =>
    obtain ⟨rfl, rfl, hpoint⟩ := id h
    have hhalf : lo' ≤ half lo' hi' ∧ half lo' hi' ≤ hi' := half_mem hfits.lo_le
    cases act_step hmove with
    | sorts =>
      obtain ⟨rfl, rfl, rfl⟩ := hpoint
      exact sorts_advances hqsort hfits
    | forks hlarge =>
      obtain ⟨rfl, rfl, rfl⟩ := hpoint
      exact forks_advances hthreshold hfits (hfits.probSize_eq ▸ hlarge)
    | skips hlarge hempty =>
      rw [hfits.probSize_eq] at hlarge
      omega
    | forksRight =>
      obtain ⟨hsize, rfl, leftOrig, hleft, horig⟩ := hpoint
      rw [hfits.rightBegin_eq]
      refine ⟨⟨rfl, rfl, hsize, leftOrig, _, hleft, ⟨rfl, rfl, rfl, rfl, rfl⟩, horig⟩, rfl,
        fun _ _ => rfl, ?_, fun _ _ => rfl⟩
      simp only [weight]
      omega
    | leftFails hstatus hfailed =>
      obtain ⟨-, leftOrig, -, hleft, -⟩ := hpoint
      exact absurd (hleft.of_status hstatus).1 hfailed
    | leftExits hstatus =>
      obtain ⟨hsize, leftOrig, rightOrig, hleft, hright, horig⟩ := hpoint
      refine ⟨⟨rfl, rfl, hsize, hstatus, leftOrig, rightOrig, hleft, hright, horig⟩, rfl,
        fun _ _ => rfl, ?_, fun _ _ => rfl⟩
      simp only [weight]
      omega
    | rightFails hstatus hfailed =>
      obtain ⟨-, -, -, rightOrig, -, hright, -⟩ := hpoint
      exact absurd (hright.of_status hstatus).1 hfailed
    | rightExits hstatus =>
      obtain ⟨hsize, hstatusLeft, leftOrig, rightOrig, hleft, hright, horig⟩ := hpoint
      obtain ⟨-, hfl, hsortedLeft⟩ := hleft.of_status hstatusLeft
      obtain ⟨-, hfr, hsortedRight⟩ := hright.of_status hstatus
      rw [hfits.midpoint_eq]
      refine ⟨⟨rfl, rfl, hfl, hfr, le_refl _, hhalf.1, le_refl _, hhalf.2, by simp, ?_⟩, rfl,
        fun _ _ => rfl, ?_, fun _ _ => rfl⟩
      · rw [List.nil_append, hsortedLeft, hsortedRight, merge_sorted, horig]
      · simp only [weight]
        omega
    | merged hl hr => exact merged_advances hfits (hfits.midpoint_eq ▸ hl) hr h
    | merges hdone hround =>
      rw [hfits.midpoint_eq] at hdone hround
      exact merges_advances hfits hdone hround h
    | copies hlt hget hroom =>
      exact copies_advances (hfits.probSize_eq ▸ hlt) hget hroom h
    | copied hge => exact copied_advances hfits (hfits.probSize_eq ▸ hge) h
    | exits hkid =>
      obtain ⟨hfl, hfr, hsorted⟩ := hpoint
      refine ⟨⟨rfl, rfl, hfl, hfr, rfl, hsorted⟩, rfl, fun _ _ => rfl, ?_,
        fun hroot => absurd hkid (by simp [hroot])⟩
      simp only [weight]
      omega

end OwnMoves

section TreeMoves

/-- A tree whose processes have all ended makes no move. -/
theorem move_finished {p : Process} (h : Finished p) (action : Action) (kid : Bool)
    (path : List Bool) (arr : List Int64) : move qsort threshold action kid path arr p = none := by
  induction path generalizing kid p with
  | nil =>
    cases p with
    | absent => cases action <;> rfl
    | node point lo hi left right =>
      cases point with
      | ended status => cases action <;> rfl
      | _ => exact h.elim
  | cons side path ih =>
    cases p with
    | absent => rfl
    | node point lo hi left right =>
      cases point with
      | ended status => cases side <;> simp [move, ih h.1, ih h.2]
      | _ => exact h.elim

/-- Only a process that has not ended moves, or one of those below it. -/
theorem move_running {action : Action} {kid : Bool} {path : List Bool} {arr arr' : List Int64}
    {p p' : Process} (hmove : move qsort threshold action kid path arr p = some (arr', p')) :
    ¬Finished p := by
  intro h
  rw [move_finished h] at hmove
  cases hmove

include hqsort hthreshold in
/-- Every move of the tree of a call. A kid moves only while its parent waits for it or forks
its sibling, and then inside its own half. -/
theorem move_advances (path : List Bool) {kid : Bool} {arr arr' orig : List Int64} {lo hi : ℕ}
    {p p' : Process} (hfits : Fits arr lo hi) (h : Inv threshold arr orig lo hi p)
    (hmove : move qsort threshold .run kid path arr p = some (arr', p')) :
    Advances threshold kid arr arr' orig lo hi p p' := by
  induction path generalizing kid arr' orig lo hi p p' with
  | nil => exact act_advances hqsort hthreshold hfits h hmove
  | cons side path ih =>
    cases p with
    | absent => exact h.elim
    | node point lo' hi' left right =>
      obtain ⟨rfl, rfl, hpoint⟩ := h
      have hle := hfits.lo_le
      have hhalf : lo' ≤ half lo' hi' ∧ half lo' hi' ≤ hi' := half_mem hle
      cases side with
      | true =>
        obtain ⟨⟨arr1, left'⟩, hleftMove, heq⟩ := Option.map_eq_some_iff.mp hmove
        cases heq
        have hrunning := move_running hleftMove
        cases point with
        | entry => exact absurd (hpoint.1 ▸ trivial) hrunning
        | forked =>
          obtain ⟨hsize, rfl, leftOrig, hleft, horig⟩ := hpoint
          obtain ⟨hinv, hlen, hout, hlt, -⟩ := ih hfits.left hleft hleftMove
          have hright : segment arr' (half lo' hi') hi' = segment arr (half lo' hi') hi' :=
            segment_congr fun i hi _ => hout i (.inr hi)
          refine ⟨⟨rfl, rfl, hsize, rfl, leftOrig, hinv, hright ▸ horig⟩, hlen,
            fun i hi => hout i (by omega), ?_, fun _ _ => rfl⟩
          simp only [weight]
          omega
        | waiting =>
          obtain ⟨hsize, leftOrig, rightOrig, hleft, hright, horig⟩ := hpoint
          obtain ⟨hinv, hlen, hout, hlt, -⟩ := ih hfits.left hleft hleftMove
          have hright' := hright.congr hhalf.2 fun i hi _ => hout i (.inr hi)
          refine ⟨⟨rfl, rfl, hsize, leftOrig, rightOrig, hinv, hright', horig⟩, hlen,
            fun i hi => hout i (by omega), ?_, fun _ _ => rfl⟩
          simp only [weight]
          omega
        | waitingRight =>
          obtain ⟨-, hstatus, leftOrig, -, hleft, -, -⟩ := hpoint
          exact absurd (hleft.of_status hstatus).2.1 hrunning
        | merging | copying | returned | ended => exact absurd hpoint.1 hrunning
      | false =>
        obtain ⟨⟨arr1, right'⟩, hrightMove, heq⟩ := Option.map_eq_some_iff.mp hmove
        cases heq
        have hrunning := move_running hrightMove
        cases point with
        | entry | forked => exact absurd (hpoint.2.1 ▸ trivial) hrunning
        | waiting =>
          obtain ⟨hsize, leftOrig, rightOrig, hleft, hright, horig⟩ := hpoint
          obtain ⟨hinv, hlen, hout, hlt, -⟩ := ih hfits.right hright hrightMove
          have hleft' := hleft.congr hhalf.1 fun i _ hi => hout i (.inl hi)
          refine ⟨⟨rfl, rfl, hsize, leftOrig, rightOrig, hleft', hinv, horig⟩, hlen,
            fun i hi => hout i (by omega), ?_, fun _ _ => rfl⟩
          simp only [weight]
          omega
        | waitingRight =>
          obtain ⟨hsize, hstatus, leftOrig, rightOrig, hleft, hright, horig⟩ := hpoint
          obtain ⟨hinv, hlen, hout, hlt, -⟩ := ih hfits.right hright hrightMove
          have hleft' := hleft.congr hhalf.1 fun i _ hi => hout i (.inl hi)
          refine ⟨⟨rfl, rfl, hsize, hstatus, leftOrig, rightOrig, hleft', hinv, horig⟩, hlen,
            fun i hi => hout i (by omega), ?_, fun _ _ => rfl⟩
          simp only [weight]
          omega
        | merging | copying | returned | ended => exact absurd hpoint.2.1 hrunning

/-- The call at the root of a tree has returned. -/
def Returned : Process → Prop
  | .node .returned _ _ _ _ => True
  | _ => False

variable (qsort) in
/-- Some process of a call can move until the call has returned, and a kid until it has
exited. No access leaves the array or the temporary buffer. -/
theorem exists_move {p : Process} : ∀ {arr orig : List Int64} {lo hi : ℕ} (kid : Bool),
    Fits arr lo hi → Inv threshold arr orig lo hi p →
    (∃ path, (move qsort threshold .run kid path arr p).isSome) ∨ (kid = false ∧ Returned p) ∨
      p.status? = some (.exited 0) := by
  induction p with
  | absent => exact fun _ _ h => h.elim
  | node point lo' hi' left right ihleft ihright =>
    intro arr orig lo hi kid hfits h
    obtain ⟨rfl, rfl, hpoint⟩ := id h
    have hle := hfits.lo_le
    have hhi := hfits.hi_le
    have hhalf : lo' ≤ half lo' hi' ∧ half lo' hi' ≤ hi' := half_mem hle
    have hown : (act qsort threshold kid arr (.node point lo' hi' left right)).isSome →
        ∃ path, (move qsort threshold .run kid path arr (.node point lo' hi' left right)).isSome :=
      fun h => ⟨[], h⟩
    cases point with
    | entry =>
      refine .inl (hown ?_)
      simp only [act, enter, hfits.probSize_eq, if_pos (show lo' + (hi' - lo') ≤ arr.length by omega)]
      split_ifs <;> rfl
    | forked => exact .inl (hown rfl)
    | waiting =>
      obtain ⟨-, leftOrig, -, hleft, -, -⟩ := hpoint
      rcases ihleft true hfits.left hleft with ⟨path, hpath⟩ | ⟨hkid, -⟩ | hstatus
      · exact .inl ⟨true :: path, by simpa [move] using hpath⟩
      · exact absurd hkid (by decide)
      · exact .inl (hown (by simp [act, hstatus]))
    | waitingRight =>
      obtain ⟨-, -, -, rightOrig, -, hright, -⟩ := hpoint
      rcases ihright true hfits.right hright with ⟨path, hpath⟩ | ⟨hkid, -⟩ | hstatus
      · exact .inl ⟨false :: path, by simpa [move] using hpath⟩
      · exact absurd hkid (by decide)
      · exact .inl (hown (by simp [act, hstatus]))
    | merging l r temp =>
      obtain ⟨-, -, hl, hl', hr, hr', hlen, -⟩ := hpoint
      refine .inl (hown ?_)
      simp only [act, hfits.midpoint_eq, hfits.probSize_eq]
      by_cases hdone : l ≥ half lo' hi' ∧ r ≥ hi'
      · rw [if_pos hdone]
        rfl
      · obtain ⟨x, l', r', hround, -⟩ := mergeRound_eq (by omega) hhi hl' hr' hdone
        rw [if_neg hdone, hround]
        simp only [Option.bind_eq_bind, Option.bind_some]
        rw [if_pos (by omega)]
        rfl
    | copying temp i =>
      obtain ⟨-, -, hi, hlen, -, -⟩ := hpoint
      refine .inl (hown ?_)
      simp only [act, hfits.probSize_eq]
      by_cases hlt : i < hi' - lo'
      · have hget : temp[i]? = some temp[i] := List.getElem?_eq_getElem (by omega)
        rw [if_pos hlt, hget]
        simp only [Option.bind_eq_bind, Option.bind_some]
        rw [if_pos (by omega)]
        rfl
      · rw [if_neg hlt]
        rfl
    | returned =>
      cases kid with
      | false => exact .inr (.inl ⟨rfl, trivial⟩)
      | true => exact .inl (hown rfl)
    | ended status =>
      obtain ⟨-, -, rfl, -⟩ := hpoint
      exact .inr (.inr rfl)

end TreeMoves

end CsfAssignments.Parsort
