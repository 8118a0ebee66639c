import CsfAssignments.ParsortModel

/-!
# The invariant of the process tree

A call of `merge_sort` owns its range. While its kids run they own the halves, so that the
moves of one kid leave the range of the other alone; from the last wait on the call merges
the two sorted halves and copies the result back.
-/

namespace CsfAssignments.Parsort
open CIntegers ListSegments

instance int64LinearOrder : LinearOrder Int64 where
  le_refl a := Int64.le_iff_toInt_le.mpr (le_refl _)
  le_trans a b c hab hbc := by
    rw [Int64.le_iff_toInt_le] at *
    exact hab.trans hbc
  le_antisymm a b hab hba := by
    rw [Int64.le_iff_toInt_le] at *
    exact Int64.toInt_inj.mp (le_antisymm hab hba)
  le_total a b := by
    rw [Int64.le_iff_toInt_le, Int64.le_iff_toInt_le]
    exact le_total _ _
  lt_iff_le_not_ge a b := by
    rw [Int64.le_iff_toInt_le, Int64.le_iff_toInt_le, Int64.lt_iff_toInt_lt]
    exact lt_iff_le_not_ge
  toDecidableLE := inferInstance

theorem compareI64_le_zero {a b : Int64} : compareI64 a b ≤ 0 ↔ a ≤ b := by
  unfold compareI64
  split_ifs with hlt hgt
  · exact iff_of_true (by decide) hlt.le
  · exact iff_of_false (by decide) (not_le.mpr hgt)
  · exact iff_of_true (le_refl _) (not_lt.mp hgt)

/-- `qsort` sorts its range into a permutation according to the comparison function. -/
def SortsRange (qsort : (Int64 → Int64 → ℤ) → List Int64 → List Int64) : Prop :=
  ∀ l, (qsort compareI64 l).Perm l ∧
    (qsort compareI64 l).Pairwise (fun a b => compareI64 a b ≤ 0)

theorem SortsRange.eq_sorted {qsort : (Int64 → Int64 → ℤ) → List Int64 → List Int64}
    (hqsort : SortsRange qsort) (l : List Int64) : qsort compareI64 l = sorted l := by
  refine ListSegments.eq_sorted (hqsort l).1 ((hqsort l).2.imp fun {a b} h => ?_)
  exact compareI64_le_zero.mp h

/-- A range of an array of a size that a pointer can address. -/
structure Fits (arr : List Int64) (lo hi : ℕ) : Prop where
  lo_le : lo ≤ hi
  hi_le : hi ≤ arr.length
  addressable : 8 * arr.length < 2 ^ 64

def half (lo hi : ℕ) : ℕ := (lo + hi) / 2

theorem half_mem {lo hi : ℕ} (hle : lo ≤ hi) : lo ≤ half lo hi ∧ half lo hi ≤ hi := by
  rw [half]
  omega

section Arithmetic
variable {arr : List Int64} {lo hi : ℕ}

theorem probSize_of_le (hle : lo ≤ hi) (hsize : hi < 2 ^ 61) : probSize lo hi = hi - lo := by
  rw [probSize, toUInt64]
  omega

theorem midpoint_of_le (hle : lo ≤ hi) (hsize : hi < 2 ^ 61) : midpoint lo hi = half lo hi := by
  rw [midpoint, toUInt64, half]
  omega

/-- The two formulas for the split agree. -/
theorem rightBegin_of_le (hle : lo ≤ hi) (hsize : hi < 2 ^ 61) : rightBegin lo hi = half lo hi := by
  rw [rightBegin, probSize_of_le hle hsize, toUInt64, half]
  omega

variable (hfits : Fits arr lo hi)
include hfits

theorem Fits.hi_lt : hi < 2 ^ 61 := by
  have hhi := hfits.hi_le
  have hsize := hfits.addressable
  omega

theorem Fits.probSize_eq : probSize lo hi = hi - lo := probSize_of_le hfits.lo_le hfits.hi_lt

theorem Fits.midpoint_eq : midpoint lo hi = half lo hi := midpoint_of_le hfits.lo_le hfits.hi_lt

theorem Fits.rightBegin_eq : rightBegin lo hi = half lo hi :=
  rightBegin_of_le hfits.lo_le hfits.hi_lt

theorem Fits.left : Fits arr lo (half lo hi) :=
  ⟨(half_mem hfits.lo_le).1, (half_mem hfits.lo_le).2.trans hfits.hi_le, hfits.addressable⟩

theorem Fits.right : Fits arr (half lo hi) hi :=
  ⟨(half_mem hfits.lo_le).2, hfits.hi_le, hfits.addressable⟩

theorem Fits.of_length {arr' : List Int64} (hlen : arr'.length = arr.length) : Fits arr' lo hi :=
  ⟨hfits.lo_le, hlen ▸ hfits.hi_le, hlen ▸ hfits.addressable⟩

end Arithmetic

/-- A process that ended, as all its kids did. -/
def Finished : Process → Prop
  | .absent => True
  | .node (.ended _) _ _ left right => Finished left ∧ Finished right
  | .node _ _ _ _ _ => False

/-- A call whose range held `orig` at its begin, before the ranges are written by others. -/
def Inv (threshold : ℕ) (arr : List Int64) : List Int64 → ℕ → ℕ → Process → Prop
  | _, _, _, .absent => False
  | orig, lo, hi, .node point lo' hi' left right =>
      lo' = lo ∧ hi' = hi ∧
      match point with
      | .entry => left = .absent ∧ right = .absent ∧ segment arr lo hi = orig
      | .forked => threshold < hi - lo ∧ right = .absent ∧
          ∃ leftOrig, Inv threshold arr leftOrig lo (half lo hi) left ∧
            leftOrig ++ segment arr (half lo hi) hi = orig
      | .waiting => threshold < hi - lo ∧
          ∃ leftOrig rightOrig, Inv threshold arr leftOrig lo (half lo hi) left ∧
            Inv threshold arr rightOrig (half lo hi) hi right ∧ leftOrig ++ rightOrig = orig
      | .waitingRight => threshold < hi - lo ∧ left.status? = some (.exited 0) ∧
          ∃ leftOrig rightOrig, Inv threshold arr leftOrig lo (half lo hi) left ∧
            Inv threshold arr rightOrig (half lo hi) hi right ∧ leftOrig ++ rightOrig = orig
      | .merging l r temp => Finished left ∧ Finished right ∧
          lo ≤ l ∧ l ≤ half lo hi ∧ half lo hi ≤ r ∧ r ≤ hi ∧
          temp.length + lo + half lo hi = l + r ∧
          temp ++ List.merge (segment arr l (half lo hi)) (segment arr r hi) (fun a b => a ≤ b) =
            sorted orig
      | .copying temp i => Finished left ∧ Finished right ∧ i ≤ hi - lo ∧
          temp.length = hi - lo ∧ temp = sorted orig ∧ segment arr lo (lo + i) = temp.take i
      | .returned => Finished left ∧ Finished right ∧ segment arr lo hi = sorted orig
      | .ended status => Finished left ∧ Finished right ∧ status = .exited 0 ∧
          segment arr lo hi = sorted orig

/-- A bound for the moves of a call of a size. -/
def cost (threshold n : ℕ) : ℕ :=
  if n ≤ threshold ∨ n < 2 then 2
  else cost threshold (n / 2) + cost threshold (n - n / 2) + 2 * n + 7
termination_by n

/-- The number of moves a process and its kids may still make. -/
def weight (threshold : ℕ) : Process → ℕ
  | .absent => 0
  | .node point lo hi left right => weight threshold left + weight threshold right +
      match point with
      | .entry => cost threshold (hi - lo)
      | .forked => cost threshold (hi - half lo hi) + 2 * (hi - lo) + 6
      | .waiting => 2 * (hi - lo) + 5
      | .waitingRight => 2 * (hi - lo) + 4
      | .merging l r _ => (half lo hi - l) + (hi - r) + (hi - lo) + 3
      | .copying _ i => (hi - lo - i) + 2
      | .returned => 1
      | .ended _ => 0

/-- What a move of a call does; `kid` says whether the call was made in a kid. -/
structure Advances (threshold : ℕ) (kid : Bool) (arr arr' orig : List Int64) (lo hi : ℕ)
    (p p' : Process) : Prop where
  inv : Inv threshold arr' orig lo hi p'
  length_eq : arr'.length = arr.length
  outside : ∀ i, i < lo ∨ hi ≤ i → arr'[i]? = arr[i]?
  weight_lt : weight threshold p' < weight threshold p
  status : kid = false → p.status? = none → p'.status? = none

section Frame
variable {threshold : ℕ}

/-- The invariant of a call is about its range alone. -/
theorem Inv.congr {p : Process} : ∀ {arr arr' orig : List Int64} {lo hi : ℕ}, lo ≤ hi →
    (∀ i, lo ≤ i → i < hi → arr'[i]? = arr[i]?) → Inv threshold arr orig lo hi p →
    Inv threshold arr' orig lo hi p := by
  induction p with
  | absent => exact fun _ _ h => h
  | node point lo' hi' left right ihleft ihright =>
    intro arr arr' orig lo hi hle hagree h
    obtain ⟨hlow, hhigh⟩ := half_mem hle
    have hseg : ∀ a b, lo ≤ a → b ≤ hi → segment arr' a b = segment arr a b := fun a b ha hb =>
      segment_congr fun i hi hib => hagree i (ha.trans hi) (hib.trans_le hb)
    obtain ⟨rfl, rfl, h⟩ := h
    refine ⟨rfl, rfl, ?_⟩
    have hleft : ∀ {orig}, Inv threshold arr orig lo' (half lo' hi') left →
        Inv threshold arr' orig lo' (half lo' hi') left :=
      ihleft hlow fun i h h' => hagree i h (h'.trans_le hhigh)
    have hright : ∀ {orig}, Inv threshold arr orig (half lo' hi') hi' right →
        Inv threshold arr' orig (half lo' hi') hi' right :=
      ihright hhigh fun i h h' => hagree i (hlow.trans h) h'
    cases point with
    | entry =>
      obtain ⟨hl, hr, horig⟩ := h
      exact ⟨hl, hr, (hseg _ _ (le_refl _) (le_refl _)).trans horig⟩
    | forked =>
      obtain ⟨hsize, hr, leftOrig, hl, horig⟩ := h
      exact ⟨hsize, hr, leftOrig, hleft hl, by rw [hseg _ _ hlow (le_refl _), horig]⟩
    | waiting =>
      obtain ⟨hsize, leftOrig, rightOrig, hl, hr, horig⟩ := h
      exact ⟨hsize, leftOrig, rightOrig, hleft hl, hright hr, horig⟩
    | waitingRight =>
      obtain ⟨hsize, hstatus, leftOrig, rightOrig, hl, hr, horig⟩ := h
      exact ⟨hsize, hstatus, leftOrig, rightOrig, hleft hl, hright hr, horig⟩
    | merging l r temp =>
      obtain ⟨hfl, hfr, hl, hl', hr, hr', hlen, hmerge⟩ := h
      refine ⟨hfl, hfr, hl, hl', hr, hr', hlen, ?_⟩
      rw [hseg _ _ hl hhigh, hseg _ _ (hlow.trans hr) (le_refl _), hmerge]
    | copying temp i =>
      obtain ⟨hfl, hfr, hi, hlen, htemp, hcopy⟩ := h
      exact ⟨hfl, hfr, hi, hlen, htemp, (hseg _ _ (le_refl _) (by omega)).trans hcopy⟩
    | returned =>
      obtain ⟨hfl, hfr, hsorted⟩ := h
      exact ⟨hfl, hfr, (hseg _ _ (le_refl _) (le_refl _)).trans hsorted⟩
    | ended status =>
      obtain ⟨hfl, hfr, hstatus, hsorted⟩ := h
      exact ⟨hfl, hfr, hstatus, (hseg _ _ (le_refl _) (le_refl _)).trans hsorted⟩

/-- What the parent learns when a kid has ended. -/
theorem Inv.of_status {arr orig : List Int64} {lo hi : ℕ} {p : Process} {status : Status}
    (h : Inv threshold arr orig lo hi p) (hstatus : p.status? = some status) :
    status = .exited 0 ∧ Finished p ∧ segment arr lo hi = sorted orig := by
  cases p with
  | absent => exact h.elim
  | node point lo' hi' left right =>
    cases point with
    | ended status' =>
      obtain ⟨-, -, hfl, hfr, hended, hsorted⟩ := h
      cases hstatus
      exact ⟨hended, ⟨hfl, hfr⟩, hsorted⟩
    | _ => simp [Process.status?] at hstatus

end Frame

section MergeLoop
variable {arr : List Int64} {mid hi l r : ℕ}

/-- A round of the merge loop stores the next value of the merge of the two rests. -/
theorem mergeRound_eq (hmid : mid ≤ arr.length) (hhi : hi ≤ arr.length) (hl : l ≤ mid)
    (hr : r ≤ hi) (hrest : ¬(l ≥ mid ∧ r ≥ hi)) :
    ∃ x l' r', mergeRound arr mid hi l r = some (x, l', r') ∧ l ≤ l' ∧ l' ≤ mid ∧ r ≤ r' ∧
      r' ≤ hi ∧ l' + r' = l + r + 1 ∧
      List.merge (segment arr l mid) (segment arr r hi) (fun a b => a ≤ b) =
        x :: List.merge (segment arr l' mid) (segment arr r' hi) (fun a b => a ≤ b) := by
  by_cases hlend : l ≥ mid
  · have hlt : r < arr.length := by omega
    have hget := List.getElem?_eq_getElem hlt
    obtain rfl : l = mid := le_antisymm hl hlend
    refine ⟨arr[r], l, r + 1, by simp [mergeRound, hget], le_refl _, le_refl _, by omega, by omega,
      by omega, ?_⟩
    rw [segment_self, List.nil_merge, List.nil_merge, segment_cons (by omega) hget]
  · have hlt : l < arr.length := by omega
    have hget := List.getElem?_eq_getElem hlt
    have hcons := segment_cons (by omega : l < mid) hget
    by_cases hrend : r ≥ hi
    · obtain rfl : r = hi := le_antisymm hr hrend
      refine ⟨arr[l], l + 1, r, by simp [mergeRound, hget, hlend], by omega, by omega, le_refl _,
        le_refl _, by omega, ?_⟩
      rw [segment_self, List.merge_right, List.merge_right, hcons]
    · have hlt' : r < arr.length := by omega
      have hget' := List.getElem?_eq_getElem hlt'
      have hcons' := segment_cons (by omega : r < hi) hget'
      rw [hcons, hcons', List.cons_merge_cons]
      by_cases hle : arr[l] ≤ arr[r]
      · have hcmp := compareI64_le_zero.mpr hle
        refine ⟨arr[l], l + 1, r, by simp [mergeRound, hget, hget', hlend, hrend, hcmp], by omega,
          by omega, le_refl _, by omega, by omega, ?_⟩
        rw [if_pos (by simpa using hle), hcons']
      · have hcmp := mt compareI64_le_zero.mp hle
        refine ⟨arr[r], l, r + 1, by simp [mergeRound, hget, hget', hlend, hrend, hcmp], le_refl _,
          by omega, by omega, by omega, by omega, ?_⟩
        rw [if_neg (by simpa using hle), hcons]

end MergeLoop

end CsfAssignments.Parsort
