import Mathlib.Data.List.Sort

/-!
# Segments of an array

An array is a list, and the segment from one index to another is a list as well. Sorting is
the merge sort of the library, which is the only sorted permutation, so that merging two
sorted segments sorts their concatenation.
-/

namespace CsfAssignments.ListSegments

section Segment
variable {α : Type}

def segment (l : List α) (lo hi : ℕ) : List α := (l.take hi).drop lo

/-- The list with the values from `lo` on replaced. -/
def overwrite (l : List α) (lo : ℕ) (new : List α) : List α :=
  l.take lo ++ new ++ l.drop (lo + new.length)

variable {l l' : List α} {lo mid hi : ℕ}

theorem length_segment (h : hi ≤ l.length) : (segment l lo hi).length = hi - lo := by
  rw [segment, List.length_drop, List.length_take, min_eq_left h]

theorem segment_self (l : List α) (lo : ℕ) : segment l lo lo = [] :=
  List.drop_of_length_le (List.length_take_le _ _)

theorem segment_zero (l : List α) (hi : ℕ) : segment l 0 hi = l.take hi := by
  rw [segment, List.drop_zero]

theorem segment_zero_length (l : List α) : segment l 0 l.length = l := by
  rw [segment_zero, List.take_length]

theorem getElem?_segment (i : ℕ) :
    (segment l lo hi)[i]? = if lo + i < hi then l[lo + i]? else none := by
  rw [segment, List.getElem?_drop, List.getElem?_take]

theorem segment_append (hlo : lo ≤ mid) (hhi : mid ≤ hi) :
    segment l lo mid ++ segment l mid hi = segment l lo hi := by
  have htake : l.take mid = (l.take hi).take mid := by rw [List.take_take, min_eq_left hhi]
  have hdrop : (l.take hi).drop mid = ((l.take hi).drop lo).drop (mid - lo) := by
    rw [List.drop_drop, Nat.add_sub_cancel' hlo]
  rw [segment, segment, segment, htake, List.drop_take, hdrop, List.take_append_drop]

theorem segment_cons (hlo : lo < hi) {x : α} (hx : l[lo]? = some x) :
    segment l lo hi = x :: segment l (lo + 1) hi := by
  have hlen := (List.getElem?_eq_some_iff.mp hx).1
  have hx' : (l.take hi)[lo]? = some x := by rw [List.getElem?_take, if_pos hlo, hx]
  obtain ⟨hlt, hget⟩ := List.getElem?_eq_some_iff.mp hx'
  rw [segment, List.drop_eq_getElem_cons hlt, hget]
  rfl

/-- Arrays that agree on a range have the same segment. -/
theorem segment_congr (h : ∀ i, lo ≤ i → i < hi → l[i]? = l'[i]?) :
    segment l lo hi = segment l' lo hi := by
  refine List.ext_getElem? fun i => ?_
  rw [getElem?_segment, getElem?_segment]
  split_ifs with hi'
  · exact h _ (Nat.le_add_right _ _) hi'
  · rfl

theorem length_overwrite {new : List α} (h : lo + new.length ≤ l.length) :
    (overwrite l lo new).length = l.length := by
  simp only [overwrite, List.length_append, List.length_take, List.length_drop]
  omega

theorem getElem?_overwrite_of_outside {new : List α} (h : lo + new.length ≤ l.length) {i : ℕ}
    (hi' : i < lo ∨ lo + new.length ≤ i) : (overwrite l lo new)[i]? = l[i]? := by
  have hlen : (l.take lo).length = lo := by
    rw [List.length_take]
    omega
  rcases hi' with hi' | hi'
  · rw [overwrite, List.append_assoc, List.getElem?_append_left (by omega), List.getElem?_take,
      if_pos hi']
  · rw [overwrite, List.getElem?_append_right (by rw [List.length_append]; omega),
      List.length_append, List.getElem?_drop, hlen]
    congr 1
    omega

theorem segment_overwrite {new : List α} (h : lo + new.length ≤ l.length) :
    segment (overwrite l lo new) lo (lo + new.length) = new := by
  have hlen : (l.take lo).length = lo := by
    rw [List.length_take]
    omega
  rw [segment, overwrite, List.take_left' (by rw [List.length_append, hlen])]
  exact List.drop_left' hlen

theorem getElem?_overwrite {new : List α} (h : lo + new.length ≤ l.length) {i : ℕ}
    (hi' : i < new.length) : (overwrite l lo new)[lo + i]? = new[i]? := by
  have hget := congrArg (fun l => l[i]?) (segment_overwrite h)
  simp only [getElem?_segment] at hget
  rwa [if_pos (by omega)] at hget

@[simp] theorem overwrite_nil (l : List α) (lo : ℕ) : overwrite l lo [] = l := by
  simp [overwrite]

/-- Storing the values one after another. -/
theorem overwrite_set (hlo : lo < l.length) (x : α) (new : List α) :
    overwrite (l.set lo x) (lo + 1) new = overwrite l lo (x :: new) := by
  have htake : (l.set lo x).take (lo + 1) = l.take lo ++ [x] := by
    rw [List.take_succ_eq_append_getElem (by rwa [List.length_set]), List.take_set_of_le (le_refl _),
      List.getElem_set_self]
  rw [overwrite, overwrite, htake, List.drop_set_of_lt (by omega), List.length_cons,
    List.append_assoc (l.take lo), List.singleton_append, Nat.add_right_comm, Nat.add_assoc]

/-- Storing the next value of a segment behind those already stored. -/
theorem segment_set_succ (hlo : lo ≤ hi) (hhi : hi < l.length) (x : α) :
    segment (l.set hi x) lo (hi + 1) = segment l lo hi ++ [x] := by
  have hlast : segment (l.set hi x) hi (hi + 1) = [x] := by
    have hget : (l.set hi x)[hi]? = some x := by rw [List.getElem?_set_self hhi]
    rw [segment_cons (Nat.lt_succ_self hi) hget, segment_self]
  rw [← segment_append hlo (Nat.le_succ hi), hlast]
  congr 1
  exact segment_congr fun i _ hi' => List.getElem?_set_ne (by omega)

end Segment

section Sorting
variable {α : Type} [LinearOrder α]

def sorted (l : List α) : List α := l.mergeSort (fun a b => a ≤ b)

theorem sorted_perm (l : List α) : (sorted l).Perm l := List.mergeSort_perm l _

theorem sorted_pairwise (l : List α) : (sorted l).Pairwise (fun a b => a ≤ b) :=
  List.pairwise_mergeSort' _ l

/-- The only sorted permutation. -/
theorem eq_sorted {l l' : List α} (hperm : l'.Perm l) (hsorted : l'.Pairwise (fun a b => a ≤ b)) :
    l' = sorted l :=
  List.Perm.eq_of_pairwise (fun _ _ _ _ => le_antisymm) hsorted (sorted_pairwise l)
    (hperm.trans (sorted_perm l).symm)

theorem length_sorted (l : List α) : (sorted l).length = l.length := (sorted_perm l).length_eq

/-- Merging sorted lists sorts their concatenation. -/
theorem merge_sorted (l r : List α) :
    List.merge (sorted l) (sorted r) (fun a b => a ≤ b) = sorted (l ++ r) := by
  refine eq_sorted ?_ ?_
  · exact (List.merge_perm_append _).trans ((sorted_perm l).append (sorted_perm r))
  · exact (sorted_pairwise l).merge (sorted_pairwise r)

end Sorting
end CsfAssignments.ListSegments
