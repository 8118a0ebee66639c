import CsfAssignments.ListSegments
import Mathlib.Order.Disjoint
import Mathlib.Order.Interval.Finset.Nat

/-!
# Footprints of array operations

An operation on an array may fail, and returns a value beside the new array. It has a footprint
if it neither reads nor writes anything outside of these indices, so that operations with
disjoint footprints commute. Footprints that are assigned to the nodes of a tree are disjoint for
any two nodes neither of which is above the other, if they are for siblings.
-/

namespace CsfAssignments.ArrayFootprints
open ListSegments

section Footprint
variable {α β γ : Type}

/-- On arrays of this length, the operation reads and writes nothing but these indices. -/
structure Footprint (n : ℕ) (S : Finset ℕ) (f : List α → Option (List α × β)) : Prop where
  length_eq : ∀ {l l' : List α} {b : β}, l.length = n → f l = some (l', b) → l'.length = n
  writes : ∀ {l l' : List α} {b : β}, l.length = n → f l = some (l', b) →
    ∀ i ∉ S, l'[i]? = l[i]?
  reads : ∀ {l m l' : List α} {b : β}, l.length = n → m.length = n →
    (∀ i ∈ S, l[i]? = m[i]?) → f l = some (l', b) →
    ∃ m', f m = some (m', b) ∧ ∀ i ∈ S, l'[i]? = m'[i]?

namespace Footprint
variable {n : ℕ} {S T : Finset ℕ} {f : List α → Option (List α × β)}
  {g : List α → Option (List α × γ)}

/-- Operations with disjoint footprints commute. -/
theorem comm (hf : Footprint n S f) (hg : Footprint n T g) (hdisj : Disjoint S T)
    {l l₁ l₂ : List α} {b : β} {c : γ} (hlen : l.length = n) (hfirst : f l = some (l₁, b))
    (hsecond : g l₁ = some (l₂, c)) :
    ∃ l₁', g l = some (l₁', c) ∧ f l₁' = some (l₂, b) := by
  have hT : ∀ i ∈ T, i ∉ S := fun i hi hS => Finset.disjoint_left.mp hdisj hS hi
  have hS : ∀ i ∈ S, i ∉ T := fun i hi hT => Finset.disjoint_left.mp hdisj hi hT
  have hlen₁ : l₁.length = n := hf.length_eq hlen hfirst
  obtain ⟨l₁', hg', hagree⟩ :=
    hg.reads hlen₁ hlen (fun i hi => hf.writes hlen hfirst i (hT i hi)) hsecond
  have hlen₁' : l₁'.length = n := hg.length_eq hlen hg'
  obtain ⟨l₂', hf', hagree'⟩ :=
    hf.reads hlen hlen₁' (fun i hi => (hg.writes hlen hg' i (hS i hi)).symm) hfirst
  have heq : l₂' = l₂ := by
    refine List.ext_getElem? fun i => ?_
    by_cases hiS : i ∈ S
    · rw [← hagree' i hiS, hg.writes hlen₁ hsecond i (hS i hiS)]
    · rw [hf.writes hlen₁' hf' i hiS]
      by_cases hiT : i ∈ T
      · rw [hagree i hiT]
      · rw [hg.writes hlen hg' i hiT, hg.writes hlen₁ hsecond i hiT, hf.writes hlen hfirst i hiS]
  exact ⟨l₁', hg', heq ▸ hf'⟩

/-- The operation is only used on arrays of the length. -/
protected theorem congr {f' : List α → Option (List α × β)} (hf : Footprint n S f)
    (h : ∀ l, l.length = n → f' l = f l) : Footprint n S f' where
  length_eq hlen heq := hf.length_eq hlen (h _ hlen ▸ heq)
  writes hlen heq := hf.writes hlen (h _ hlen ▸ heq)
  reads hlen hlen' hagree heq := by
    rw [h _ hlen] at heq
    rw [h _ hlen']
    exact hf.reads hlen hlen' hagree heq

/-- An operation that only reads. -/
theorem of_read {r : List α → Option β} (hr : ∀ l m : List α, l.length = n → m.length = n →
    (∀ i ∈ S, l[i]? = m[i]?) → r l = r m) : Footprint n S fun l => (r l).map fun b => (l, b) where
  length_eq hlen h := by
    obtain ⟨b, -, heq⟩ := Option.map_eq_some_iff.mp h
    cases heq
    exact hlen
  writes _ h := by
    obtain ⟨b, -, heq⟩ := Option.map_eq_some_iff.mp h
    cases heq
    exact fun _ _ => rfl
  reads {l m _ _} hlen hlen' hagree h := by
    obtain ⟨b, hb, heq⟩ := Option.map_eq_some_iff.mp h
    cases heq
    exact ⟨m, by rw [← hr l m hlen hlen' hagree, hb]; rfl, hagree⟩

/-- An operation that leaves the array alone. -/
theorem const (o : Option β) : Footprint n S fun l : List α => o.map fun b => (l, b) :=
  of_read fun _ _ _ _ _ => rfl

/-- Replacing a range by values that are computed from its old ones. -/
theorem overwrite_segment {lo k : ℕ} (hn : lo + k ≤ n) (new : List α → List α)
    (hnew : ∀ l, l.length = k → (new l).length = k) (b : β) :
    Footprint n (Finset.Ico lo (lo + k))
      fun l => some (overwrite l lo (new (segment l lo (lo + k))), b) := by
  have hsize (l : List α) (hlen : l.length = n) : (new (segment l lo (lo + k))).length = k :=
    hnew _ (by rw [length_segment (hn.trans_eq hlen.symm), Nat.add_sub_cancel_left])
  have hbound (l : List α) (hlen : l.length = n) :
      lo + (new (segment l lo (lo + k))).length ≤ l.length := by rw [hsize l hlen, hlen]; exact hn
  refine ⟨fun {l _ _} hlen h => ?_, fun {l _ _} hlen h i hi => ?_,
    fun {l m _ _} hlen hlen' hagree h => ?_⟩
  · cases h
    rw [length_overwrite (hbound l hlen), hlen]
  · cases h
    refine getElem?_overwrite_of_outside (hbound l hlen) ?_
    rw [hsize l hlen]
    rw [Finset.mem_Ico] at hi
    omega
  · cases h
    have hsegment : segment l lo (lo + k) = segment m lo (lo + k) :=
      segment_congr fun i hi hi' => hagree i (Finset.mem_Ico.mpr ⟨hi, hi'⟩)
    refine ⟨_, rfl, fun i hi => ?_⟩
    rw [Finset.mem_Ico] at hi
    obtain ⟨j, rfl⟩ := Nat.exists_eq_add_of_le hi.1
    have hj : j < k := by omega
    rw [getElem?_overwrite (hbound l hlen) (by rw [hsize l hlen]; exact hj),
      getElem?_overwrite (hbound m hlen') (by rw [hsize m hlen']; exact hj), hsegment]

/-- Storing a value at an index of the array. -/
theorem set (j : ℕ) (x : α) (b : β) :
    Footprint n {j} fun l => if j < l.length then some (l.set j x, b) else none := by
  refine ⟨fun hlen h => ?_, fun hlen h i hi => ?_, fun {l m _ _} hlen hlen' _ h => ?_⟩
  · split_ifs at h
    cases h
    rw [List.length_set, hlen]
  · split_ifs at h
    cases h
    exact List.getElem?_set_ne fun hj => hi (Finset.mem_singleton.mpr hj.symm)
  · split_ifs at h with hj
    cases h
    have hj' : j < m.length := by omega
    refine ⟨m.set j x, if_pos hj', fun i hi => ?_⟩
    obtain rfl := Finset.mem_singleton.mp hi
    rw [List.getElem?_set_self hj, List.getElem?_set_self hj']

end Footprint
end Footprint

section Subdivision
variable {ι β : Type} [PartialOrder β] [OrderBot β]

/-- The nodes of a tree are given by their paths. What is assigned to a node has what is assigned
to its kids, disjointly. -/
structure Subdivision (f : List ι → β) : Prop where
  le : ∀ path i, f (path ++ [i]) ≤ f path
  disjoint : ∀ path {i j}, i ≠ j → Disjoint (f (path ++ [i])) (f (path ++ [j]))

/-- Two paths neither of which leads to a node below the other part at some node. -/
theorem exists_parting {path path' : List ι} (h : ¬path <+: path') (h' : ¬path' <+: path) :
    ∃ common i j rest rest', i ≠ j ∧ path = common ++ [i] ++ rest ∧
      path' = common ++ [j] ++ rest' := by
  induction path generalizing path' with
  | nil => exact absurd List.nil_prefix h
  | cons i path ih =>
    cases path' with
    | nil => exact absurd List.nil_prefix h'
    | cons j path' =>
      by_cases hij : i = j
      · subst hij
        obtain ⟨common, k, k', rest, rest', hne, rfl, rfl⟩ :=
          ih (fun hp => h (List.cons_prefix_cons.mpr ⟨rfl, hp⟩))
            fun hp => h' (List.cons_prefix_cons.mpr ⟨rfl, hp⟩)
        exact ⟨i :: common, k, k', rest, rest', hne, rfl, rfl⟩
      · exact ⟨[], i, j, path, path', hij, rfl, rfl⟩

theorem Subdivision.le_append {f : List ι → β} (hf : Subdivision f) (path rest : List ι) :
    f (path ++ rest) ≤ f path := by
  induction rest generalizing path with
  | nil => rw [List.append_nil]
  | cons i rest ih =>
    calc f (path ++ i :: rest) = f (path ++ [i] ++ rest) := by rw [List.append_cons]
      _ ≤ f (path ++ [i]) := ih _
      _ ≤ f path := hf.le path i

/-- Nodes neither of which is above the other have nothing in common. -/
theorem Subdivision.disjoint_of_parting {f : List ι → β} (hf : Subdivision f)
    {path path' : List ι} (h : ¬path <+: path') (h' : ¬path' <+: path) :
    Disjoint (f path) (f path') := by
  obtain ⟨common, i, j, rest, rest', hij, rfl, rfl⟩ := exists_parting h h'
  exact (hf.disjoint common hij).mono (hf.le_append _ rest) (hf.le_append _ rest')

end Subdivision

end CsfAssignments.ArrayFootprints
