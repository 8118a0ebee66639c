import CsfAssignments.CacheAddressSlices
import CsfAssignments.RecencyStacks

/-!
# The sets of the cache store recency stacks

A set with orders `0 .. n-1` is a stack of tags with dirty bits, the order being the
position. Every handler acts on the stack: a hit raises the tag or leaves it in place, a
miss fills it and forgets the last tag of a full set.
-/

namespace CsfAssignments.Csim
open RecencyStacks

/-- The entries of a stack with their positions, counted from `k`. -/
def numbered : ℕ → List (Tag × Bool) → CacheSet
  | _, [] => []
  | k, (tag, dirty) :: l => (tag, ⟨k, dirty⟩) :: numbered (k + 1) l

@[simp] theorem numbered_append (k : ℕ) (l r : List (Tag × Bool)) :
    numbered k (l ++ r) = numbered k l ++ numbered (k + l.length) r := by
  induction l generalizing k with
  | nil => simp [numbered]
  | cons e l ih =>
    obtain ⟨tag, dirty⟩ := e
    simp only [List.cons_append, numbered, ih, List.length_cons, Nat.add_assoc, Nat.add_comm 1]

@[simp] theorem length_numbered (k : ℕ) (l : List (Tag × Bool)) :
    (numbered k l).length = l.length := by
  induction l generalizing k with
  | nil => rfl
  | cons e l ih => simp [numbered, ih]

@[simp] theorem map_fst_numbered (k : ℕ) (l : List (Tag × Bool)) :
    (numbered k l).map Prod.fst = l.map Prod.fst := by
  induction l generalizing k with
  | nil => rfl
  | cons e l ih => simp [numbered, ih]

theorem map_order_numbered (k : ℕ) (l : List (Tag × Bool)) :
    (numbered k l).map (fun e => e.2.first) = List.range' k l.length := by
  induction l generalizing k with
  | nil => rfl
  | cons e l ih => simp [numbered, ih, List.range'_succ]

theorem order_of_mem_numbered {k : ℕ} {l : List (Tag × Bool)} {e : Tag × Block}
    (he : e ∈ numbered k l) : k ≤ e.2.first ∧ e.2.first < k + l.length := by
  have hm : e.2.first ∈ (numbered k l).map (fun e => e.2.first) := List.mem_map_of_mem he
  rw [map_order_numbered] at hm
  simpa using List.mem_range'_1.mp hm

theorem tag_of_mem_numbered {k : ℕ} {l : List (Tag × Bool)} {tag : Tag}
    (hl : ∀ e ∈ l, e.1 ≠ tag) : ∀ e ∈ numbered k l, e.1 ≠ tag := by
  intro e he htag
  have hm : e.1 ∈ (numbered k l).map Prod.fst := List.mem_map_of_mem he
  rw [map_fst_numbered] at hm
  obtain ⟨e', he', htag'⟩ := List.mem_map.mp hm
  exact hl e' he' (htag'.trans htag)

/-- A set stores a stack: its blocks are the entries, ordered by position. -/
def Stores (s : CacheSet) {n : ℕ} (stack : KeyedStack Tag Bool n) : Prop :=
  s.Perm (numbered 0 stack.entries)

/-- A full stack has a last entry. -/
theorem exists_last_of_full {cfg : Config} (hv : cfg.Sized) {l : List (Tag × Bool)}
    (hfull : l.length = cfg.ways) : ∃ before e, l = before ++ [e] := by
  refine (List.eq_nil_or_concat' l).resolve_left ?_
  rintro rfl
  exact hv.ways_pos.ne hfull

namespace Stores

variable {s : CacheSet} {n : ℕ} {stack : KeyedStack Tag Bool n} {tag : Tag}

theorem perm {s' : CacheSet} (h : Stores s stack) (hp : s.Perm s') : Stores s' stack :=
  hp.symm.trans h

theorem length_eq (h : Stores s stack) : s.length = stack.entries.length := by
  simpa using List.Perm.length_eq h

theorem keys_perm (h : Stores s stack) : (s.map Prod.fst).Perm stack.keys := by
  simpa [KeyedStack.keys] using List.Perm.map Prod.fst h

theorem nodup (h : Stores s stack) : (s.map Prod.fst).Nodup :=
  h.keys_perm.nodup_iff.mpr stack.nodup

/-- The orders of the blocks are `0 .. n-1`, each once. -/
theorem orders_perm (h : Stores s stack) :
    (s.map (fun e => e.2.first)).Perm (List.range s.length) := by
  have hp := List.Perm.map (fun e : Tag × Block => e.2.first) h
  rwa [map_order_numbered, ← List.range_eq_range', ← h.length_eq] at hp

theorem isHit_iff (h : Stores s stack) : isHit s tag = true ↔ tag ∈ stack.keys := by
  rw [← h.keys_perm.mem_iff]
  simp [isHit]

theorem isHit_eq (h : Stores s stack) : isHit s tag = decide (tag ∈ stack.keys) := by
  rw [Bool.eq_iff_iff, h.isHit_iff]
  simp

private theorem find_eq_of_mem {e : Tag × Block} (hn : (s.map Prod.fst).Nodup) (he : e ∈ s) :
    s.find? (fun e' => e'.1 = e.1) = some e := by
  induction s with
  | nil => simp at he
  | cons e' s ih =>
    obtain ⟨hne, hn⟩ := List.nodup_cons.mp hn
    rcases List.mem_cons.mp he with rfl | he
    · simp
    · have htag : e'.1 ≠ e.1 := fun h => hne (h ▸ List.mem_map_of_mem he)
      simpa [htag] using ih hn he

theorem order_eq (h : Stores s stack) {d : Bool} {l r : List (Tag × Bool)}
    (hs : stack.entries = l ++ (tag, d) :: r) : order s tag = l.length := by
  have hm : (tag, (⟨l.length, d⟩ : Block)) ∈ s := by
    refine (List.Perm.mem_iff h).mpr ?_
    simp [hs, numbered]
  rw [order, find_eq_of_mem h.nodup hm]
  rfl

theorem order_of_mem (h : Stores s stack) {b : Block} (hb : (tag, b) ∈ s) :
    b.first = stack.keys.idxOf tag := by
  have ht : tag ∈ stack.keys := h.keys_perm.mem_iff.mp (List.mem_map_of_mem hb)
  obtain ⟨l, d, r, hs, hl, -⟩ := stack.split_of_mem ht
  have hord : order s tag = b.first := by
    rw [order, find_eq_of_mem h.nodup hb]
    rfl
  have hn : tag ∉ l.map Prod.fst := by
    rintro hm
    obtain ⟨e, he, hea⟩ := List.mem_map.mp hm
    exact hl e he hea
  rw [← hord, h.order_eq hs, KeyedStack.keys, hs, List.map_append, List.idxOf_append_of_notMem hn]
  simp

/-- The tags with their orders are the keys with their positions. -/
theorem orders_zip (h : Stores s stack) :
    (s.map (fun e => (e.1, e.2.first))).Perm stack.keys.zipIdx := by
  have hnum : ∀ k (l : List (Tag × Bool)),
      (numbered k l).map (fun e => (e.1, e.2.first)) = (l.map Prod.fst).zipIdx k := by
    intro k l
    induction l generalizing k with
    | nil => rfl
    | cons e l ih => simp [numbered, ih, List.zipIdx_cons]
  have hp := List.Perm.map (fun e : Tag × Block => (e.1, e.2.first)) h
  rwa [hnum] at hp

end Stores

@[simp] theorem increment_fst (e : Tag × Block) : (increment e).1 = e.1 := rfl

private theorem increment_entry {k : ℕ} (hk : k + 1 < 2 ^ 64) (tag : Tag) (d : Bool) :
    increment (tag, ⟨k, d⟩) = (tag, ⟨k + 1, d⟩) := by
  simp only [increment, Nat.mod_eq_of_lt hk]

private theorem subscript_of_isHit {s : CacheSet} {tag : Tag} (h : isHit s tag = true) :
    subscript s tag = s := by
  rw [subscript, if_pos h]

/-- What the LRU loop and the assignment of order 0 do to one block. -/
private def raiseEntry (m : ℕ) (tag : Tag) (e : Tag × Block) : Tag × Block :=
  if e.1 = tag then (e.1, { e.2 with first := 0 }) else if e.2.first < m then increment e else e

private theorem setFirst_incrementBelow {s : CacheSet} {tag : Tag} (h : isHit s tag = true)
    (m : ℕ) : setFirst (incrementBelow s m) tag 0 = s.map (raiseEntry m tag) := by
  have hit : isHit (incrementBelow s m) tag = true := by
    rw [← h]
    simp only [isHit, incrementBelow, List.any_map]
    congr 1
    funext e
    by_cases hm : e.2.first < m <;> simp [hm]
  rw [setFirst, subscript_of_isHit hit, incrementBelow, List.map_map]
  refine List.map_congr_left fun e _ => ?_
  by_cases hm : e.2.first < m <;> by_cases ht : e.1 = tag <;>
    simp [raiseEntry, increment, hm, ht]

private theorem map_raiseEntry_below {k m : ℕ} {l : List (Tag × Bool)} {tag : Tag}
    (hl : ∀ e ∈ l, e.1 ≠ tag) (hk : k + l.length ≤ m) (hm : m < 2 ^ 64) :
    (numbered k l).map (raiseEntry m tag) = numbered (k + 1) l := by
  induction l generalizing k with
  | nil => rfl
  | cons e l ih =>
    have hne : e.1 ≠ tag := hl e List.mem_cons_self
    simp only [List.length_cons] at hk
    have hlt : k < m := by omega
    simp only [numbered, List.map_cons]
    rw [ih (fun e he => hl e (List.mem_cons_of_mem _ he)) (by omega), raiseEntry, if_neg hne,
      if_pos hlt, increment_entry (by omega)]

private theorem map_raiseEntry_above {k m : ℕ} {l : List (Tag × Bool)} {tag : Tag}
    (hl : ∀ e ∈ l, e.1 ≠ tag) (hk : m ≤ k) :
    (numbered k l).map (raiseEntry m tag) = numbered k l := by
  induction l generalizing k with
  | nil => rfl
  | cons e l ih =>
    have hne : e.1 ≠ tag := hl e List.mem_cons_self
    have hlt : ¬k < m := by omega
    simp only [numbered, List.map_cons]
    rw [ih (fun e he => hl e (List.mem_cons_of_mem _ he)) (by omega)]
    simp [raiseEntry, hne, hlt]

private theorem map_setSecond_numbered (k : ℕ) (l : List (Tag × Bool)) (tag : Tag) (b : Bool) :
    (numbered k l).map (fun e => if e.1 = tag then (e.1, { e.2 with second := b }) else e) =
      numbered k (l.map (fun e => if e.1 = tag then (e.1, b) else e)) := by
  induction l generalizing k with
  | nil => rfl
  | cons e l ih =>
    simp only [numbered, List.map_cons, ih]
    by_cases h : e.1 = tag <;> simp [h]

private theorem map_increment_numbered {k : ℕ} {l : List (Tag × Bool)}
    (hk : k + l.length < 2 ^ 64) : (numbered k l).map increment = numbered (k + 1) l := by
  induction l generalizing k with
  | nil => rfl
  | cons e l ih =>
    simp only [List.length_cons] at hk
    rw [numbered, List.map_cons, ih (by omega), increment_entry (by omega), numbered]

private theorem setFirst_setSecond_absent {s : CacheSet} {tag : Tag} (hs : ∀ e ∈ s, e.1 ≠ tag)
    (b : Bool) : setSecond (setFirst s tag 0) tag b = s ++ [(tag, ⟨0, b⟩)] := by
  have hmiss : isHit s tag = false := by simpa [isHit] using fun t d h => hs (t, d) h
  have hkeep : ∀ f : Tag × Block → Tag × Block,
      s.map (fun e => if e.1 = tag then f e else e) = s := fun f =>
    (List.map_congr_left fun e he => if_neg (hs e he)).trans (List.map_id s)
  have hfirst : setFirst s tag 0 = s ++ [(tag, ⟨0, false⟩)] := by
    rw [setFirst, subscript, hmiss, if_neg Bool.false_ne_true, List.map_append, hkeep]
    simp
  rw [hfirst, setSecond, subscript_of_isHit (by simp [isHit]), List.map_append, hkeep]
  simp

/-- A second assignment to a dirty bit replaces the first. -/
theorem setSecond_setSecond (s : CacheSet) (tag : Tag) (b b' : Bool) :
    setSecond (setSecond s tag b) tag b' = setSecond s tag b' := by
  have hit : isHit (setSecond s tag b) tag = true := by
    have hsub : isHit (subscript s tag) tag = true := by
      by_cases h : isHit s tag = true
      · rw [subscript_of_isHit h, h]
      · rw [subscript, if_neg h]
        simp [isHit]
    rw [← hsub]
    simp only [isHit, setSecond, List.any_map]
    congr 1
    funext e
    by_cases ht : e.1 = tag <;> simp [ht]
  rw [setSecond, subscript_of_isHit hit, setSecond, setSecond, List.map_map]
  refine List.map_congr_left fun e _ => ?_
  by_cases ht : e.1 = tag <;> simp [ht]

namespace Stores

variable {s : CacheSet} {n : ℕ} {stack : KeyedStack Tag Bool n} {tag : Tag}

/-- The LRU update of a hit raises the tag. -/
theorem raise (h : Stores s stack) (ht : tag ∈ stack.keys) (hn : n < 2 ^ 64) :
    Stores (setFirst (incrementBelow s (order s tag)) tag 0) (stack.raise tag) := by
  obtain ⟨l, d, r, hs, hl, hr⟩ := stack.split_of_mem ht
  have hlen : l.length < n := by
    have hb := stack.bounded
    simp only [hs, List.length_append, List.length_cons] at hb
    omega
  have hp := List.Perm.map (raiseEntry (order s tag) tag) h
  rw [hs, h.order_eq hs, numbered_append, List.map_append,
    map_raiseEntry_below hl (by omega) (by omega)] at hp
  simp only [numbered, List.map_cons, Nat.zero_add] at hp
  rw [map_raiseEntry_above hr (by omega)] at hp
  rw [Stores, KeyedStack.entries_raise_of_split hs hl hr, numbered, numbered_append,
    h.order_eq hs, setFirst_incrementBelow (h.isHit_iff.mpr ht)]
  refine hp.trans ?_
  simp [raiseEntry, Nat.add_comm 1]

/-- An assignment to the dirty bit of a resident tag. -/
theorem adjust (h : Stores s stack) (ht : tag ∈ stack.keys) (b : Bool) :
    Stores (setSecond s tag b) (stack.adjust tag (fun _ => b)) := by
  have hp := List.Perm.map
    (fun e : Tag × Block => if e.1 = tag then (e.1, { e.2 with second := b }) else e) h
  rw [map_setSecond_numbered] at hp
  rwa [Stores, KeyedStack.entries_adjust, setSecond, subscript_of_isHit (h.isHit_iff.mpr ht)]

/-- Ageing every block and inserting an absent tag with order 0. -/
theorem insert {l : List (Tag × Bool)} (h : s.Perm (numbered 0 l)) (hl : ∀ e ∈ l, e.1 ≠ tag)
    (hlen : l.length < 2 ^ 64) (b : Bool) :
    (setSecond (setFirst (s.map increment) tag 0) tag b).Perm (numbered 0 ((tag, b) :: l)) := by
  have hp := List.Perm.map increment h
  rw [map_increment_numbered (by omega)] at hp
  have hne : ∀ e ∈ s.map increment, e.1 ≠ tag := fun e he =>
    tag_of_mem_numbered hl e (hp.mem_iff.mp he)
  rw [setFirst_setSecond_absent hne, numbered]
  exact (List.perm_append_singleton _ _).trans (hp.cons _)

end Stores
end CsfAssignments.Csim
