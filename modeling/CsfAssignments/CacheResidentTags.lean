import CsfAssignments.CacheRefinement

/-!
# The resident tags evolve without their dirty bits

Which tags a set holds, and in which order, depends on the accesses, on the eviction
policy and on write-allocate only. The tags that an access forgets are the evicted blocks,
and the write-back charge counts the dirty ones among them.
-/

namespace CsfAssignments.Csim
open RecencyStacks

def Access.isStore : Access → Bool
  | .load _ => false
  | .store _ => true

instance lawfulBEq_tag : LawfulBEq Tag := inferInstance

/-- The effect of an access on the tags of its set. -/
def tagAccess (cfg : Config) (a : Access) (tags : List Tag) : List Tag :=
  let tag := cfg.tag a.address
  if tag ∈ tags then if cfg.lru then touch cfg.ways tag tags else tags
  else
    match a with
    | .load _ => touch cfg.ways tag tags
    | .store _ => if cfg.writeAllocate then touch cfg.ways tag tags else tags

/-- The tags of all sets after the listed accesses, the latest first. -/
def residentTags (cfg : Config) : List Access → ℕ → List Tag
  | [] => fun _ => []
  | a :: as => Function.update (residentTags cfg as) (cfg.index a.address)
      (tagAccess cfg a (residentTags cfg as (cfg.index a.address)))

/-- The cost of an access apart from the write-back of a victim. -/
def accessCost (cfg : Config) (a : Access) (hit : Bool) : ℤ :=
  let memory := if cfg.writeThrough then 100 else 0
  match a with
  | .load _ => if hit then 1 else cfg.byteNum * 25
  | .store _ =>
      if hit then 1 + memory
      else if cfg.writeAllocate then 25 * cfg.byteNum + 1 + memory else 100

/-- The blocks that left the cache between two states, with their dirty bits. -/
def evicted (cfg : Config) (c c' : Cache) : List (ℕ × Bool) :=
  (c.data.zip c'.data).zipIdx.flatMap fun p =>
    (p.1.1.filter (fun e => !isHit p.1.2 e.1)).map (fun e => (cfg.blockAt p.2 e.1, e.2.second))

/-- The entries of a stack whose tags an access forgets. -/
def forgotten (cfg : Config) (a : Access) (stack : cfg.Stack) : List (Tag × Bool) :=
  stack.entries.filter (fun e => e.1 ∉ (stackAccess cfg a stack).keys)

section Tags

variable {cfg : Config}

theorem tagAccess_of_mem {a : Access} {tags : List Tag} (ht : cfg.tag a.address ∈ tags) :
    tagAccess cfg a tags = if cfg.lru then touch cfg.ways (cfg.tag a.address) tags else tags := by
  simp only [tagAccess, if_pos ht]

theorem tagAccess_of_notMem {a : Access} {tags : List Tag} (ht : cfg.tag a.address ∉ tags) :
    tagAccess cfg a tags =
      if a.isStore = false ∨ cfg.writeAllocate = true then
        touch cfg.ways (cfg.tag a.address) tags
      else tags := by
  cases a <;> simp [tagAccess, ht, Access.isStore]

theorem residentTags_cons (cfg : Config) (a : Access) (as : List Access) (i : ℕ) :
    residentTags cfg (a :: as) i =
      if i = cfg.index a.address then tagAccess cfg a (residentTags cfg as i)
      else residentTags cfg as i := by
  rw [residentTags]
  by_cases hi : i = cfg.index a.address
  · rw [if_pos hi, hi, Function.update_self]
  · rw [if_neg hi, Function.update_of_ne hi]

theorem keys_stackAccess (hv : cfg.Sized) (a : Access) (stack : cfg.Stack) :
    (stackAccess cfg a stack).keys = tagAccess cfg a stack.keys := by
  have hfill := fun d => KeyedStack.keys_fill hv.ways_pos (cfg.tag a.address) d stack
  by_cases ht : cfg.tag a.address ∈ stack.keys
  · have hreorder : (if cfg.lru then stack.raise (cfg.tag a.address) else stack).keys =
        if cfg.lru then touch cfg.ways (cfg.tag a.address) stack.keys else stack.keys := by
      cases cfg.lru with
      | false => rfl
      | true => exact KeyedStack.keys_raise ht
    rw [tagAccess_of_mem ht, ← hreorder]
    cases a with
    | load address => simp [stackAccess, ht]
    | store address => cases hw : cfg.writeThrough <;> simp [stackAccess, ht, hw]
  · cases a with
    | load address => simpa [stackAccess, tagAccess, ht] using hfill false
    | store address =>
      cases ha : cfg.writeAllocate with
      | true => simpa [stackAccess, tagAccess, ht, ha] using hfill (!cfg.writeThrough)
      | false => simp [stackAccess, tagAccess, ht, ha]

theorem keys_recencyStacks (hv : cfg.Sized) (as : List Access) (i : ℕ) :
    (recencyStacks cfg as i).keys = residentTags cfg as i := by
  induction as generalizing i with
  | nil => rfl
  | cons a as ih =>
    rw [recencyStacks, residentTags]
    by_cases hi : i = cfg.index a.address
    · subst hi
      rw [Function.update_self, Function.update_self, keys_stackAccess hv, ih]
    · rw [Function.update_of_ne hi, Function.update_of_ne hi, ih]

end Tags

section Evictions

variable {cfg : Config}

/-- Filling an absent tag into a stack forgets at most its last entry, which is charged
for when it is dirty. -/
private theorem lost_of_fill (hv : cfg.Sized) {stack : cfg.Stack} {tag : Tag}
    (ht : tag ∉ stack.keys) (d : Bool) :
    (stack.entries.filter (fun e => e.1 ∉ (stack.fill tag d).keys)).length ≤ 1 ∧
      writeBack cfg stack = cfg.byteNum * 25 *
        (stack.entries.filter (fun e => e.1 ∉ (stack.fill tag d).keys)).countP Prod.snd := by
  have hkeep : ∀ l : List (Tag × Bool), (stack.fill tag d).entries = (tag, d) :: l →
      l.filter (fun e => e.1 ∉ (stack.fill tag d).keys) = [] := by
    intro l hl
    refine List.filter_eq_nil_iff.mpr fun e he => ?_
    have hm : e.1 ∈ (stack.fill tag d).keys := by
      rw [KeyedStack.keys, hl]
      exact List.mem_map_of_mem (List.mem_cons_of_mem _ he)
    simpa using hm
  by_cases hfull : stack.entries.length = cfg.ways
  · obtain ⟨l, e, hs⟩ := exists_last_of_full hv hfull
    have hfill := stack.entries_fill_of_full ht d hs hfull
    have hne : e.1 ≠ tag := stack.ne_of_notMem_keys ht e (by simp [hs])
    have hnodup := stack.nodup
    rw [hs, List.map_append, List.nodup_append] at hnodup
    have hlost : e.1 ∉ (stack.fill tag d).keys := by
      rw [KeyedStack.keys, hfill, List.map_cons, List.mem_cons, not_or]
      exact ⟨hne, fun hm => hnodup.2.2 _ hm _ (by simp) rfl⟩
    have hlast : stack.entries.filter (fun e => e.1 ∉ (stack.fill tag d).keys) = [e] := by
      rw [hs, List.filter_append, hkeep l hfill, List.filter_cons_of_pos (by simpa using hlost)]
      rfl
    have hlen : l.length + 1 = cfg.ways := by simpa [hs] using hfull
    rw [hlast]
    refine ⟨le_rfl, ?_⟩
    obtain ⟨t, b⟩ := e
    cases b <;> simp [writeBack, hs, hlen]
  · have hlt := lt_of_le_of_ne stack.bounded hfull
    rw [hkeep _ (stack.entries_fill_of_lt ht d hlt)]
    simp [writeBack, hfull]

/-- The cycles of an access: its own cost and one write-back for a dirty victim. -/
theorem account_cycles (hv : cfg.Sized) (a : Access) (stack : cfg.Stack) (c : Cache) :
    (forgotten cfg a stack).length ≤ 1 ∧
      (account cfg a stack c).cycles =
        c.cycles + accessCost cfg a (decide (cfg.tag a.address ∈ stack.keys)) +
          cfg.byteNum * 25 * (forgotten cfg a stack).countP Prod.snd := by
  have hkeep : stack.entries.filter (fun e => e.1 ∉ stack.keys) = [] := by
    refine List.filter_eq_nil_iff.mpr fun e he => ?_
    have hm : e.1 ∈ stack.keys := List.mem_map_of_mem he
    simpa using hm
  by_cases ht : cfg.tag a.address ∈ stack.keys
  · have hnone : forgotten cfg a stack = [] := by
      refine List.filter_eq_nil_iff.mpr fun e he => ?_
      have hm : e.1 ∈ tagAccess cfg a stack.keys := by
        rw [tagAccess_of_mem ht]
        have he' : e.1 ∈ stack.keys := List.mem_map_of_mem he
        have hlen : stack.keys.length ≤ cfg.ways := by simpa [KeyedStack.keys] using stack.bounded
        cases cfg.lru with
        | false => exact he'
        | true =>
          rw [if_pos rfl, touch_of_mem ht hlen]
          by_cases heq : e.1 = cfg.tag a.address <;> simp [heq, he']
      simpa [keys_stackAccess hv] using hm
    rw [hnone]
    cases a with
    | load address => simp [account, accessCost, ht]
    | store address => simp [account, accessCost, ht, add_assoc]
  · cases a with
    | load address =>
      have hlost := lost_of_fill hv ht false
      have hstack : stackAccess cfg (.load address) stack =
          stack.fill (cfg.tag (Access.load address).address) false := by
        simp only [stackAccess, if_neg ht]
      rw [forgotten, hstack]
      refine ⟨hlost.1, ?_⟩
      rw [← hlost.2]
      simp only [account, accessCost, if_neg ht, decide_eq_true_eq]
      ring
    | store address =>
      cases ha : cfg.writeAllocate with
      | true =>
        have hlost := lost_of_fill hv ht (!cfg.writeThrough)
        have hstack : stackAccess cfg (.store address) stack =
            stack.fill (cfg.tag (Access.store address).address) (!cfg.writeThrough) := by
          simp only [stackAccess, if_neg ht, ha, if_true]
        rw [forgotten, hstack]
        refine ⟨hlost.1, ?_⟩
        rw [← hlost.2]
        simp only [account, accessCost, if_neg ht, decide_eq_true_eq, ha, if_true]
        ring
      | false =>
        have hstack : stackAccess cfg (.store address) stack = stack := by
          simp only [stackAccess, if_neg ht, ha, Bool.false_eq_true, if_false]
        rw [forgotten, hstack, hkeep]
        simp [account, accessCost, ht, ha]

private theorem flatMap_zip_self {α β : Type*} {f : (α × α) × ℕ → List β}
    (hf : ∀ x k, f ((x, x), k) = []) (l : List α) (k : ℕ) :
    ((l.zip l).zipIdx k).flatMap f = [] := by
  induction l generalizing k with
  | nil => rfl
  | cons x l ih => simp [List.zipIdx_cons, hf, ih]

private theorem flatMap_zip_set {α β : Type*} {f : (α × α) × ℕ → List β}
    (hf : ∀ x k, f ((x, x), k) = []) {l : List α} {i : ℕ} {x : α} (hget : l[i]? = some x) (y : α)
    (k : ℕ) : ((l.zip (l.set i y)).zipIdx k).flatMap f = f ((x, y), k + i) := by
  induction l generalizing i k with
  | nil => simp at hget
  | cons z l ih =>
    cases i with
    | zero =>
      have hz : z = x := by simpa using hget
      simp [List.zipIdx_cons, hz, flatMap_zip_self hf]
    | succ i =>
      have hrest := ih (by simpa using hget) (k + 1)
      simpa [List.zipIdx_cons, hf, Nat.add_assoc, Nat.add_comm 1] using hrest

/-- Only the accessed set loses blocks. -/
private theorem evicted_set {c c' : Cache} {i : ℕ} {s s' : CacheSet}
    (hget : c.data[i]? = some s) (hset : c'.data = c.data.set i s') :
    evicted cfg c c' =
      (s.filter (fun e => !isHit s' e.1)).map (fun e => (cfg.blockAt i e.1, e.2.second)) := by
  have hself : ∀ (s : CacheSet) (k : ℕ),
      (s.filter (fun e => !isHit s e.1)).map (fun e => (cfg.blockAt k e.1, e.2.second)) = [] := by
    intro s k
    rw [List.map_eq_nil_iff]
    refine List.filter_eq_nil_iff.mpr fun e he => ?_
    have hit : isHit s e.1 = true := List.any_eq_true.mpr ⟨e, he, by simp⟩
    simp [hit]
  rw [evicted, hset, flatMap_zip_set hself hget, Nat.zero_add]

private theorem map_numbered (k : ℕ) (l : List (Tag × Bool)) :
    (numbered k l).map (fun e => (e.1, e.2.second)) = l := by
  induction l generalizing k with
  | nil => rfl
  | cons e l ih => simp [numbered, ih]

/-- The tags of a set with their dirty bits are the entries of its stack. -/
theorem Stores.dirty_perm {s : CacheSet} {n : ℕ} {stack : KeyedStack Tag Bool n}
    (h : Stores s stack) : (s.map (fun e => (e.1, e.2.second))).Perm stack.entries := by
  have hp := List.Perm.map (fun e : Tag × Block => (e.1, e.2.second)) h
  rwa [map_numbered] at hp

/-- An access evicts the blocks whose tags the stack of its set forgets. -/
theorem Simulates.step {c : Cache} {as : List Access} (hv : cfg.Sized) (h : Simulates cfg c as)
    (a : Access) :
    ∃ c', hits cfg c a.address =
        some (decide (cfg.tag a.address ∈ residentTags cfg as (cfg.index a.address))) ∧
      Csim.perform cfg c a = some c' ∧ Simulates cfg c' (a :: as) ∧
      (evicted cfg c c').Perm ((forgotten cfg a (recencyStacks cfg as (cfg.index a.address))).map
        (fun e => (cfg.blockAt (cfg.index a.address) e.1, e.2))) := by
  obtain ⟨test, c', hp, hsim⟩ := h.perform hv a
  rw [keys_recencyStacks hv] at test
  refine ⟨c', test, hp, hsim, ?_⟩
  have hi : cfg.index a.address < c.data.length := h.length_eq ▸ hv.index_lt a.address
  have hget := List.getElem?_eq_getElem hi
  have hst := h.stores _ _ hget
  obtain ⟨-, s', hp', hst'⟩ := perform_eq hv a hst hget
  have hset : c'.data = c.data.set (cfg.index a.address) s' := by
    rw [Option.some.inj (hp.symm.trans hp')]
  rw [evicted_set hget hset]
  have hlost : (c.data[cfg.index a.address].filter (fun e => !isHit s' e.1)).map
      (fun e => (cfg.blockAt (cfg.index a.address) e.1, e.2.second)) =
      ((c.data[cfg.index a.address].map (fun e => (e.1, e.2.second))).filter
        (fun e => e.1 ∉ (stackAccess cfg a (recencyStacks cfg as (cfg.index a.address))).keys)).map
        (fun e => (cfg.blockAt (cfg.index a.address) e.1, e.2)) := by
    rw [List.filter_map, List.map_map]
    congr 2
    funext e
    simp [hst'.isHit_eq]
  rw [hlost]
  exact (hst.dirty_perm.filter _).map _

end Evictions
end CsfAssignments.Csim
