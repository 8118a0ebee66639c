import CsfAssignments.CacheResidentTags

/-!
# FIFO residency is the window of the latest insertions

Under FIFO the tags of a set are its latest `blockNum` insertions, each at the number of
later insertions into the set. A hit changes no tag and no order.
-/

namespace CsfAssignments.Csim
open RecencyStacks

/-- The block an access inserts: a load miss, or a store miss under write-allocate. -/
def inserts (cfg : Config) : Access × Bool → Option ℕ
  | (.load address, hit) => if hit then none else some (cfg.block address)
  | (.store address, hit) =>
      if !hit && cfg.writeAllocate then some (cfg.block address) else none

/-- The blocks inserted into one set, the latest first. -/
def insertions (cfg : Config) (index : ℕ) (h : List (Access × Bool)) : List ℕ :=
  (h.filterMap (inserts cfg)).filter (fun b => b % cfg.sets = index)

/-- The blocks resident in a set, in its iteration order. -/
def residents (cfg : Config) (index : ℕ) (s : CacheSet) : List ℕ :=
  s.map (fun e => cfg.blockAt index e.1)

theorem inserts_eq {cfg : Config} {e : Access × Bool} (h : (inserts cfg e).isSome) :
    inserts cfg e = some (cfg.block e.1.address) := by
  obtain ⟨⟨address⟩ | ⟨address⟩, hit⟩ := e
  · cases hit with
    | true => simp [inserts] at h
    | false => rfl
  · cases hb : !hit && cfg.writeAllocate with
    | true => simp [inserts, hb, Access.address]
    | false => simp [inserts, hb] at h

private theorem keys_stackAccess_fifo {cfg : Config} (hv : cfg.Sized) (hfifo : cfg.lru = false)
    (a : Access) {hit : Bool} (stack : cfg.Stack)
    (hhit : hit = true ↔ cfg.tag a.address ∈ stack.keys) :
    (stackAccess cfg a stack).keys =
      if (inserts cfg (a, hit)).isSome then cfg.tag a.address :: stack.keys.take (cfg.ways - 1)
      else stack.keys := by
  rw [keys_stackAccess hv]
  cases hit with
  | true =>
    rw [tagAccess_of_mem (hhit.mp rfl), hfifo]
    cases a <;> rfl
  | false =>
    have ht : cfg.tag a.address ∉ stack.keys := fun hm => Bool.false_ne_true (hhit.mpr hm)
    rw [tagAccess_of_notMem ht, touch_of_notMem ht]
    cases a with
    | load address => rfl
    | store address => cases ha : cfg.writeAllocate <;> simp [Access.isStore, inserts, ha]

/-- Under FIFO each set keeps its latest insertions. -/
private theorem map_keys_recencyStacks {cfg : Config} (hv : cfg.Sized) (hfifo : cfg.lru = false)
    {h : List (Access × Bool)} (hf : Flagged cfg h) (index : ℕ) :
    (recencyStacks cfg (h.map Prod.fst) index).keys.map (cfg.blockAt index) =
      (insertions cfg index h).take cfg.ways := by
  induction h with
  | nil => simp [recencyStacks, KeyedStack.keys, KeyedStack.empty, insertions]
  | cons e h ih =>
    obtain ⟨a, hit⟩ := e
    obtain ⟨hhit, hf⟩ := hf
    rw [insertions, List.filterMap_cons, List.map_cons, recencyStacks]
    by_cases hi : cfg.index a.address = index
    · subst hi
      rw [Function.update_self, keys_stackAccess_fifo hv hfifo a _ hhit]
      by_cases ht : (inserts cfg (a, hit)).isSome
      · have hb : cfg.block a.address % cfg.sets = cfg.index a.address := rfl
        obtain ⟨n, hn⟩ := Nat.exists_eq_succ_of_ne_zero hv.ways_pos.ne'
        rw [if_pos ht, inserts_eq ht, List.map_cons, List.map_take, ih hf,
          Config.Sized.blockAt_eq, List.filter_cons_of_pos (by simpa using hb), hn,
          List.take_succ_cons, List.take_take, Nat.succ_sub_one, Nat.min_eq_left (Nat.le_succ n)]
        rfl
      · have hn : inserts cfg (a, hit) = none := by simpa using ht
        rw [if_neg ht, hn]
        exact ih hf
    · rw [Function.update_of_ne (Ne.symm hi), ih hf]
      by_cases ht : (inserts cfg (a, hit)).isSome
      · have hb : ¬cfg.block a.address % cfg.sets = index := hi
        rw [inserts_eq ht, List.filter_cons_of_neg (by simpa using hb)]
        rfl
      · have hn : inserts cfg (a, hit) = none := by simpa using ht
        rw [hn]
        rfl

/-- Under FIFO a hit keeps the keys of every stack. -/
private theorem keys_recencyStacks_hit {cfg : Config} (hfifo : cfg.lru = false) (a : Access)
    (as : List Access)
    (ht : cfg.tag a.address ∈ (recencyStacks cfg as (cfg.index a.address)).keys) (index : ℕ) :
    (recencyStacks cfg (a :: as) index).keys = (recencyStacks cfg as index).keys := by
  rw [recencyStacks]
  by_cases hi : cfg.index a.address = index
  · subst hi
    rw [Function.update_self]
    cases a with
    | load address => simp [stackAccess, ht, hfifo]
    | store address => cases hw : cfg.writeThrough <;> simp [stackAccess, ht, hfifo, hw]
  · rw [Function.update_of_ne (Ne.symm hi)]

/-- FIFO is exact. After any accesses the blocks of a set are those of its latest
`blockNum` insertions, which are distinct, each with the number of later insertions as its
order; and a hit leaves the tags and the orders of every set as they are. -/
theorem fifo_residency_iff_inserted (cfg : Config) (hv : cfg.Valid) (hfifo : cfg.lru = false) :
    (∀ as : List Access, ∃ h c, h.map Prod.fst = as ∧ Run cfg h c) ∧
    ∀ h c, Run cfg h c →
      (∀ (index : ℕ) (s : CacheSet), c.data[index]? = some s →
        (residents cfg index s).Perm
          ((insertions cfg index h).take
            (min (insertions cfg index h).length cfg.blockNum.toNat)) ∧
        (residents cfg index s).Nodup ∧
        ∀ e ∈ s, e.2.first =
          ((insertions cfg index h).takeWhile (fun b => b ≠ cfg.blockAt index e.1)).length) ∧
      ∀ a : Access, ∃ hit c', hits cfg c a.address = some hit ∧ perform cfg c a = some c' ∧
        (hit = true → ∀ (index : ℕ) (s s' : CacheSet),
          c.data[index]? = some s → c'.data[index]? = some s' →
          (s'.map (fun e => (e.1, e.2.first))).Perm (s.map (fun e => (e.1, e.2.first)))) := by
  replace hv := hv.sized
  refine ⟨exists_run hv, fun h c run => ⟨fun index s hget => ?_, fun a => ?_⟩⟩
  · have hst := (run.simulates hv).stores index s hget
    have hkeys := map_keys_recencyStacks hv hfifo (run.flagged hv) index
    have hinj := hv.blockAt_injective index
    have hp : (residents cfg index s).Perm ((insertions cfg index h).take cfg.ways) := by
      have hmap := hst.keys_perm.map (cfg.blockAt index)
      rwa [hkeys, List.map_map] at hmap
    refine ⟨?_, ?_, fun e he => ?_⟩
    · rwa [List.take_eq_take_min, Nat.min_comm] at hp
    · rw [hp.nodup_iff, ← hkeys]
      exact (KeyedStack.nodup _).map hinj
    · have hm : e.1 ∈ (recencyStacks cfg (h.map Prod.fst) index).keys :=
        hst.keys_perm.mem_iff.mp (List.mem_map_of_mem he)
      have hm' : cfg.blockAt index e.1 ∈ (insertions cfg index h).take cfg.ways :=
        hkeys ▸ List.mem_map_of_mem hm
      have hpos : (recencyStacks cfg (h.map Prod.fst) index).keys.idxOf e.1 =
          ((insertions cfg index h).take cfg.ways).idxOf (cfg.blockAt index e.1) := by
        rw [← hkeys, idxOf_map hinj]
      rw [hst.order_of_mem he, hpos, (List.take_prefix _ _).idxOf_eq_of_mem hm',
        idxOf_eq_length_takeWhile]
  · obtain ⟨test, c', hp, hsim⟩ := (run.simulates hv).perform hv a
    refine ⟨_, c', test, hp, fun hhit index s s' hget hget' => ?_⟩
    have hkeys := keys_recencyStacks_hit hfifo a _ (of_decide_eq_true hhit) index
    have hz := (hsim.stores index s' hget').orders_zip
    rw [hkeys] at hz
    exact hz.trans ((run.simulates hv).stores index s hget).orders_zip.symm

theorem fifo_residency_after_store_load :
    ∃ (h : List (Access × Bool)) (c : Cache), h.map Prod.fst = [.load 8, .store 0] ∧
      ∀ s, c.data[0]? = some s → (residents (smallConfig false) 0 s).Nodup := by
  have hfifo := fifo_residency_iff_inserted (smallConfig false) (smallConfig_valid false) rfl
  obtain ⟨h, c, hh, run⟩ := hfifo.1 [.load 8, .store 0]
  exact ⟨h, c, hh, fun s hs => ((hfifo.2 h c run).1 0 s hs).2.1⟩

end CsfAssignments.Csim
