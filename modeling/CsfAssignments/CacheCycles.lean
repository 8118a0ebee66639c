import CsfAssignments.CacheDirtyBits

/-!
# The cycles in closed form

Which charges an access makes depends on its kind and on whether it hits. So the cycles of a run
are fixed by the numbers of hits and misses and by the number of dirty blocks that were evicted,
with one formula for each pair of write policies.
-/

namespace CsfAssignments.Csim

/-- The cost of a load or a store that hits or misses, apart from a write-back. -/
def kindCost (cfg : Config) (store hit : Bool) : ℤ :=
  accessCost cfg (if store then .store 0 else .load 0) hit

variable {cfg : Config} {h : List (Access × Bool)}

theorem accessCost_eq (cfg : Config) (a : Access) (hit : Bool) :
    accessCost cfg a hit = kindCost cfg a.isStore hit := by
  cases a <;> rfl

/-- Every access of a history costs as much as the others of its kind. -/
theorem ownCost_eq (cfg : Config) (h : List (Access × Bool)) :
    ownCost cfg h = kindCost cfg false true * countOf false true h +
      kindCost cfg false false * countOf false false h +
      kindCost cfg true true * countOf true true h +
      kindCost cfg true false * countOf true false h := by
  induction h with
  | nil => simp [ownCost, countOf]
  | cons e h ih =>
    obtain ⟨a, hit⟩ := e
    have hcost : ownCost cfg ((a, hit) :: h) = kindCost cfg a.isStore hit + ownCost cfg h := by
      rw [← accessCost_eq]
      exact List.sum_cons
    rw [hcost, ih]
    simp only [countOf_cons]
    cases a.isStore <;> cases hit <;> simp <;> ring

/-- The accesses of one kind are those that hit and those that missed. -/
theorem countOf_add (store : Bool) (h : List (Access × Bool)) :
    countOf store true h + countOf store false h =
      (h.map Prod.fst).countP (fun a => a.isStore = store) := by
  induction h with
  | nil => rfl
  | cons e h ih =>
    obtain ⟨a, hit⟩ := e
    rw [countOf_cons, countOf_cons, List.map_cons, List.countP_cons, ← ih]
    cases hit <;> by_cases hs : a.isStore = store <;> simp [hs] <;> omega

/-- The counters add up. After any trace the hits and the misses of each kind make its accesses,
and the cycles are, for write-back, one for every access but a load that misses, and
`25 * byteNum` for every miss and for every dirty block that was evicted; for write-through, a
store takes 100 more, and a miss that allocates nothing takes 100 only. -/
theorem cycle_accounting (cfg : Config) (hv : cfg.Valid) :
    (∀ as : List Access, ∃ h c n, h.map Prod.fst = as ∧ CountedRun cfg h c n) ∧
    ∀ h c n, CountedRun cfg h c n →
      c.loadHit + c.loadMiss = c.totalLoad ∧
      c.totalLoad = (h.map Prod.fst).countP (fun a => a.isStore = false) ∧
      c.storeHit + c.storeMiss = c.totalStore ∧
      c.totalStore = (h.map Prod.fst).countP (fun a => a.isStore = true) ∧
      (cfg.writeThrough = false → c.cycles = c.loadHit + c.storeHit + c.storeMiss +
        25 * cfg.byteNum * (c.loadMiss + c.storeMiss + n)) ∧
      (cfg.writeThrough = true → cfg.writeAllocate = true → c.cycles = c.loadHit +
        25 * cfg.byteNum * (c.loadMiss + c.storeMiss) + 101 * (c.storeHit + c.storeMiss)) ∧
      (cfg.writeThrough = true → cfg.writeAllocate = false → c.cycles = c.loadHit +
        25 * cfg.byteNum * c.loadMiss + 101 * c.storeHit + 100 * c.storeMiss) := by
  refine ⟨fun as => ?_, fun h c n run => ?_⟩
  · obtain ⟨h, c, hh, run⟩ := exists_run hv.sized as
    obtain ⟨n, hn⟩ := run.counted
    exact ⟨h, c, n, hh, hn⟩
  have hc := run.run.counts hv.sized
  have hcycles := run.cycles hv.sized
  rw [ownCost_eq, ← hc.loadHit, ← hc.loadMiss, ← hc.storeHit, ← hc.storeMiss] at hcycles
  refine ⟨hc.totalLoad.symm, ?_, hc.totalStore.symm, ?_, fun hw => ?_, fun hw ha => ?_,
    fun hw ha => ?_⟩
  · rw [hc.totalLoad, hc.loadHit, hc.loadMiss, ← countOf_add]
    push_cast
    rfl
  · rw [hc.totalStore, hc.storeHit, hc.storeMiss, ← countOf_add]
    push_cast
    rfl
  · have ha : cfg.writeAllocate = true := by simpa [hw] using hv.policy
    rw [hcycles]
    simp only [kindCost, accessCost, hw, ha, Bool.false_eq_true, if_true, if_false]
    ring
  · rw [hcycles, run.clean hv.sized hw]
    simp only [kindCost, accessCost, hw, ha, Bool.false_eq_true, if_true, if_false]
    push_cast
    ring
  · rw [hcycles, run.clean hv.sized hw]
    simp only [kindCost, accessCost, hw, ha, Bool.false_eq_true, if_true, if_false]
    push_cast
    ring

theorem cycle_accounting_store_loads :
    ∃ (h : List (Access × Bool)) (c : Cache) (n : ℕ),
      h.map Prod.fst = [.load 16, .load 8, .store 0] ∧ CountedRun (smallConfig true) h c n ∧
      c.cycles = c.loadHit + c.storeHit + c.storeMiss +
        25 * (smallConfig true).byteNum * (c.loadMiss + c.storeMiss + n) := by
  have haccount := cycle_accounting (smallConfig true) (smallConfig_valid true)
  obtain ⟨h, c, n, hh, run⟩ := haccount.1 [.load 16, .load 8, .store 0]
  obtain ⟨-, -, -, -, hcycles, -, -⟩ := haccount.2 h c n run
  exact ⟨h, c, n, hh, run, hcycles rfl⟩

end CsfAssignments.Csim
