import CsfAssignments.CacheDirtyBits

/-!
# Write-through and write-back hold the same blocks

With write-allocate the two write policies keep the same tags in the same order, so they
answer every access alike. Their cycles differ by the stores that go through to memory and
by the dirty blocks that are written back.
-/

namespace CsfAssignments.Csim
open RecencyStacks

/-- A configuration with the given write policy. -/
def Config.writing (cfg : Config) (through : Bool) : Config := { cfg with writeThrough := through }

theorem Config.Sized.writing {cfg : Config} (hv : cfg.Sized) (through : Bool) :
    (cfg.writing through).Sized :=
  ⟨hv.setNum, hv.blockNum, hv.byteNum, hv.four_le, hv.address⟩

/-- The tags of a cache with another write policy. -/
private theorem residentTags_writing (cfg : Config) (through : Bool) (as : List Access) :
    residentTags (cfg.writing through) as = residentTags cfg as := by
  induction as with
  | nil => rfl
  | cons a as ih =>
    simp only [residentTags, ih]
    rfl

variable {cfg : Config}

/-- The answers to the accesses do not depend on the write policy. -/
private theorem flagged_writing_eq (hv : cfg.Sized) {h h' : List (Access × Bool)}
    (hf : Flagged (cfg.writing true) h) (hf' : Flagged (cfg.writing false) h')
    (heq : h.map Prod.fst = h'.map Prod.fst) : h = h' := by
  induction h generalizing h' with
  | nil => exact (List.map_eq_nil_iff.mp heq.symm).symm
  | cons e h ih =>
    cases h' with
    | nil => cases heq
    | cons e' h' =>
      obtain ⟨a, hit⟩ := e
      obtain ⟨a', hit'⟩ := e'
      obtain ⟨rfl, hrest⟩ := List.cons_eq_cons.mp heq
      have hit_eq : hit = hit' := by
        rw [hf.hit_eq (hv.writing true), hf'.hit_eq (hv.writing false), residentTags_writing,
          residentTags_writing]
        rw [hrest]
        rfl
      rw [ih hf.2 hf'.2 hrest, hit_eq]

/-- With write-allocate every store through to memory costs 100 cycles more. -/
private theorem ownCost_through (ha : cfg.writeAllocate = true) (h : List (Access × Bool)) :
    ownCost (cfg.writing true) h =
      ownCost (cfg.writing false) h + 100 * (countOf true true h + countOf true false h) := by
  have hcost : ∀ e : Access × Bool, accessCost (cfg.writing true) e.1 e.2 =
      accessCost (cfg.writing false) e.1 e.2 + if e.1.isStore then 100 else 0 := by
    rintro ⟨⟨address⟩ | ⟨address⟩, hit⟩
    · simp [accessCost, Config.writing, Access.isStore]
    · cases hit <;> simp [accessCost, Config.writing, ha, Access.isStore]
  induction h with
  | nil => rfl
  | cons e h ih =>
    have hsplit : ∀ through, ownCost (cfg.writing through) (e :: h) =
        accessCost (cfg.writing through) e.1 e.2 + ownCost (cfg.writing through) h :=
      fun _ => List.sum_cons
    rw [hsplit, hsplit, ih, hcost]
    obtain ⟨⟨address⟩ | ⟨address⟩, hit⟩ := e
    · simp [countOf, Access.isStore]
      ring
    · cases hit <;> simp [countOf, Access.isStore] <;> ring

/-- The write policy never influences hits. The write-through and the write-back run of the
same accesses answer every access alike and have the same tags with the same orders in
every set and the same six counters; and their cycles differ by 100 for every store and by
`25 * byteNum` for every dirty block that the write-back run evicted. -/
theorem write_policies_agree (cfg : Config) (hv : cfg.Sized) (ha : cfg.writeAllocate = true) :
    (∀ (through : Bool) (as : List Access),
      ∃ h c n, h.map Prod.fst = as ∧ CountedRun (cfg.writing through) h c n) ∧
    ∀ h c h' c' n, Run (cfg.writing true) h c → CountedRun (cfg.writing false) h' c' n →
      h.map Prod.fst = h'.map Prod.fst →
      h = h' ∧
      List.Forall₂ (fun s s' : CacheSet => (s.map (fun e => (e.1, e.2.first))).Perm
        (s'.map (fun e => (e.1, e.2.first)))) c.data c'.data ∧
      c.totalLoad = c'.totalLoad ∧ c.totalStore = c'.totalStore ∧
      c.loadHit = c'.loadHit ∧ c.loadMiss = c'.loadMiss ∧
      c.storeHit = c'.storeHit ∧ c.storeMiss = c'.storeMiss ∧
      c.cycles = c'.cycles + 100 * c.totalStore - 25 * cfg.byteNum * n := by
  refine ⟨fun through as => ?_, fun h c h' c' n run counted heq => ?_⟩
  · obtain ⟨h, c, hh, run⟩ := exists_run (hv.writing through) as
    obtain ⟨n, hn⟩ := run.counted
    exact ⟨h, c, n, hh, hn⟩
  · have hflags := flagged_writing_eq hv (run.flagged (hv.writing true))
      (counted.run.flagged (hv.writing false)) heq
    subst hflags
    have hc := run.counts (hv.writing true)
    have hc' := counted.run.counts (hv.writing false)
    refine ⟨rfl, ?_, ?_, ?_, ?_, ?_, ?_, ?_, ?_⟩
    · have hsim := run.simulates (hv.writing true)
      have hsim' := counted.run.simulates (hv.writing false)
      refine List.forall₂_iff_get.mpr ⟨hsim.length_eq.trans hsim'.length_eq.symm, fun i hi hi' => ?_⟩
      have hz := (hsim.stores i _ (List.getElem?_eq_getElem hi)).orders_zip
      have hz' := (hsim'.stores i _ (List.getElem?_eq_getElem hi')).orders_zip
      rw [keys_recencyStacks (hv.writing true), residentTags_writing] at hz
      rw [keys_recencyStacks (hv.writing false), residentTags_writing] at hz'
      exact hz.trans hz'.symm
    · rw [hc.totalLoad, hc'.totalLoad, hc.loadHit, hc'.loadHit, hc.loadMiss, hc'.loadMiss]
    · rw [hc.totalStore, hc'.totalStore, hc.storeHit, hc'.storeHit, hc.storeMiss, hc'.storeMiss]
    · rw [hc.loadHit, hc'.loadHit]
    · rw [hc.loadMiss, hc'.loadMiss]
    · rw [hc.storeHit, hc'.storeHit]
    · rw [hc.storeMiss, hc'.storeMiss]
    · obtain ⟨m, hm⟩ := run.counted
      have hzero := hm.clean (hv.writing true) rfl
      subst hzero
      rw [hm.cycles (hv.writing true), counted.cycles (hv.writing false), ownCost_through ha,
        hc.totalStore, hc.storeHit, hc.storeMiss]
      simp only [Config.writing]
      push_cast
      ring

theorem write_policies_agree_store_loads :
    ∃ (h : List (Access × Bool)) (c c' : Cache) (n : ℕ),
      h.map Prod.fst = [.load 16, .load 8, .store 0] ∧
      c.cycles = c'.cycles + 100 * c.totalStore - 25 * (smallConfig true).byteNum * n := by
  have hagree := write_policies_agree (smallConfig true) (smallConfig_valid true).sized rfl
  obtain ⟨h, c, n₀, hh, run⟩ := hagree.1 true [.load 16, .load 8, .store 0]
  obtain ⟨h', c', n, hh', counted⟩ := hagree.1 false [.load 16, .load 8, .store 0]
  obtain ⟨-, -, -, -, -, -, -, -, hcycles⟩ :=
    hagree.2 h c h' c' n run.run counted (hh.trans hh'.symm)
  exact ⟨h, c, c', n, hh, hcycles⟩

end CsfAssignments.Csim
