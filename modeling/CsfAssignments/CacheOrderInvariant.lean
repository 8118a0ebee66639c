import CsfAssignments.CacheRefinement

/-!
# The orders of a set are a permutation of its positions

Every reachable set stores a stack, so its orders are `0 .. n-1`. A full set has one
block of order `blockNum - 1`, whatever the iteration order of the map.
-/

namespace CsfAssignments.Csim
open RecencyStacks

/-- The representation invariant of one set. -/
structure SetInvariant (cfg : Config) (s : CacheSet) : Prop where
  bounded : (s.length : ℤ) ≤ cfg.blockNum
  tags : (s.map Prod.fst).Nodup
  orders : (s.map (fun e => e.2.first)).Perm (List.range s.length)

theorem Stores.setInvariant {cfg : Config} (hv : cfg.Sized) {s : CacheSet} {stack : cfg.Stack}
    (h : Stores s stack) : SetInvariant cfg s where
  bounded := by
    have hb := stack.bounded
    have hcast := hv.ways_cast
    rw [h.length_eq]
    omega
  tags := h.nodup
  orders := h.orders_perm

/-- Exactly one block of a full set has the order the victim search looks for. -/
theorem SetInvariant.countP_last {cfg : Config} {s : CacheSet} (h : SetInvariant cfg s)
    (hfull : (s.length : ℤ) = cfg.blockNum) (hpos : 0 < s.length) :
    s.countP (fun e => (e.2.first : ℤ) = cfg.blockNum - 1) = 1 := by
  have hmap : s.countP (fun e => (e.2.first : ℤ) = cfg.blockNum - 1) =
      (s.map (fun e => e.2.first)).count (s.length - 1) := by
    rw [List.count, List.countP_map]
    refine List.countP_congr fun e _ => ?_
    simp only [Function.comp_apply, beq_iff_eq, decide_eq_true_eq]
    omega
  rw [hmap, h.orders.count_eq, List.count_eq_one_of_mem List.nodup_range]
  simpa using hpos

/-- In every reachable state each set has at most `blockNum` blocks, whose orders are a
permutation of `0 .. n-1`. When the set is full one block has order `blockNum - 1`, and in
every iteration order the search assigns its tag to the victim key, and the eviction
removes that one block. -/
theorem reachable_set_orders (cfg : Config) (hv : cfg.Valid) :
    (∀ as : List Access, ∃ h c, h.map Prod.fst = as ∧ Run cfg h c) ∧
    ∀ h c, Run cfg h c → ∀ s ∈ c.data, SetInvariant cfg s ∧
      (isSetFull cfg s = true →
        s.countP (fun e => (e.2.first : ℤ) = cfg.blockNum - 1) = 1 ∧
        ∃ key b, (key, b) ∈ s ∧ ∀ s', s'.Perm s → ∀ cycles,
          (victimLoop cfg s' cycles).1 = some key ∧
          (evict cfg s' cycles).map Prod.fst = some (s'.filter (fun e => e.1 ≠ key)) ∧
          (s'.filter (fun e => e.1 ≠ key)).length + 1 = s.length) := by
  replace hv := hv.sized
  refine ⟨exists_run hv, fun h c run s hs => ?_⟩
  obtain ⟨i, hi, rfl⟩ := List.mem_iff_getElem.mp hs
  have hst := (run.simulates hv).stores i _ (List.getElem?_eq_getElem hi)
  generalize recencyStacks cfg (h.map Prod.fst) i = stack at hst
  generalize c.data[i] = s at hst
  refine ⟨hst.setInvariant hv, fun hfull => ?_⟩
  have hlen := (isSetFull_iff hv hst).mp hfull
  have hpos := hv.ways_pos
  refine ⟨(hst.setInvariant hv).countP_last ?_ ?_, ?_⟩
  · rw [hst.length_eq, hlen, hv.ways_cast]
  · rw [hst.length_eq]
    omega
  · obtain ⟨l, ⟨key, d⟩, hent⟩ := exists_last_of_full hv hlen
    have hmem : (key, (⟨l.length, d⟩ : Block)) ∈ s :=
      (List.Perm.mem_iff hst).mpr (by simp [hent, numbered])
    refine ⟨key, _, hmem, fun s' hp cycles => ?_⟩
    have hst' := hst.perm hp.symm
    have hvictim := victimLoop_eq hv hst' hent hlen cycles
    refine ⟨by rw [hvictim], ?_, ?_⟩
    · rw [evict, if_pos ((isSetFull_iff hv hst').mpr hlen), hvictim]
      rfl
    · have hcount : (s'.map Prod.fst).count key = 1 :=
        List.count_eq_one_of_mem hst'.nodup
          (List.mem_map_of_mem (hp.mem_iff.mpr hmem))
      have hsplit := List.length_eq_countP_add_countP (fun e : Tag × Block => e.1 ≠ key) (l := s')
      rw [List.count, List.countP_map] at hcount
      rw [← hp.length_eq, hsplit, List.countP_eq_length_filter]
      congr 1
      rw [← hcount]
      exact List.countP_congr fun e _ => by simp

theorem reachable_set_orders_after_store_load :
    ∃ (h : List (Access × Bool)) (c : Cache), h.map Prod.fst = [.load 8, .store 0] ∧
      ∀ s ∈ c.data, SetInvariant (smallConfig true) s := by
  have horders := reachable_set_orders (smallConfig true) (smallConfig_valid true)
  obtain ⟨h, c, hh, run⟩ := horders.1 [.load 8, .store 0]
  exact ⟨h, c, hh, fun s hs => (horders.2 h c run s hs).1⟩

end CsfAssignments.Csim
