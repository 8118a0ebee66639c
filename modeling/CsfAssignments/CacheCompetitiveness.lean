import CsfAssignments.CacheCounters
import CsfAssignments.CacheFifoWindow
import CsfAssignments.CacheLruDistance
import CsfAssignments.PagingBounds
import Mathlib.Algebra.BigOperators.Ring.Finset
import Mathlib.Algebra.Order.BigOperators.Group.Finset

/-!
# The misses of the cache against those of any other cache

Every set of the simulated cache is a queue in the sense of the library, under LRU and under FIFO,
and the requests it serves are the blocks touched in it. So the misses of a run are bounded by
those of any cache with the same sets, also of one that knows the whole trace.
-/

namespace CsfAssignments.Csim
open Paging RecencyStacks

/-- The touched blocks of one set, the latest first. -/
def requested (cfg : Config) (index : ℕ) (h : List (Access × Bool)) : List ℕ :=
  (touched cfg h).filter (fun b => b % cfg.sets = index)

/-- The misses that bring a block into the cache. -/
def fetches (cfg : Config) (c : Cache) : ℤ :=
  c.loadMiss + if cfg.writeAllocate then c.storeMiss else 0

section Queues
variable {cfg : Config} {h : List (Access × Bool)} {index : ℕ} {a : Access} {hit : Bool}

private theorem touches_cases (cfg : Config) (e : Access × Bool) :
    touches cfg e = none ∨ touches cfg e = some (cfg.block e.1.address) := by
  obtain ⟨⟨address⟩ | ⟨address⟩, hit⟩ := e
  · exact .inr rfl
  · cases hb : hit || cfg.writeAllocate with
    | true => exact .inr (by simp [touches, hb, Access.address])
    | false => exact .inl (by simp [touches, hb])

private theorem requested_of_touched (ht : (touches cfg (a, hit)).isSome)
    (hi : cfg.index a.address = index) :
    requested cfg index ((a, hit) :: h) = cfg.block a.address :: requested cfg index h := by
  have hb : cfg.block a.address % cfg.sets = index := hi
  rcases touches_cases cfg (a, hit) with hnone | hsome
  · rw [hnone] at ht
    cases ht
  · rw [requested, touched, List.filterMap_cons, hsome]
    exact List.filter_cons_of_pos (by simpa using hb)

private theorem requested_of_other (h : List (Access × Bool))
    (hother : touches cfg (a, hit) = none ∨ cfg.index a.address ≠ index) :
    requested cfg index ((a, hit) :: h) = requested cfg index h := by
  rw [requested, touched, List.filterMap_cons]
  rcases hother with hnone | hi
  · rw [hnone]
    rfl
  · rcases touches_cases cfg (a, hit) with hnone | hsome
    · rw [hnone]
      rfl
    · rw [hsome]
      exact List.filter_cons_of_neg (by simpa [Config.index] using hi)

private theorem insertions_of_inserted (ht : (inserts cfg (a, hit)).isSome)
    (hi : cfg.index a.address = index) : (insertions cfg index ((a, hit) :: h)).length =
      (insertions cfg index h).length + 1 := by
  have hb : cfg.block a.address % cfg.sets = index := hi
  rw [insertions, List.filterMap_cons, inserts_eq ht,
    List.filter_cons_of_pos (by simpa using hb), List.length_cons, insertions]

private theorem insertions_of_other (h : List (Access × Bool))
    (hother : inserts cfg (a, hit) = none ∨ cfg.index a.address ≠ index) :
    insertions cfg index ((a, hit) :: h) = insertions cfg index h := by
  rw [insertions, List.filterMap_cons]
  cases hins : inserts cfg (a, hit) with
  | none => rfl
  | some b =>
    obtain rfl : b = cfg.block a.address :=
      Option.some.inj (hins.symm.trans (inserts_eq (by rw [hins]; rfl)))
    refine List.filter_cons_of_neg ?_
    simpa [Config.index, hins] using hother

/-- The blocks resident in a set after the accesses of a history. -/
private def blocks (cfg : Config) (index : ℕ) (h : List (Access × Bool)) : List ℕ :=
  (residentTags cfg (h.map Prod.fst) index).map (cfg.blockAt index)

private theorem blocks_of_other (h : List (Access × Bool)) (hi : cfg.index a.address ≠ index) :
    blocks cfg index ((a, hit) :: h) = blocks cfg index h := by
  rw [blocks, List.map_cons, residentTags_cons, if_neg (Ne.symm hi), blocks]

private theorem mem_blocks (hv : cfg.Sized) (a : Access) (h : List (Access × Bool)) :
    cfg.block a.address ∈ blocks cfg (cfg.index a.address) h ↔
      cfg.tag a.address ∈ residentTags cfg (h.map Prod.fst) (cfg.index a.address) := by
  rw [blocks, ← Config.Sized.blockAt_eq,
    List.mem_map_of_injective (hv.blockAt_injective (cfg.index a.address))]

/-- Raising a resident tag raises its block. -/
private theorem map_touch_of_mem (hv : cfg.Sized) {tag : Tag} {tags : List Tag}
    (htag : tag ∈ tags) (hlen : tags.length ≤ cfg.ways) :
    (touch cfg.ways tag tags).map (cfg.blockAt index) = cfg.blockAt index tag ::
      (tags.map (cfg.blockAt index)).filter (fun b => b ≠ cfg.blockAt index tag) := by
  rw [touch_of_mem htag hlen, List.map_cons, List.filter_map]
  congr 2
  refine List.filter_congr fun t _ => ?_
  simp [(hv.blockAt_injective index).eq_iff]

/-- An access that misses brings its block in or touches nothing. -/
private theorem miss_cases (cfg : Config) (a : Access) :
    (a.isStore = false ∨ cfg.writeAllocate = true) ∧ (touches cfg (a, false)).isSome ∧
        (inserts cfg (a, false)).isSome ∨
      ¬(a.isStore = false ∨ cfg.writeAllocate = true) ∧ touches cfg (a, false) = none ∧
        inserts cfg (a, false) = none := by
  cases a with
  | load address => exact .inl ⟨.inl rfl, rfl, rfl⟩
  | store address =>
    cases hw : cfg.writeAllocate <;> simp [Access.isStore, touches, inserts, hw]

/-- A set is a queue of its touched blocks that misses its insertions. -/
theorem Flagged.queue (hv : cfg.Sized) (hf : Flagged cfg h) (index : ℕ) :
    Queue cfg.ways (requested cfg index h) (blocks cfg index h)
      (insertions cfg index h).length := by
  induction h with
  | nil => exact .start
  | cons e h ih =>
    obtain ⟨a, hit⟩ := e
    have hhit := hf.hit_eq hv
    replace ih := ih hf.2
    by_cases hi : cfg.index a.address = index
    · subst hi
      have hmem := mem_blocks hv a h
      cases hit with
      | true =>
        have htag := of_decide_eq_true hhit.symm
        have htouch : (touches cfg (a, true)).isSome := by cases a <;> rfl
        have hins : inserts cfg (a, true) = none := by cases a <;> rfl
        rw [requested_of_touched htouch rfl, insertions_of_other h (.inl hins), blocks,
          List.map_cons, residentTags_cons, if_pos rfl, tagAccess_of_mem htag]
        cases cfg.lru with
        | false => exact ih.stay (hmem.mpr htag)
        | true =>
          have hlen : (residentTags cfg (h.map Prod.fst) (cfg.index a.address)).length ≤
              cfg.ways := by
            rw [← keys_recencyStacks hv, KeyedStack.keys, List.length_map]
            exact KeyedStack.bounded _
          rw [if_pos rfl, map_touch_of_mem hv htag hlen, Config.Sized.blockAt_eq]
          exact ih.raise (hmem.mpr htag)
      | false =>
        have htag := of_decide_eq_false hhit.symm
        rw [blocks, List.map_cons, residentTags_cons, if_pos rfl, tagAccess_of_notMem htag]
        rcases miss_cases cfg a with ⟨halloc, htouch, hins⟩ | ⟨halloc, htouch, hins⟩
        · rw [if_pos halloc, requested_of_touched htouch rfl, insertions_of_inserted hins rfl,
            touch_of_notMem htag, List.map_cons, List.map_take, Config.Sized.blockAt_eq]
          exact ih.miss fun hin => htag (hmem.mp hin)
        · rw [if_neg halloc, requested_of_other h (.inl htouch), insertions_of_other h (.inl hins)]
          exact ih
    · rw [requested_of_other h (.inr hi), insertions_of_other h (.inr hi), blocks_of_other h hi]
      exact ih

end Queues

section Totals
variable {cfg : Config} {h : List (Access × Bool)} {c : Cache}

/-- Every element of a list is in the part of its remainder. -/
private theorem sum_length_filter_mod {n : ℕ} (hn : 0 < n) (l : List ℕ) :
    ∑ i ∈ Finset.range n, (l.filter (fun b => b % n = i)).length = l.length := by
  induction l with
  | nil => simp
  | cons b l ih =>
    have hsplit : ∀ i, ((b :: l).filter (fun b => b % n = i)).length =
        (if b % n = i then 1 else 0) + (l.filter (fun b => b % n = i)).length := by
      intro i
      by_cases hi : b % n = i
      · rw [List.filter_cons_of_pos (by simpa using hi), if_pos hi, List.length_cons, Nat.add_comm]
      · rw [List.filter_cons_of_neg (by simpa using hi), if_neg hi, Nat.zero_add]
    rw [Finset.sum_congr rfl fun i _ => hsplit i, Finset.sum_add_distrib, ih, Finset.sum_ite_eq,
      if_pos (Finset.mem_range.mpr (Nat.mod_lt b hn)), List.length_cons, Nat.add_comm]

private theorem length_filterMap_inserts (cfg : Config) (h : List (Access × Bool)) :
    (h.filterMap (inserts cfg)).length =
      countOf false false h + if cfg.writeAllocate then countOf true false h else 0 := by
  induction h with
  | nil => simp [countOf]
  | cons e h ih =>
    obtain ⟨⟨address⟩ | ⟨address⟩, hit⟩ := e <;> cases hit <;> cases hw : cfg.writeAllocate <;>
      simp [inserts, countOf, Access.isStore, hw] at ih ⊢ <;> omega

/-- The fetches of a run are the misses of its sets. -/
private theorem fetches_eq (hv : cfg.Sized) (run : Run cfg h c) :
    fetches cfg c =
      ((∑ i ∈ Finset.range cfg.sets, (insertions cfg i h).length : ℕ) : ℤ) := by
  have hcounts := run.counts hv
  have hsum : ∑ i ∈ Finset.range cfg.sets, (insertions cfg i h).length =
      (h.filterMap (inserts cfg)).length := sum_length_filter_mod hv.sets_pos _
  rw [hsum, length_filterMap_inserts, fetches, hcounts.loadMiss, hcounts.storeMiss]
  push_cast
  cases cfg.writeAllocate <;> simp

/-- The distinct touched blocks are those of the sets. -/
private theorem card_touched (hv : cfg.Sized) (h : List (Access × Bool)) :
    (touched cfg h).toFinset.card =
      ∑ i ∈ Finset.range cfg.sets, (requested cfg i h).toFinset.card := by
  rw [Finset.card_eq_sum_card_fiberwise (f := fun b => b % cfg.sets) (t := Finset.range cfg.sets)
    fun b _ => Finset.mem_coe.mpr (Finset.mem_range.mpr (Nat.mod_lt b hv.sets_pos))]
  refine Finset.sum_congr rfl fun i _ => ?_
  rw [requested, List.toFinset_filter]
  simp

end Totals

/-- The fetches of a run in one set against those of any other cache of the blocks touched in
it. -/
theorem Run.insertions_le {cfg : Config} (hv : cfg.Sized) {h : List (Access × Bool)} {c : Cache}
    (run : Run cfg h c) {index j faults : ℕ} {resident : Finset ℕ}
    (hother : Service j (requested cfg index h) resident faults) :
    (cfg.ways + 1 - j) * (insertions cfg index h).length ≤
      cfg.ways * faults + cfg.ways * (cfg.ways + 1 - j) :=
  ((run.flagged hv).queue hv index).competitive hv.ways_pos hother

/-- The sum over the sets. -/
theorem Run.fetches_le {cfg : Config} (hv : cfg.Sized) {h : List (Access × Bool)} {c : Cache}
    (run : Run cfg h c) {j : ℕ} {resident : ℕ → Finset ℕ} {faults : ℕ → ℕ}
    (hother : ∀ i < cfg.sets, Service j (requested cfg i h) (resident i) (faults i)) :
    ((cfg.ways + 1 - j : ℕ) : ℤ) * fetches cfg c ≤
      ((cfg.ways * ∑ i ∈ Finset.range cfg.sets, faults i +
        cfg.sets * (cfg.ways * (cfg.ways + 1 - j)) : ℕ) : ℤ) := by
  have htotal := Finset.sum_le_sum fun i (hi : i ∈ Finset.range cfg.sets) =>
    run.insertions_le hv (hother i (Finset.mem_range.mp hi))
  rw [← Finset.mul_sum, Finset.sum_add_distrib, ← Finset.mul_sum, Finset.sum_const,
    Finset.card_range, nsmul_eq_mul, Nat.cast_id] at htotal
  rw [fetches_eq hv run]
  exact_mod_cast htotal

/-- No cache does much better. Against any other cache with the same sets, of `j` blocks each,
that serves the blocks touched in a run and may know them all in advance, the simulated cache
fetches in every set at most `ways / (ways + 1 - j)` times as many blocks, but for one round of
its ways. This holds for LRU and for FIFO. The misses that fetch are those of the sets together. -/
theorem fetches_competitive (cfg : Config) (hv : cfg.Valid) {h : List (Access × Bool)} {c : Cache}
    (run : Run cfg h c) :
    (∀ i < cfg.sets, ∀ j resident faults, Service j (requested cfg i h) resident faults →
      (cfg.ways + 1 - j) * (insertions cfg i h).length ≤
        cfg.ways * faults + cfg.ways * (cfg.ways + 1 - j)) ∧
    fetches cfg c = ((∑ i ∈ Finset.range cfg.sets, (insertions cfg i h).length : ℕ) : ℤ) ∧
    ∀ (j : ℕ) (resident : ℕ → Finset ℕ) (faults : ℕ → ℕ),
      (∀ i < cfg.sets, Service j (requested cfg i h) (resident i) (faults i)) →
        ((cfg.ways + 1 - j : ℕ) : ℤ) * fetches cfg c ≤
          ((cfg.ways * ∑ i ∈ Finset.range cfg.sets, faults i +
            cfg.sets * (cfg.ways * (cfg.ways + 1 - j)) : ℕ) : ℤ) :=
  ⟨fun _ _ _ _ _ hother => run.insertions_le hv.sized hother, fetches_eq hv.sized run,
    fun _ _ _ hother => run.fetches_le hv.sized hother⟩

private theorem two_loads (lru : Bool) :
    ∃ c, Run (smallConfig lru) [(.load 8, false), (.load 0, false)] c := by
  cases lru <;> exact ⟨_, .access (.load 8) (.access (.load 0) .start rfl rfl) rfl rfl⟩

/-- Two loads in one set, against a cache of one block, which fetches both. -/
theorem fetches_competitive_small :
    ∃ c, Run (smallConfig false) [(.load 8, false), (.load 0, false)] c ∧
      requested (smallConfig false) 0 [(.load 8, false), (.load 0, false)] = [2, 0] ∧
      Service 1 [2, 0] {2} 2 ∧
      (insertions (smallConfig false) 0 [(.load 8, false), (.load 0, false)]).length = 2 ∧
      (2 + 1 - 1) * 2 ≤ 2 * 2 + 2 * (2 + 1 - 1) ∧ fetches (smallConfig false) c = 2 := by
  obtain ⟨c, run⟩ := two_loads false
  obtain ⟨hsets, htotal, -⟩ := fetches_competitive (smallConfig false) (smallConfig_valid false) run
  have hfirst : Service 1 [0] {0} 1 := Service.start.serve (by decide) (by decide) (by decide)
  have hserved : Service 1 [2, 0] {2} 2 := hfirst.serve (by decide) (by decide) (by decide)
  have hbound := hsets 0 (by decide) 1 {2} 2 hserved
  exact ⟨c, run, rfl, hserved, rfl, hbound, htotal⟩

section Policies
variable {cfg : Config} {h : List (Access × Bool)} {c : Cache}

/-- With write-allocate every access touches its block. -/
private theorem touched_of_allocate (halloc : cfg.writeAllocate = true)
    (h : List (Access × Bool)) : touched cfg h = h.map (fun e => cfg.block e.1.address) := by
  rw [touched, ← List.filterMap_eq_map]
  refine List.filterMap_congr fun e _ => ?_
  obtain ⟨⟨address⟩ | ⟨address⟩, hit⟩ := e <;> simp [touches, halloc, Access.address]

/-- The sets of a run serve their requests with its fetches. -/
private theorem Run.services (hv : cfg.Sized) (run : Run cfg h c) (i : ℕ) :
    Service cfg.ways (requested cfg i h) (blocks cfg i h).toFinset (insertions cfg i h).length :=
  (((run.flagged hv).queue hv i).service hv.ways_pos).2.2

end Policies

/-- Two simulated caches with the same sets and blocks, whatever their associativities and their
policies of eviction and of writing, as long as both allocate on writes. In particular FIFO misses
at most `ways` times as often as LRU, and LRU as FIFO, but for one round of the ways in each set. -/
theorem policies_competitive (cfg cfg' : Config) (hv : cfg.Valid) (hv' : cfg'.Valid)
    (hsets : cfg'.setNum = cfg.setNum) (hbytes : cfg'.byteNum = cfg.byteNum)
    (halloc : cfg.writeAllocate = true) (halloc' : cfg'.writeAllocate = true)
    {h h' : List (Access × Bool)} {c c' : Cache} (run : Run cfg h c) (run' : Run cfg' h' c')
    (hsame : h.map Prod.fst = h'.map Prod.fst) :
    ((cfg.ways + 1 - cfg'.ways : ℕ) : ℤ) * (c.loadMiss + c.storeMiss) ≤
      cfg.ways * (c'.loadMiss + c'.storeMiss) +
        ((cfg.sets * (cfg.ways * (cfg.ways + 1 - cfg'.ways)) : ℕ) : ℤ) := by
  have hblock : ∀ address, cfg'.block address = cfg.block address := fun address => by
    rw [Config.block, Config.block, hbytes]
  have htouched : touched cfg' h' = touched cfg h := by
    have hmap : ∀ h : List (Access × Bool), h.map (fun e => cfg.block e.1.address) =
        (h.map Prod.fst).map (fun a => cfg.block a.address) := fun h => by
      rw [List.map_map]
      rfl
    rw [touched_of_allocate halloc, touched_of_allocate halloc']
    simp only [hblock]
    rw [hmap, hmap, hsame]
  have hcount : cfg'.sets = cfg.sets := by
    rw [Config.sets, Config.sets, hsets]
  have hother : ∀ i < cfg.sets, Service cfg'.ways (requested cfg i h)
      (blocks cfg' i h').toFinset (insertions cfg' i h').length := by
    intro i _
    have hserved := run'.services hv'.sized i
    rwa [requested, htouched, hcount] at hserved
  have hbound := run.fetches_le hv.sized hother
  have hfetches' := fetches_eq hv'.sized run'
  rw [hcount] at hfetches'
  simp only [fetches, halloc, halloc', if_true] at hbound hfetches'
  rw [hfetches']
  exact_mod_cast hbound

theorem policies_competitive_small :
    ∃ c c', Run (smallConfig false) [(.load 8, false), (.load 0, false)] c ∧
      Run (smallConfig true) [(.load 8, false), (.load 0, false)] c' ∧
      ((2 + 1 - 2 : ℕ) : ℤ) * (c.loadMiss + c.storeMiss) ≤
        2 * (c'.loadMiss + c'.storeMiss) + ((2 * (2 * (2 + 1 - 2)) : ℕ) : ℤ) := by
  obtain ⟨c, run⟩ := two_loads false
  obtain ⟨c', run'⟩ := two_loads true
  exact ⟨c, c', run, run', policies_competitive _ _ (smallConfig_valid false)
    (smallConfig_valid true) rfl rfl rfl rfl run run' rfl⟩

/-- Where no set has more touched blocks than it holds, each block is fetched once, under LRU and
under FIFO, and stays in the cache. No run fetches fewer. -/
theorem fetches_of_fitting (cfg : Config) (hv : cfg.Valid) {h : List (Access × Bool)} {c : Cache}
    (run : Run cfg h c) :
    ((touched cfg h).toFinset.card : ℤ) ≤ fetches cfg c ∧
      ((∀ i < cfg.sets, (requested cfg i h).toFinset.card ≤ cfg.ways) →
        fetches cfg c = (touched cfg h).toFinset.card ∧
          ∀ address, cfg.block address ∈ touched cfg h → hits cfg c address = some true) := by
  replace hv := hv.sized
  have hqueue := (run.flagged hv).queue hv
  rw [fetches_eq hv run, card_touched hv]
  refine ⟨?_, fun hfits => ⟨?_, fun address htouched => ?_⟩⟩
  · exact_mod_cast Finset.sum_le_sum fun i _ => ((hqueue i).service hv.ways_pos).2.2.card_le.2
  · refine congrArg _ (Finset.sum_congr rfl fun i hi => ?_)
    exact ((hqueue i).of_card_le hv.ways_pos (hfits i (Finset.mem_range.mp hi))).2
  · have hrequested : cfg.block address ∈ requested cfg (cfg.index address) h :=
      List.mem_filter.mpr ⟨htouched, by simp [Config.index]⟩
    have hblock := ((hqueue _).of_card_le hv.ways_pos
      (hfits _ (hv.index_lt address))).1 _ hrequested
    have htag := (mem_blocks hv (.load address) h).mp hblock
    rw [← keys_recencyStacks hv] at htag
    obtain ⟨htest, -⟩ := (run.simulates hv).perform hv (.load address)
    exact htest.trans (congrArg some (decide_eq_true htag))

theorem fetches_of_fitting_small :
    ∃ c, Run (smallConfig false) [(.load 8, false), (.load 0, false)] c ∧
      hits (smallConfig false) c 0 = some true := by
  obtain ⟨c, run⟩ := two_loads false
  have hfits := (fetches_of_fitting (smallConfig false) (smallConfig_valid false) run).2
    (by decide)
  exact ⟨c, run, hfits.2 0 (by decide)⟩

end CsfAssignments.Csim
