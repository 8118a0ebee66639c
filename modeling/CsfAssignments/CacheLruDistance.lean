import CsfAssignments.CacheResidentTags

/-!
# LRU residency is stack distance

Under LRU the tags of a set are the beginning of the recency stack of the touches of that
set. A block is resident exactly when fewer than `blockNum` other blocks of its set were
touched since its latest touch, and that number is its stored order.
-/

namespace CsfAssignments.Csim
open RecencyStacks

/-- The block an access touches: every load, every store hit, and every store miss under
write-allocate. -/
def touches (cfg : Config) : Access × Bool → Option ℕ
  | (.load address, _) => some (cfg.block address)
  | (.store address, hit) =>
      if hit || cfg.writeAllocate then some (cfg.block address) else none

/-- The touched blocks of a history, the latest first. -/
def touched (cfg : Config) (h : List (Access × Bool)) : List ℕ := h.filterMap (touches cfg)

/-- The number of distinct other blocks of the same set touched since the latest touch
of a block. -/
def othersSince (cfg : Config) (block : ℕ) (t : List ℕ) : ℕ :=
  ((t.takeWhile (fun b => b ≠ block)).filter
    (fun b => b % cfg.sets = block % cfg.sets)).toFinset.card

/-- A block was touched, and its stack distance is below the associativity. -/
def Near (cfg : Config) (block : ℕ) (t : List ℕ) : Prop :=
  block ∈ t ∧ (othersSince cfg block t : ℤ) < cfg.blockNum

instance (cfg : Config) (block : ℕ) (t : List ℕ) : Decidable (Near cfg block t) :=
  inferInstanceAs (Decidable (_ ∧ _))

/-- The counters of hits and of misses of one kind of access. -/
def hitCount (c : Cache) : Access → ℤ
  | .load _ => c.loadHit
  | .store _ => c.storeHit

def missCount (c : Cache) : Access → ℤ
  | .load _ => c.loadMiss
  | .store _ => c.storeMiss

/-- The tags touched in one set. -/
private def touchedTags (cfg : Config) (index : ℕ) (h : List (Access × Bool)) : List Tag :=
  h.filterMap fun e =>
    if cfg.index e.1.address = index ∧ (touches cfg e).isSome then some (cfg.tag e.1.address)
    else none

private theorem touches_eq {cfg : Config} {e : Access × Bool} (h : (touches cfg e).isSome) :
    touches cfg e = some (cfg.block e.1.address) := by
  obtain ⟨⟨address⟩ | ⟨address⟩, hit⟩ := e
  · rfl
  · cases hb : hit || cfg.writeAllocate with
    | true => simp [touches, hb, Access.address]
    | false => simp [touches, hb] at h

private theorem touchedTags_cons (cfg : Config) (index : ℕ) (e : Access × Bool)
    (h : List (Access × Bool)) :
    touchedTags cfg index (e :: h) =
      if cfg.index e.1.address = index ∧ (touches cfg e).isSome then
        cfg.tag e.1.address :: touchedTags cfg index h
      else touchedTags cfg index h := by
  rw [touchedTags, List.filterMap_cons]
  split_ifs <;> rfl

private theorem map_touchedTags {cfg : Config} {index : ℕ} (h : List (Access × Bool)) :
    (touchedTags cfg index h).map (cfg.blockAt index) =
      (touched cfg h).filter (fun b => b % cfg.sets = index) := by
  induction h with
  | nil => rfl
  | cons e h ih =>
    rw [touchedTags_cons, touched, List.filterMap_cons]
    by_cases ht : (touches cfg e).isSome
    · rw [touches_eq ht]
      by_cases hi : cfg.index e.1.address = index
      · have hb : cfg.block e.1.address % cfg.sets = index := hi
        rw [if_pos ⟨hi, rfl⟩, List.map_cons, ih, List.filter_cons_of_pos (by simpa using hb)]
        congr 1
        rw [← hi, Config.Sized.blockAt_eq]
      · have hb : ¬cfg.block e.1.address % cfg.sets = index := hi
        rw [if_neg (fun hc => hi hc.1), List.filter_cons_of_neg (by simpa using hb)]
        exact ih
    · have hn : touches cfg e = none := by simpa using ht
      rw [if_neg (fun hc => ht hc.2), hn]
      exact ih

private theorem keys_stackAccess_lru {cfg : Config} (hv : cfg.Sized) (hlru : cfg.lru = true)
    (a : Access) {hit : Bool} (stack : cfg.Stack)
    (hhit : hit = true ↔ cfg.tag a.address ∈ stack.keys) :
    (stackAccess cfg a stack).keys =
      if (touches cfg (a, hit)).isSome then touch cfg.ways (cfg.tag a.address) stack.keys
      else stack.keys := by
  rw [keys_stackAccess hv]
  cases hit with
  | true =>
    rw [tagAccess_of_mem (hhit.mp rfl), hlru]
    cases a <;> rfl
  | false =>
    rw [tagAccess_of_notMem fun hm => Bool.false_ne_true (hhit.mpr hm)]
    cases a with
    | load address => rfl
    | store address => cases ha : cfg.writeAllocate <;> simp [Access.isStore, touches, ha]

/-- Under LRU each set keeps the beginning of the recency stack of its touched tags. -/
private theorem keys_recencyStacks_lru {cfg : Config} (hv : cfg.Sized) (hlru : cfg.lru = true)
    {h : List (Access × Bool)} (hf : Flagged cfg h) (index : ℕ) :
    (recencyStacks cfg (h.map Prod.fst) index).keys =
      (recency (touchedTags cfg index h)).take cfg.ways := by
  induction h with
  | nil => simp [recencyStacks, KeyedStack.keys, KeyedStack.empty, touchedTags, recency]
  | cons e h ih =>
    obtain ⟨a, hit⟩ := e
    obtain ⟨hhit, hf⟩ := hf
    rw [touchedTags_cons, List.map_cons, recencyStacks]
    by_cases hi : cfg.index a.address = index
    · subst hi
      rw [Function.update_self, keys_stackAccess_lru hv hlru a _ hhit]
      by_cases ht : (touches cfg (a, hit)).isSome
      · simp only [ht, if_true, and_self, ih hf]
        exact touch_take_recency hv.ways_pos _ _
      · simpa [ht] using ih hf
    · simpa [hi, Function.update_of_ne (Ne.symm hi)] using ih hf

private theorem distance_touchedTags {cfg : Config} (hv : cfg.Sized) (address : BitVec 32)
    (h : List (Access × Bool)) :
    distance (cfg.tag address) (touchedTags cfg (cfg.index address) h) =
      othersSince cfg (cfg.block address) (touched cfg h) := by
  have hb := Config.Sized.blockAt_eq cfg address
  rw [← distance_map (hv.blockAt_injective (cfg.index address)), map_touchedTags, hb, distance,
    takeWhile_filter (by simp [Config.index]), othersSince, Config.index]

private theorem mem_touchedTags {cfg : Config} (hv : cfg.Sized) (address : BitVec 32)
    (h : List (Access × Bool)) :
    cfg.tag address ∈ touchedTags cfg (cfg.index address) h ↔
      cfg.block address ∈ touched cfg h := by
  have hb := Config.Sized.blockAt_eq cfg address
  rw [← List.mem_map_of_injective (hv.blockAt_injective (cfg.index address)), map_touchedTags, hb,
    List.mem_filter]
  simp [Config.index]

private theorem mem_keys_iff_near {cfg : Config} (hv : cfg.Sized) (hlru : cfg.lru = true)
    {h : List (Access × Bool)} (hf : Flagged cfg h) (address : BitVec 32) :
    cfg.tag address ∈ (recencyStacks cfg (h.map Prod.fst) (cfg.index address)).keys ↔
      Near cfg (cfg.block address) (touched cfg h) := by
  have hcast := hv.ways_cast
  rw [keys_recencyStacks_lru hv hlru hf, mem_take_recency, mem_touchedTags hv,
    distance_touchedTags hv, Near, ← hcast, Nat.cast_lt]

/-- LRU is exact. After any accesses a block is resident exactly when its stack distance
is below `blockNum`, its order is that distance, and the next access is counted as a hit
exactly when the distance of its block is below `blockNum`. -/
theorem lru_residency_iff_distance (cfg : Config) (hv : cfg.Valid) (hlru : cfg.lru = true) :
    (∀ as : List Access, ∃ h c, h.map Prod.fst = as ∧ Run cfg h c) ∧
    ∀ h c, Run cfg h c →
      (∀ address, hits cfg c address =
        some (decide (Near cfg (cfg.block address) (touched cfg h)))) ∧
      (∀ address index tag s b, slice cfg address = some (index, tag) →
        c.data[index.toNat]? = some s → (tag, b) ∈ s →
        b.first = othersSince cfg (cfg.block address) (touched cfg h)) ∧
      ∀ a : Access, ∃ c', perform cfg c a = some c' ∧
        (hitCount c' a, missCount c' a) =
          if Near cfg (cfg.block a.address) (touched cfg h) then
            (hitCount c a + 1, missCount c a)
          else (hitCount c a, missCount c a + 1) := by
  replace hv := hv.sized
  refine ⟨exists_run hv, fun h c run => ?_⟩
  have hsim := run.simulates hv
  have hf := run.flagged hv
  refine ⟨fun address => ?_, fun address index tag s b hslice hget hb => ?_, fun a => ?_⟩
  · have htest := (hsim.perform hv (.load address)).1
    simpa only [Access.address, mem_keys_iff_near hv hlru hf] using htest
  · rw [hv.slice_eq] at hslice
    cases hslice
    rw [Config.Sized.index_toNat] at hget
    have hst := hsim.stores _ _ hget
    have hm : cfg.tag address ∈ (recencyStacks cfg (h.map Prod.fst) (cfg.index address)).keys :=
      hst.keys_perm.mem_iff.mp (List.mem_map_of_mem hb)
    rw [hst.order_of_mem hb, keys_recencyStacks_lru hv hlru hf, ← distance_touchedTags hv,
      ← idxOf_recency]
    rw [keys_recencyStacks_lru hv hlru hf] at hm
    exact (List.take_prefix _ _).idxOf_eq_of_mem hm
  · have hi : cfg.index a.address < c.data.length := hsim.length_eq ▸ hv.index_lt a.address
    have hget := List.getElem?_eq_getElem hi
    obtain ⟨-, s', hp, -⟩ := perform_eq hv a (hsim.stores _ _ hget) hget
    refine ⟨_, hp, ?_⟩
    by_cases hn : Near cfg (cfg.block a.address) (touched cfg h)
    · have hm := (mem_keys_iff_near hv hlru hf a.address).mpr hn
      cases a <;> simp only [account, hm, hn, if_true, hitCount, missCount]
    · have hm := (not_congr (mem_keys_iff_near hv hlru hf a.address)).mpr hn
      cases a <;> simp only [account, hm, hn, if_false, hitCount, missCount]

theorem lru_residency_after_store_load :
    ∃ (h : List (Access × Bool)) (c : Cache), h.map Prod.fst = [.load 8, .store 0] ∧
      hits (smallConfig true) c 0 = some (decide (Near (smallConfig true) 0
        (touched (smallConfig true) h))) := by
  have hlru := lru_residency_iff_distance (smallConfig true) (smallConfig_valid true) rfl
  obtain ⟨h, c, hh, run⟩ := hlru.1 [.load 8, .store 0]
  exact ⟨h, c, hh, (hlru.2 h c run).1 0⟩

end CsfAssignments.Csim
