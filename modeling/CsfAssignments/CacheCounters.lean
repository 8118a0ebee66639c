import CsfAssignments.CacheResidentTags

/-!
# The counters count the history

The six counters of a run are the numbers of loads and stores of its history that hit or
missed, and every access adds its own cost and one write-back for a dirty victim to the
cycles.
-/

namespace CsfAssignments.Csim

/-- The number of loads or of stores of a history that were hits or misses. -/
def countOf (store hit : Bool) (h : List (Access × Bool)) : ℕ :=
  h.countP (fun e => e.1.isStore = store && e.2 = hit)

theorem countOf_cons (store hit : Bool) (e : Access × Bool) (h : List (Access × Bool)) :
    countOf store hit (e :: h) =
      countOf store hit h + if e.1.isStore = store ∧ e.2 = hit then 1 else 0 := by
  rw [countOf, countOf, List.countP_cons]
  simp

/-- The counters of a cache show the history. -/
structure Counts (c : Cache) (h : List (Access × Bool)) : Prop where
  loadHit : c.loadHit = countOf false true h
  loadMiss : c.loadMiss = countOf false false h
  storeHit : c.storeHit = countOf true true h
  storeMiss : c.storeMiss = countOf true false h
  totalLoad : c.totalLoad = c.loadHit + c.loadMiss
  totalStore : c.totalStore = c.storeHit + c.storeMiss

variable {cfg : Config} {h : List (Access × Bool)} {c c' : Cache} {a : Access} {hit : Bool}

theorem Counts.account {stack : cfg.Stack} (hc : Counts c h)
    (hhit : hit = true ↔ cfg.tag a.address ∈ stack.keys) :
    Counts (account cfg a stack c) ((a, hit) :: h) := by
  obtain ⟨hlh, hlm, hsh, hsm, hl, hs⟩ := hc
  cases hit with
  | true =>
    have ht := hhit.mp rfl
    cases a <;> constructor <;>
      simp [Csim.account, ht, countOf, Access.isStore, hlh, hlm, hsh, hsm, hl, hs] <;> ring
  | false =>
    have ht : cfg.tag a.address ∉ stack.keys := fun hm => Bool.false_ne_true (hhit.mpr hm)
    cases a <;> constructor <;>
      simp [Csim.account, ht, countOf, Access.isStore, hlh, hlm, hsh, hsm, hl, hs] <;> ring

private theorem counts_tally (hf : Flagged cfg h) : Counts (tally cfg (h.map Prod.fst)) h := by
  induction h with
  | nil => exact ⟨rfl, rfl, rfl, rfl, rfl, rfl⟩
  | cons e h ih => exact (ih hf.2).account hf.1

theorem Run.counts (hv : cfg.Sized) (run : Run cfg h c) : Counts c h := by
  have hc := counts_tally (run.flagged hv)
  rw [← (run.simulates hv).counters] at hc
  exact ⟨hc.loadHit, hc.loadMiss, hc.storeHit, hc.storeMiss, hc.totalLoad, hc.totalStore⟩

/-- One access of a run: what it forgets in the stack of its set, it evicts, and it pays
its own cost and one write-back for a dirty victim. -/
theorem Run.access_effect (hv : cfg.Sized) (run : Run cfg h c)
    (step : perform cfg c a = some c') :
    (evicted cfg c c').Perm
        ((forgotten cfg a (recencyStacks cfg (h.map Prod.fst) (cfg.index a.address))).map
          (fun e => (cfg.blockAt (cfg.index a.address) e.1, e.2))) ∧
      (evicted cfg c c').length ≤ 1 ∧
      c'.cycles = c.cycles + accessCost cfg a
          (decide (cfg.tag a.address ∈ residentTags cfg (h.map Prod.fst) (cfg.index a.address))) +
        cfg.byteNum * 25 * (evicted cfg c c').countP Prod.snd := by
  obtain ⟨c₁, -, hp, hsim, hperm⟩ := (run.simulates hv).step hv a
  cases step.symm.trans hp
  obtain ⟨hone, hcycles⟩ := account_cycles hv a
    (recencyStacks cfg (h.map Prod.fst) (cfg.index a.address)) (tally cfg (h.map Prod.fst))
  have hbefore : c.cycles = (tally cfg (h.map Prod.fst)).cycles := by
    rw [← (run.simulates hv).counters]
  have hafter : c'.cycles = (tally cfg (a :: h.map Prod.fst)).cycles := by
    rw [← hsim.counters]
  refine ⟨hperm, ?_, ?_⟩
  · rw [hperm.length_eq, List.length_map]
    exact hone
  · rw [hperm.countP_eq, List.countP_map, hafter, hbefore, tally, hcycles, keys_recencyStacks hv]
    rfl

/-- The runs of a cache with the number of dirty blocks that they evicted. -/
inductive CountedRun (cfg : Config) : List (Access × Bool) → Cache → ℕ → Prop
  | start : CountedRun cfg [] (cache cfg) 0
  | access {h c n c'} (a : Access) {hit : Bool} (run : CountedRun cfg h c n)
      (test : hits cfg c a.address = some hit) (step : perform cfg c a = some c') :
      CountedRun cfg ((a, hit) :: h) c' (n + (evicted cfg c c').countP Prod.snd)
  | rehash {h c n} {data : List CacheSet} (run : CountedRun cfg h c n)
      (perm : List.Forall₂ List.Perm c.data data) : CountedRun cfg h { c with data := data } n

theorem CountedRun.run {n : ℕ} (run : CountedRun cfg h c n) : Run cfg h c := by
  induction run with
  | start => exact .start
  | access a run test step ih => exact .access a ih test step
  | rehash run perm ih => exact .rehash ih perm

theorem Run.counted (run : Run cfg h c) : ∃ n, CountedRun cfg h c n := by
  induction run with
  | start => exact ⟨0, .start⟩
  | access a run test step ih =>
    obtain ⟨n, hn⟩ := ih
    exact ⟨_, hn.access a test step⟩
  | rehash run perm ih =>
    obtain ⟨n, hn⟩ := ih
    exact ⟨n, hn.rehash perm⟩

/-- The recorded answers are determined by the accesses. -/
theorem Flagged.hit_eq (hv : cfg.Sized) (hf : Flagged cfg ((a, hit) :: h)) :
    hit = decide (cfg.tag a.address ∈ residentTags cfg (h.map Prod.fst) (cfg.index a.address)) := by
  rw [← keys_recencyStacks hv, Bool.eq_iff_iff, decide_eq_true_iff]
  exact hf.1

/-- The cycles of a history without its write-backs. -/
def ownCost (cfg : Config) (h : List (Access × Bool)) : ℤ :=
  (h.map (fun e => accessCost cfg e.1 e.2)).sum

/-- The cycles of a run: its own cost and one write-back for every dirty eviction. -/
theorem CountedRun.cycles (hv : cfg.Sized) {n : ℕ} (run : CountedRun cfg h c n) :
    c.cycles = ownCost cfg h + cfg.byteNum * 25 * n := by
  induction run with
  | start => simp [cache, ownCost]
  | @access h c n c' a hit run test step ih =>
    obtain ⟨-, -, hcycles⟩ := run.run.access_effect hv step
    rw [hcycles, ih, ownCost, ownCost, List.map_cons, List.sum_cons,
      (Run.flagged hv (.access a run.run test step)).hit_eq hv]
    push_cast
    ring
  | rehash run perm ih => exact ih

end CsfAssignments.Csim
