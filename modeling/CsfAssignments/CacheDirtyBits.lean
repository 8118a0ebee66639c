import CsfAssignments.CacheCounters
import CsfAssignments.CacheFifoWindow

/-!
# Dirty bits record the stores since the fetch

Under write-back a resident block is dirty exactly when it was stored to since the access
that brought it in, and an eviction is charged a write-back exactly for such a victim.
Under write-through no block is ever dirty.
-/

namespace CsfAssignments.Csim
open RecencyStacks

/-- The block an access writes. -/
def writes (cfg : Config) : Access → Option ℕ
  | .load _ => none
  | .store address => some (cfg.block address)

/-- A store to the block occurred since, and including, the access that last brought it
into the cache. -/
def storedSinceFetch (cfg : Config) (block : ℕ) : List (Access × Bool) → Bool
  | [] => false
  | e :: h =>
      writes cfg e.1 = some block || (inserts cfg e ≠ some block && storedSinceFetch cfg block h)

/-- What the dirty bit of a block has to be. -/
def dirty (cfg : Config) (block : ℕ) (h : List (Access × Bool)) : Bool :=
  !cfg.writeThrough && storedSinceFetch cfg block h

section Stacks

variable {cfg : Config} {a : Access} {stack : cfg.Stack} {e : Tag × Bool}

/-- An access to another block changes nothing. -/
private theorem dirty_cons_of_ne {block : ℕ} {hit : Bool} {h : List (Access × Bool)}
    (hne : cfg.block a.address ≠ block) : dirty cfg block ((a, hit) :: h) = dirty cfg block h := by
  have hwrites : writes cfg a ≠ some block := by
    cases a with
    | load address => exact nofun
    | store address => exact fun h => hne (Option.some.inj h)
  have hinserts : inserts cfg (a, hit) ≠ some block := by
    intro hi
    have hsome : (inserts cfg (a, hit)).isSome := by simp [hi]
    rw [inserts_eq hsome] at hi
    exact hne (Option.some.inj hi)
  simp [dirty, storedSinceFetch, hwrites, hinserts]

/-- What an access does to the dirty bits of its set: those of other tags stay, and the
bit of the accessed tag is set by a store under write-back and else kept, or clear after
an insertion. -/
private theorem mem_stackAccess (he : e ∈ (stackAccess cfg a stack).entries) :
    (e.1 ≠ cfg.tag a.address ∧ e ∈ stack.entries) ∨
      e.1 = cfg.tag a.address ∧ ∃ d, e.2 = (!cfg.writeThrough && (writes cfg a).isSome || d) ∧
        ((e.1, d) ∈ stack.entries ∨ cfg.tag a.address ∉ stack.keys ∧ d = false ∧
          inserts cfg (a, false) = some (cfg.block a.address)) := by
  by_cases ht : cfg.tag a.address ∈ stack.keys
  · have hkeep : e ∈ stack.entries → writes cfg a = none ∨ cfg.writeThrough = true →
        (e.1 ≠ cfg.tag a.address ∧ e ∈ stack.entries) ∨
        e.1 = cfg.tag a.address ∧ ∃ d, e.2 = (!cfg.writeThrough && (writes cfg a).isSome || d) ∧
          ((e.1, d) ∈ stack.entries ∨ cfg.tag a.address ∉ stack.keys ∧ d = false ∧
          inserts cfg (a, false) = some (cfg.block a.address)) := by
      intro hm hw
      by_cases heq : e.1 = cfg.tag a.address
      · refine .inr ⟨heq, e.2, ?_, .inl hm⟩
        rcases hw with hw | hw <;> simp [hw]
      · exact .inl ⟨heq, hm⟩
    have hraise : ∀ e', e' ∈ (if cfg.lru then stack.raise (cfg.tag a.address) else stack).entries →
        e' ∈ stack.entries := by
      intro e' he'
      cases hl : cfg.lru <;> simpa [hl] using he'
    cases a with
    | load address =>
      simp only [stackAccess, if_pos ht] at he
      exact hkeep (hraise e he) (.inl rfl)
    | store address =>
      simp only [stackAccess, if_pos ht] at he
      cases hw : cfg.writeThrough with
      | true =>
        rw [hw, if_pos rfl] at he
        simpa [hw] using hkeep (hraise e he) (.inr hw)
      | false =>
        rw [hw, if_neg Bool.false_ne_true] at he
        obtain ⟨d, hm, hd⟩ := KeyedStack.mem_adjust he
        have hm' := hraise _ hm
        by_cases heq : e.1 = cfg.tag (Access.store address).address
        · refine .inr ⟨heq, d, ?_, .inl hm'⟩
          simp [hd, heq, writes]
        · rw [if_neg heq] at hd
          have hsame : (e.1, d) = e := Prod.ext rfl hd.symm
          exact .inl ⟨heq, hsame ▸ hm'⟩
  · cases a with
    | load address =>
      simp only [stackAccess, if_neg ht] at he
      rcases KeyedStack.mem_fill he with rfl | hm
      · exact .inr ⟨rfl, false, by simp [writes], .inr ⟨ht, rfl, rfl⟩⟩
      · exact .inl hm
    | store address =>
      simp only [stackAccess, if_neg ht] at he
      cases ha : cfg.writeAllocate with
      | true =>
        rw [ha, if_pos rfl] at he
        rcases KeyedStack.mem_fill he with rfl | hm
        · exact .inr ⟨rfl, false, by simp [writes], .inr ⟨ht, rfl, by simp [inserts, ha, Access.address]⟩⟩
        · exact .inl hm
      | false =>
        rw [ha, if_neg Bool.false_ne_true] at he
        exact .inl ⟨stack.ne_of_notMem_keys ht e he, he⟩

/-- After every run the entries of the stacks carry the dirty bits of their blocks. -/
private theorem dirty_of_mem (hv : cfg.Sized) {h : List (Access × Bool)} (hf : Flagged cfg h)
    {i : ℕ} (hi : i < cfg.sets) (he : e ∈ (recencyStacks cfg (h.map Prod.fst) i).entries) :
    e.2 = dirty cfg (cfg.blockAt i e.1) h := by
  induction h generalizing i e with
  | nil => simp [recencyStacks, KeyedStack.empty] at he
  | cons x h ih =>
    obtain ⟨a, hit⟩ := x
    obtain ⟨hhit, hf⟩ := hf
    simp only [List.map_cons, recencyStacks] at he
    by_cases hia : i = cfg.index a.address
    · subst hia
      rw [Function.update_self] at he
      rcases mem_stackAccess he with ⟨hne, hm⟩ | ⟨htag, d, hd, hold⟩
      · rw [dirty_cons_of_ne, ih hf hi hm]
        rw [← Config.Sized.blockAt_eq]
        exact fun heq => hne (hv.blockAt_injective _ heq).symm
      · rw [htag, Config.Sized.blockAt_eq, hd]
        have hwrites : (writes cfg a).isSome = decide (writes cfg a = some (cfg.block a.address)) := by
          cases a <;> simp [writes, Access.address]
        rcases hold with hm | ⟨ht, rfl, hinserts⟩
        · have hold : d = dirty cfg (cfg.block a.address) h := by
            simpa only [htag, Config.Sized.blockAt_eq] using ih hf hi hm
          have hmem : e.1 ∈ (recencyStacks cfg (h.map Prod.fst) (cfg.index a.address)).keys :=
            List.mem_map.mpr ⟨_, hm, rfl⟩
          have htrue : hit = true := hhit.mpr (htag ▸ hmem)
          have hnone : inserts cfg (a, hit) = none := by
            rw [htrue]
            cases a <;> simp [inserts]
          rw [hold, dirty, dirty, storedSinceFetch, hwrites, hnone, ← Bool.and_or_distrib_left]
          simp
        · have hmiss : hit = false := by simpa using fun h => ht (hhit.mp h)
          rw [dirty, storedSinceFetch, hwrites, hmiss, hinserts]
          simp
    · rw [Function.update_of_ne hia] at he
      rw [dirty_cons_of_ne, ih hf hi he]
      intro heq
      have hmod : cfg.blockAt i e.1 % cfg.sets = i := by
        rw [Config.blockAt, Nat.mul_add_mod_of_lt hi]
      rw [← heq] at hmod
      exact hia hmod.symm

end Stacks

/-- Every evicted block carries the dirty bit that its history tells. -/
theorem Run.dirty_of_evicted {cfg : Config} (hv : cfg.Sized) {h : List (Access × Bool)}
    {c c' : Cache} (run : Run cfg h c) {a : Access} (step : perform cfg c a = some c') :
    ∀ v ∈ evicted cfg c c', v.2 = dirty cfg v.1 h := by
  intro v hm
  obtain ⟨hp, -, -⟩ := run.access_effect hv step
  obtain ⟨e, he, rfl⟩ := List.mem_map.mp (hp.mem_iff.mp hm)
  exact dirty_of_mem hv (run.flagged hv) (hv.index_lt a.address) (List.mem_filter.mp he).1

/-- Under write-through no eviction is dirty. -/
theorem CountedRun.clean {cfg : Config} (hv : cfg.Sized) (hw : cfg.writeThrough = true)
    {h : List (Access × Bool)} {c : Cache} {n : ℕ} (run : CountedRun cfg h c n) : n = 0 := by
  induction run with
  | start => rfl
  | access a run test step ih =>
    rw [ih, Nat.zero_add, List.countP_eq_zero]
    intro v hm
    rw [run.run.dirty_of_evicted hv step v hm, dirty, hw]
    exact Bool.false_ne_true
  | rehash run perm ih => exact ih

/-- Dirty bits are exact. After any accesses a resident block is dirty exactly when the
cache is write-back and the block was stored to since the access that last brought it in.
The next access evicts at most one block, and besides its own cost it is charged one
write-back exactly when it evicts such a block. -/
theorem dirty_iff_stored_since_fetch (cfg : Config) (hv : cfg.Sized) :
    (∀ as : List Access, ∃ h c, h.map Prod.fst = as ∧ Run cfg h c) ∧
    ∀ h c, Run cfg h c →
      (∀ (index : ℕ) (s : CacheSet), c.data[index]? = some s → ∀ e ∈ s,
        (e.2.second = true ↔ cfg.writeThrough = false ∧
          storedSinceFetch cfg (cfg.blockAt index e.1) h = true)) ∧
      ∀ a : Access, ∃ hit c', hits cfg c a.address = some hit ∧ perform cfg c a = some c' ∧
        (evicted cfg c c').length ≤ 1 ∧
        c'.cycles = c.cycles + accessCost cfg a hit + cfg.byteNum * 25 *
          (evicted cfg c c').countP
            (fun v => !cfg.writeThrough && storedSinceFetch cfg v.1 h) := by
  refine ⟨exists_run hv, fun h c run => ⟨fun index s hget e he => ?_, fun a => ?_⟩⟩
  · have hsim := run.simulates hv
    have hi : index < cfg.sets := by
      rw [← hsim.length_eq]
      exact (List.getElem?_eq_some_iff.mp hget).1
    have hm := (hsim.stores index s hget).dirty_perm.mem_iff.mp (List.mem_map_of_mem he)
    have hd := dirty_of_mem hv (run.flagged hv) hi hm
    simp only [dirty] at hd
    simp [hd]
  · obtain ⟨c', test, step, -, -⟩ := (run.simulates hv).step hv a
    obtain ⟨-, hone, hcycles⟩ := run.access_effect hv step
    have hcount : (evicted cfg c c').countP
        (fun v => !cfg.writeThrough && storedSinceFetch cfg v.1 h) =
        (evicted cfg c c').countP Prod.snd :=
      List.countP_congr fun v hm => by rw [run.dirty_of_evicted hv step v hm, dirty]
    exact ⟨_, c', test, step, hone, hcount ▸ hcycles⟩

theorem dirty_after_store_loads :
    ∃ (h : List (Access × Bool)) (c : Cache),
      h.map Prod.fst = [.load 8, .store 0] ∧
      ∀ s, c.data[0]? = some s → ∀ e ∈ s,
        (e.2.second = true ↔ (smallConfig true).writeThrough = false ∧
          storedSinceFetch (smallConfig true) ((smallConfig true).blockAt 0 e.1) h = true) := by
  have hdirty := dirty_iff_stored_since_fetch (smallConfig true) (smallConfig_valid true).sized
  obtain ⟨h, c, hh, run⟩ := hdirty.1 [.load 8, .store 0]
  exact ⟨h, c, hh, (hdirty.2 h c run).1 0⟩

end CsfAssignments.Csim
