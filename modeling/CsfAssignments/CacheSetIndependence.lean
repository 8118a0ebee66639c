import CsfAssignments.CacheRefinement
import CsfAssignments.Reorderings

/-!
# The sets of the cache are independent

An access reads and writes one set and adds amounts to the counters that depend on that set
alone. So accesses to different sets commute, and a trace may be interleaved in any way that
keeps the accesses to each set in their order.
-/

namespace CsfAssignments.Csim
open RecencyStacks Reorderings

/-- The index of the set that an access is about, as the code cuts it out of the address. -/
def Access.setIndex (cfg : Config) (a : Access) : Option (BitVec 32) :=
  (slice cfg a.address).map Prod.fst

/-- The counters of one cache added to those of another. -/
def Cache.plus (c d : Cache) : Cache :=
  { data := c.data
    totalLoad := c.totalLoad + d.totalLoad
    totalStore := c.totalStore + d.totalStore
    loadHit := c.loadHit + d.loadHit
    loadMiss := c.loadMiss + d.loadMiss
    storeHit := c.storeHit + d.storeHit
    storeMiss := c.storeMiss + d.storeMiss
    cycles := c.cycles + d.cycles }

theorem Cache.plus_right_comm (c d e : Cache) : (c.plus d).plus e = (c.plus e).plus d := by
  simp only [Cache.plus, add_right_comm]

variable {cfg : Config}

/-- What an access adds to the counters does not depend on them. -/
theorem account_eq_plus (a : Access) (stack : cfg.Stack) (c : Cache) :
    account cfg a stack c = c.plus (account cfg a stack { cache cfg with data := [] }) := by
  by_cases ht : cfg.tag a.address ∈ stack.keys
  · cases a <;> simp [account, ht, Cache.plus, cache, add_assoc]
  · cases a with
    | load address => simp [account, ht, Cache.plus, cache, add_assoc]
    | store address =>
      cases ha : cfg.writeAllocate <;> simp [account, ht, ha, Cache.plus, cache, add_assoc]

/-- The effect of an access on all stacks and on the counters. -/
def setAccess (cfg : Config) (a : Access) (s : (ℕ → cfg.Stack) × Cache) :
    (ℕ → cfg.Stack) × Cache :=
  (Function.update s.1 (cfg.index a.address) (stackAccess cfg a (s.1 (cfg.index a.address))),
    account cfg a (s.1 (cfg.index a.address)) s.2)

theorem foldr_setAccess (cfg : Config) (as : List Access) :
    as.foldr (setAccess cfg)
        (fun _ => KeyedStack.empty Tag Bool cfg.ways, { cache cfg with data := [] }) =
      (recencyStacks cfg as, tally cfg as) := by
  induction as with
  | nil => rfl
  | cons a as ih =>
    rw [List.foldr_cons, ih]
    rfl

theorem setAccess_comm {a b : Access} (hab : cfg.index a.address ≠ cfg.index b.address)
    (s : (ℕ → cfg.Stack) × Cache) :
    setAccess cfg a (setAccess cfg b s) = setAccess cfg b (setAccess cfg a s) := by
  simp only [setAccess, Function.update_of_ne hab, Function.update_of_ne hab.symm]
  refine Prod.ext (Function.update_comm hab.symm _ _ _) ?_
  -- each amount comes from the set that the other access left alone
  rw [account_eq_plus a, account_eq_plus b _ s.2, account_eq_plus b _ (account cfg a _ s.2),
    account_eq_plus a _ s.2]
  exact Cache.plus_right_comm _ _ _

theorem setIndex_eq (hv : cfg.Sized) (a : Access) :
    a.setIndex cfg = some (BitVec.ofNat 32 (cfg.index a.address)) := by
  rw [Access.setIndex, hv.slice_eq, Option.map_some]

/-- The accesses to each set in the same order make the same stacks and the same counters. -/
theorem stacks_eq_of_setIndex (hv : cfg.Sized) {as as' : List Access}
    (hsame : ∀ i, as.filter (fun a => a.setIndex cfg = some i) =
      as'.filter (fun a => a.setIndex cfg = some i)) :
    recencyStacks cfg as = recencyStacks cfg as' ∧ tally cfg as = tally cfg as' := by
  have hreordered : Reordered (Access.setIndex cfg) as as' := by
    refine reordered_iff_filter_eq.mpr fun k => ?_
    cases k with
    | none => simp [setIndex_eq hv]
    | some i => exact hsame i
  have hcomm : ∀ a b s, a.setIndex cfg ≠ b.setIndex cfg →
      setAccess cfg a (setAccess cfg b s) = setAccess cfg b (setAccess cfg a s) := by
    intro a b s hab
    refine setAccess_comm (fun hindex => hab ?_) s
    rw [setIndex_eq hv, setIndex_eq hv, hindex]
  have heq := hreordered.foldr_eq hcomm
    (fun _ => KeyedStack.empty Tag Bool cfg.ways, { cache cfg with data := [] })
  rw [foldr_setAccess, foldr_setAccess] at heq
  exact Prod.ext_iff.mp heq

/-- Sets are independent. Two traces with the same accesses to every set in the same order end
with the same blocks, orders and dirty bits in every set and with the same seven counters. -/
theorem sets_independent (cfg : Config) (hv : cfg.Sized) :
    (∀ as : List Access, ∃ h c, h.map Prod.fst = as ∧ Run cfg h c) ∧
    ∀ h c h' c', Run cfg h c → Run cfg h' c' →
      (∀ i, (h.map Prod.fst).filter (fun a => a.setIndex cfg = some i) =
        (h'.map Prod.fst).filter (fun a => a.setIndex cfg = some i)) →
      List.Forall₂ List.Perm c.data c'.data ∧
      c.totalLoad = c'.totalLoad ∧ c.totalStore = c'.totalStore ∧
      c.loadHit = c'.loadHit ∧ c.loadMiss = c'.loadMiss ∧
      c.storeHit = c'.storeHit ∧ c.storeMiss = c'.storeMiss ∧ c.cycles = c'.cycles := by
  refine ⟨exists_run hv, fun h c h' c' run run' hsame => ?_⟩
  obtain ⟨hstacks, htally⟩ := stacks_eq_of_setIndex hv hsame
  have hsim := run.simulates hv
  have hsim' := run'.simulates hv
  refine ⟨?_, ?_⟩
  · refine List.forall₂_iff_get.mpr ⟨hsim.length_eq.trans hsim'.length_eq.symm, fun i hi hi' => ?_⟩
    have hs := hsim.stores i _ (List.getElem?_eq_getElem hi)
    have hs' := hsim'.stores i _ (List.getElem?_eq_getElem hi')
    rw [hstacks] at hs
    exact hs.trans hs'.symm
  · have hcounters := hsim.counters.trans (htally.trans hsim'.counters.symm)
    simpa only [Cache.mk.injEq, true_and] using hcounters

theorem sets_independent_two_sets :
    ∃ (h h' : List (Access × Bool)) (c c' : Cache),
      h.map Prod.fst = [.store 4, .load 16, .store 0] ∧
      h'.map Prod.fst = [.load 16, .store 4, .store 0] ∧
      List.Forall₂ List.Perm c.data c'.data ∧ c.cycles = c'.cycles := by
  have hindependent := sets_independent (smallConfig true) (smallConfig_valid true).sized
  obtain ⟨h, c, hh, run⟩ := hindependent.1 [.store 4, .load 16, .store 0]
  obtain ⟨h', c', hh', run'⟩ := hindependent.1 [.load 16, .store 4, .store 0]
  have hreordered : Reordered (Access.setIndex (smallConfig true)) (h.map Prod.fst)
      (h'.map Prod.fst) := by
    rw [hh, hh']
    exact .swap _ _ _ (by decide +kernel)
  obtain ⟨hdata, -, -, -, -, -, -, hcycles⟩ := hindependent.2 h c h' c' run run'
    (fun i => hreordered.filter_eq (some i))
  exact ⟨h, h', c, c', hh, hh', hdata, hcycles⟩

end CsfAssignments.Csim
