import CsfAssignments.CacheConfiguration
import CsfAssignments.CheckedArithmetic

/-!
# When the cycles fit an `int`

The source adds the cycles up in a 32-bit `int`. Every charge is nonnegative, so the sum and the
products in it stay within the type exactly when the charges of the whole trace do.
-/

namespace CsfAssignments.Csim
open CIntegers RecencyStacks CheckedArithmetic

/-- The charge in one iteration of the victim search of the two miss handlers. -/
def victimStepInt (cfg : Config) (cycles : ℤ) (e : Tag × Block) : Option ℤ :=
  if e.2.first = toUInt64 (cfg.blockNum - 1) then
    if e.2.second then do addInt cycles (← mulInt cfg.byteNum 25) else some cycles
  else some cycles

/-- The charges of the full-set branch of the two miss handlers. -/
def evictInt (cfg : Config) (s : CacheSet) (cycles : ℤ) : Option ℤ :=
  if isSetFull cfg s then s.foldlM (victimStepInt cfg) cycles else some cycles

/-! ### The additions to `cycles` in each handler, in their order -/

def countLoadHitInt (cycles : ℤ) : Option ℤ := addInt cycles 1

def countLoadMissInt (cfg : Config) (s : CacheSet) (cycles : ℤ) : Option ℤ := do
  let cycles ← evictInt cfg s cycles
  addInt cycles (← mulInt cfg.byteNum 25)

def countStoreHitInt (cfg : Config) (cycles : ℤ) : Option ℤ := do
  let cycles ← addInt cycles 1
  if cfg.writeThrough then addInt cycles 100 else some cycles

def countStoreMissInt (cfg : Config) (s : CacheSet) (cycles : ℤ) : Option ℤ :=
  if cfg.writeAllocate then do
    let cycles ← (do addInt cycles (← mulInt 25 cfg.byteNum))
    let cycles ← evictInt cfg s cycles
    let cycles ← addInt cycles 1
    if cfg.writeThrough then addInt cycles 100 else some cycles
  else addInt cycles 100

/-- The `int` arithmetic of an access to a cache; no result when a sum or a product overflows. -/
def performInt (cfg : Config) (c : Cache) (a : Access) (cycles : ℤ) : Option ℤ := do
  let (index, _) ← slice cfg a.address
  let hit ← hits cfg c a.address
  let s ← c.data[index.toNat]?
  match a with
  | .load _ => if hit then countLoadHitInt cycles else countLoadMissInt cfg s cycles
  | .store _ => if hit then countStoreHitInt cfg cycles else countStoreMissInt cfg s cycles

/-- The runs of a cache with the `int` that the source holds in `cycles`. The cache itself still
has their exact sum. -/
inductive IntRun (cfg : Config) : List (Access × Bool) → Cache → ℤ → Prop
  | start : IntRun cfg [] (cache cfg) 0
  | access {h c cycles c' cycles'} (a : Access) {hit : Bool} (run : IntRun cfg h c cycles)
      (test : hits cfg c a.address = some hit) (step : perform cfg c a = some c')
      (add : performInt cfg c a cycles = some cycles') : IntRun cfg ((a, hit) :: h) c' cycles'
  | rehash {h c cycles} {data : List CacheSet} (run : IntRun cfg h c cycles)
      (perm : List.Forall₂ List.Perm c.data data) : IntRun cfg h { c with data := data } cycles

/-- The cycles of a trace stay within an `int`: whatever the trace has done so far, the next
access overflows nowhere and does not lower the total, and the total is the exact sum. -/
structure CyclesInRange (cfg : Config) (as : List Access) : Prop where
  inRange : ∀ h c cycles a, IntRun cfg h c cycles → a :: h.map Prod.fst <:+ as →
    (performInt cfg c a cycles).isSome
  exact : ∀ h c cycles, IntRun cfg h c cycles → h.map Prod.fst <:+ as → cycles = c.cycles
  monotone : ∀ h c cycles a cycles', IntRun cfg h c cycles → a :: h.map Prod.fst <:+ as →
    performInt cfg c a cycles = some cycles' → cycles ≤ cycles'

/-- The charge for an access by what the trace did before: its own cost, by whether its tag is
resident, and a write-back for a modified block that it forgets. -/
def charge (cfg : Config) (a : Access) (stack : cfg.Stack) : ℤ :=
  accessCost cfg a (decide (cfg.tag a.address ∈ stack.keys)) +
    cfg.byteNum * 25 * (forgotten cfg a stack).countP Prod.snd

/-- The charges of a trace, the latest access first. -/
def traceCharge (cfg : Config) : List Access → ℤ
  | [] => 0
  | a :: as => traceCharge cfg as + charge cfg a (recencyStacks cfg as (cfg.index a.address))

section Handlers

variable {cfg : Config} {s : CacheSet} {stack : cfg.Stack}

private theorem byteNum_nonneg (hv : cfg.Sized) : 0 ≤ cfg.byteNum :=
  le_trans (by norm_num) hv.four_le

/-- Blocks that are no victims are not charged for. -/
private theorem foldlM_adds_of_ne {l : CacheSet}
    (hl : ∀ e ∈ l, e.2.first ≠ toUInt64 (cfg.blockNum - 1)) :
    Adds (l.foldlM (victimStepInt cfg)) 0 := by
  have hsome : l.foldlM (victimStepInt cfg) = some := by
    funext cycles
    induction l with
    | nil => rfl
    | cons e l ih =>
      rw [List.foldlM_cons, victimStepInt, if_neg (hl e List.mem_cons_self)]
      exact ih fun e he => hl e (List.mem_cons_of_mem _ he)
  rw [hsome]
  exact Adds.some

private theorem victimStepInt_adds (hv : cfg.Sized) (tag : Tag) (d : Bool) :
    Adds (fun cycles => victimStepInt cfg cycles (tag, ⟨toUInt64 (cfg.blockNum - 1), d⟩))
      (if d then cfg.byteNum * 25 else 0) := by
  cases d with
  | true =>
    simp only [victimStepInt, if_true]
    exact Adds.add_mul (byteNum_nonneg hv) (by norm_num)
  | false =>
    simp only [victimStepInt, if_true, Bool.false_eq_true, if_false]
    exact Adds.some

/-- The victim search adds the write-back of the last block, if that is dirty. -/
theorem evictInt_adds (hv : cfg.Sized) (h : Stores s stack) :
    Adds (evictInt cfg s) (writeBack cfg stack) := by
  by_cases hfull : stack.entries.length = cfg.ways
  · obtain ⟨l, ⟨tag, d⟩, hs⟩ := exists_last_of_full hv hfull
    obtain ⟨before, after, rfl, hbefore, hafter⟩ := victim_split hv h hs hfull
    have hcharge : writeBack cfg stack = 0 + ((if d then cfg.byteNum * 25 else 0) + 0) := by
      have hlen : l.length + 1 = cfg.ways := by simpa [hs] using hfull
      simp [writeBack, hs, hlen]
    have hloop := (foldlM_adds_of_ne hbefore).bind
      ((victimStepInt_adds hv tag d).bind (foldlM_adds_of_ne hafter))
    rw [hcharge]
    convert hloop using 1
    funext cycles
    rw [evictInt, if_pos ((isSetFull_iff hv h).mpr hfull), List.foldlM_append]
    rfl
  · have hnot : ¬isSetFull cfg s = true := fun hf => hfull ((isSetFull_iff hv h).mp hf)
    have hsome : evictInt cfg s = some := funext fun cycles => if_neg hnot
    rw [hsome, writeBack, if_neg fun hw => hfull hw.1]
    exact Adds.some

private theorem through_adds (cfg : Config) :
    Adds (fun cycles => if cfg.writeThrough then addInt cycles 100 else some cycles)
      (if cfg.writeThrough then 100 else 0) := by
  cases cfg.writeThrough with
  | true => exact Adds.add (by norm_num)
  | false => exact Adds.some

theorem countLoadMissInt_adds (hv : cfg.Sized) (h : Stores s stack) :
    Adds (countLoadMissInt cfg s) (writeBack cfg stack + cfg.byteNum * 25) :=
  (evictInt_adds hv h).bind (Adds.add_mul (byteNum_nonneg hv) (by norm_num))

theorem countStoreHitInt_adds (cfg : Config) :
    Adds (countStoreHitInt cfg) (1 + if cfg.writeThrough then 100 else 0) :=
  (Adds.add (by norm_num)).bind (through_adds cfg)

theorem countStoreMissInt_adds (hv : cfg.Sized) (h : Stores s stack) :
    Adds (countStoreMissInt cfg s) (if cfg.writeAllocate then
      25 * cfg.byteNum + (writeBack cfg stack + (1 + if cfg.writeThrough then 100 else 0))
      else 100) := by
  cases ha : cfg.writeAllocate with
  | true =>
    have hall := (Adds.add_mul (m := 25) (by norm_num) (byteNum_nonneg hv)).bind
      ((evictInt_adds hv h).bind (countStoreHitInt_adds cfg))
    rw [if_pos rfl]
    convert hall using 1
    funext cycles
    rw [countStoreMissInt, if_pos ha]
    rfl
  | false =>
    have hnone : countStoreMissInt cfg s = fun cycles => addInt cycles 100 := by
      funext cycles
      rw [countStoreMissInt, if_neg (by simp [ha])]
    rw [hnone]
    exact Adds.add (by norm_num)

/-- The charge is what the access adds to the counter. -/
theorem charge_eq (hv : cfg.Sized) (a : Access) (stack : cfg.Stack) :
    charge cfg a stack = (account cfg a stack (cache cfg)).cycles := by
  rw [(account_cycles hv a stack (cache cfg)).2, charge, cache]
  ring

/-- The handler that an access goes to. -/
private def handlerInt (cfg : Config) (s : CacheSet) (hit : Bool) : Access → ℤ → Option ℤ
  | .load _ => if hit then countLoadHitInt else countLoadMissInt cfg s
  | .store _ => if hit then countStoreHitInt cfg else countStoreMissInt cfg s

/-- An access hits exactly if its tag is in the stack. -/
private theorem performInt_eq (hv : cfg.Sized) {c : Cache} (a : Access) (h : Stores s stack)
    (hget : c.data[cfg.index a.address]? = some s) :
    performInt cfg c a = handlerInt cfg s (decide (cfg.tag a.address ∈ stack.keys)) a := by
  have hget' : c.data[(BitVec.ofNat 32 (cfg.index a.address)).toNat]? = some s := by
    rwa [Config.Sized.index_toNat]
  have htest := (perform_eq hv a h hget).1
  funext cycles
  simp only [performInt, hv.slice_eq a.address, htest, hget', Option.bind_eq_bind,
    Option.bind_some]
  cases a <;> (simp only [handlerInt]; split <;> rfl)

/-- An access adds its charge, if the sum is within the type. -/
theorem performInt_adds (hv : cfg.Sized) {c : Cache} (a : Access) (h : Stores s stack)
    (hget : c.data[cfg.index a.address]? = some s) :
    Adds (performInt cfg c a) (charge cfg a stack) := by
  rw [performInt_eq hv a h hget, charge_eq hv]
  by_cases ht : cfg.tag a.address ∈ stack.keys
  · rw [decide_eq_true ht]
    cases a with
    | load address =>
      show Adds (fun cycles => addInt cycles 1) _
      convert Adds.add (k := 1) (by norm_num) using 1
      simp [account, ht, cache]
    | store address =>
      show Adds (countStoreHitInt cfg) _
      convert countStoreHitInt_adds cfg using 1
      simp [account, ht, cache]
  · rw [decide_eq_false ht]
    cases a with
    | load address =>
      show Adds (countLoadMissInt cfg s) _
      convert countLoadMissInt_adds hv h using 1
      simp [account, ht, cache]
    | store address =>
      show Adds (countStoreMissInt cfg s) _
      convert countStoreMissInt_adds hv h using 1
      simp only [account, ht, cache, if_false]
      split <;> ring

end Handlers

section Runs

variable {cfg : Config} {h : List (Access × Bool)} {c c' : Cache} {cycles cycles' : ℤ}
  {a : Access} {as : List Access}

theorem IntRun.run (run : IntRun cfg h c cycles) : Run cfg h c := by
  induction run with
  | start => exact .start
  | access a run test step add ih => exact .access a ih test step
  | rehash run perm ih => exact .rehash ih perm

theorem Run.performInt_adds (hv : cfg.Sized) (run : Run cfg h c) (a : Access) :
    Adds (performInt cfg c a)
      (charge cfg a (recencyStacks cfg (h.map Prod.fst) (cfg.index a.address))) := by
  have hsim := run.simulates hv
  have hi : cfg.index a.address < c.data.length := hsim.length_eq ▸ hv.index_lt a.address
  have hget := List.getElem?_eq_getElem hi
  exact Csim.performInt_adds hv a (hsim.stores _ _ hget) hget

theorem charge_nonneg (hv : cfg.Sized) (a : Access) (stack : cfg.Stack) :
    0 ≤ charge cfg a stack := by
  have hbyte := byteNum_nonneg hv
  have hcost : 0 ≤ accessCost cfg a (decide (cfg.tag a.address ∈ stack.keys)) := by
    cases a <;> rw [accessCost] <;> split_ifs <;> positivity
  rw [charge]
  positivity

/-- The total never decreases. -/
theorem traceCharge_le_cons (hv : cfg.Sized) (a : Access) (as : List Access) :
    traceCharge cfg as ≤ traceCharge cfg (a :: as) :=
  le_add_of_nonneg_right (charge_nonneg hv a _)

theorem traceCharge_le_of_suffix (hv : cfg.Sized) {as' : List Access} (hs : as' <:+ as) :
    traceCharge cfg as' ≤ traceCharge cfg as := by
  obtain ⟨l, rfl⟩ := hs
  induction l with
  | nil => exact le_rfl
  | cons a l ih => exact ih.trans (traceCharge_le_cons hv a (l ++ as'))

theorem traceCharge_nonneg (hv : cfg.Sized) (as : List Access) : 0 ≤ traceCharge cfg as := by
  have hnil : traceCharge cfg [] ≤ traceCharge cfg as :=
    traceCharge_le_of_suffix hv List.nil_suffix
  exact hnil

/-- The exact sum in the cache is the charge of the trace. -/
theorem Run.cycles_eq (hv : cfg.Sized) (run : Run cfg h c) :
    c.cycles = traceCharge cfg (h.map Prod.fst) := by
  have htally : c.cycles = (tally cfg (h.map Prod.fst)).cycles := by
    rw [← (run.simulates hv).counters]
  rw [htally]
  generalize h.map Prod.fst = as
  induction as with
  | nil => rfl
  | cons a as ih => rw [tally, (account_cycles hv a _ _).2, ih, traceCharge, charge, add_assoc]

/-- The `int` of a run is the charge of its trace, and within the type. -/
theorem IntRun.cycles_eq (hv : cfg.Sized) (run : IntRun cfg h c cycles) :
    cycles = traceCharge cfg (h.map Prod.fst) ∧ traceCharge cfg (h.map Prod.fst) < 2 ^ 31 := by
  induction run with
  | start => exact ⟨rfl, by norm_num [traceCharge]⟩
  | @access h c cycles c' cycles' a hit run test step add ih =>
    obtain ⟨rfl, hlt⟩ := ih
    rw [(run.run.performInt_adds hv a).apply_eq (traceCharge_nonneg hv _) hlt] at add
    exact checked_eq_some add
  | rehash run perm ih => exact ih

/-- A trace whose charges are within the type has a run of the source. -/
theorem exists_intRun (hv : cfg.Sized) (has : traceCharge cfg as < 2 ^ 31) :
    ∃ h c, h.map Prod.fst = as ∧ IntRun cfg h c (traceCharge cfg as) := by
  induction as with
  | nil => exact ⟨[], _, rfl, .start⟩
  | cons a as ih =>
    have hlt := (traceCharge_le_cons hv a as).trans_lt has
    obtain ⟨h, c, rfl, run⟩ := ih hlt
    obtain ⟨test, c', step, -⟩ := (run.run.simulates hv).perform hv a
    have hadd := (run.run.performInt_adds hv a).apply_eq (traceCharge_nonneg hv _) hlt
    rw [checked_of_lt (add_nonneg (traceCharge_nonneg hv _) (charge_nonneg hv a _)) has] at hadd
    exact ⟨_, c', rfl, .access a run test step hadd⟩

/-- The first access that takes the charge out of the type overflows. -/
theorem CyclesInRange.traceCharge_lt (hv : cfg.Sized) (hr : CyclesInRange cfg as) :
    traceCharge cfg as < 2 ^ 31 := by
  have hall : ∀ as', as' <:+ as → traceCharge cfg as' < 2 ^ 31 := by
    intro as' hs
    induction as' with
    | nil => norm_num [traceCharge]
    | cons a as' ih =>
      have hlt := ih ((List.suffix_cons a as').trans hs)
      obtain ⟨h, c, rfl, run⟩ := exists_intRun hv hlt
      obtain ⟨cycles', hadd⟩ := Option.isSome_iff_exists.mp (hr.inRange h c _ a run hs)
      rw [(run.run.performInt_adds hv a).apply_eq (traceCharge_nonneg hv _) hlt] at hadd
      exact (checked_eq_some hadd).2
  exact hall as List.suffix_rfl

theorem cyclesInRange_of_lt (hv : cfg.Sized) (has : traceCharge cfg as < 2 ^ 31) :
    CyclesInRange cfg as where
  inRange h c cycles a run hs := by
    obtain ⟨rfl, hlt⟩ := run.cycles_eq hv
    have hcons := (traceCharge_le_of_suffix hv hs).trans_lt has
    rw [(run.run.performInt_adds hv a).apply_eq (traceCharge_nonneg hv _) hlt,
      checked_of_lt (add_nonneg (traceCharge_nonneg hv _) (charge_nonneg hv a _)) hcons]
    rfl
  exact h c cycles run _ := (run.cycles_eq hv).1.trans (run.run.cycles_eq hv).symm
  monotone h c cycles a cycles' run _ hadd := by
    obtain ⟨rfl, hlt⟩ := run.cycles_eq hv
    rw [(run.run.performInt_adds hv a).apply_eq (traceCharge_nonneg hv _) hlt] at hadd
    rw [(checked_eq_some hadd).1]
    exact le_add_of_nonneg_right (charge_nonneg hv a _)

/-- No access is charged more than two transfers of a block and 101 cycles. -/
theorem charge_le (hv : cfg.Sized) (a : Access) (stack : cfg.Stack) :
    charge cfg a stack ≤ 50 * cfg.byteNum + 101 := by
  have hbyte := byteNum_nonneg hv
  have hcost : accessCost cfg a (decide (cfg.tag a.address ∈ stack.keys)) ≤
      25 * cfg.byteNum + 101 := by
    cases a <;> rw [accessCost] <;> split_ifs <;> omega
  have hone : (forgotten cfg a stack).countP Prod.snd ≤ 1 :=
    (List.countP_le_length).trans (account_cycles hv a stack (cache cfg)).1
  have hback : cfg.byteNum * 25 * ((forgotten cfg a stack).countP Prod.snd : ℤ) ≤
      cfg.byteNum * 25 * 1 := by
    gcongr
    exact_mod_cast hone
  rw [charge]
  omega

/-- Traces that are short for the size of the blocks stay within the type. -/
theorem cyclesInRange_of_length (hv : cfg.Sized)
    (hlen : (50 * cfg.byteNum + 101) * as.length < 2 ^ 31) : CyclesInRange cfg as := by
  refine cyclesInRange_of_lt hv (lt_of_le_of_lt ?_ hlen)
  clear hlen
  induction as with
  | nil => simp [traceCharge]
  | cons a as ih =>
    have hcharge := charge_le hv a (recencyStacks cfg as (cfg.index a.address))
    rw [traceCharge, List.length_cons, Nat.cast_succ, mul_add, mul_one]
    exact add_le_add ih hcharge

end Runs

/-- The cycle total of an accepted command line with positive sizes within the address stays
within an `int` for a trace, and shows its exact sum, exactly when the charges of the trace do:
one for a hit, `25 * byteNum` for a fetched block and for a modified block that is pushed out,
and 100 for a store to memory. -/
theorem cycles_in_range_iff (argv : List String) (cfg : Config)
    (h : mainArguments argv = some (.ok cfg)) (hset : 0 < cfg.setNum) (hblock : 0 < cfg.blockNum)
    (haddr : cfg.setNum * cfg.byteNum < 2 ^ 32) (as : List Access) :
    CyclesInRange cfg as ↔ traceCharge cfg as < 2 ^ 31 :=
  ⟨CyclesInRange.traceCharge_lt (sized_of_mainArguments h hset hblock haddr),
    cyclesInRange_of_lt (sized_of_mainArguments h hset hblock haddr)⟩

theorem cycles_in_range_iff_store_load :
    CyclesInRange ⟨256, 4, 16, true, false, true⟩ [.load 16, .store 16] ↔
      traceCharge ⟨256, 4, 16, true, false, true⟩ [.load 16, .store 16] < 2 ^ 31 :=
  cycles_in_range_iff ["csim", "256", "4", "16", "write-allocate", "write-back", "lru"] _
    (by decide +kernel) (by decide) (by decide) (by decide) [.load 16, .store 16]

/-- One load into a block of 128 MiB already overflows. -/
theorem cycles_overflow :
    ¬∀ (argv : List String) (cfg : Config), mainArguments argv = some (.ok cfg) →
      0 < cfg.setNum → 0 < cfg.blockNum → cfg.setNum * cfg.byteNum < 2 ^ 32 →
      ∀ as : List Access, as.length < 2 ^ 31 → CyclesInRange cfg as := by
  intro hall
  have hr := hall ["csim", "1", "1", "134217728", "write-allocate", "write-back", "lru"]
    ⟨1, 1, 134217728, true, false, true⟩ (by decide +kernel) (by decide) (by decide) (by decide)
    [.load 0] (by decide)
  have hsome := hr.inRange [] _ 0 (.load 0) .start List.suffix_rfl
  exact absurd hsome (by decide +kernel)

end CsfAssignments.Csim
