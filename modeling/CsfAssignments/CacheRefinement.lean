import CsfAssignments.CacheStacks

/-!
# The cache refines one recency stack per set

The abstract cache keeps a bounded stack of tags for every set. Each access acts on the
stack of its own set and charges the counters; every run of the code is defined and
stores exactly these stacks.
-/

namespace CsfAssignments.Csim
open CIntegers RecencyStacks

/-- The stack of one set: at most `blockNum` tags with their dirty bits. -/
abbrev Config.Stack (cfg : Config) := KeyedStack Tag Bool cfg.ways

/-- The charge for writing the last block of a full set back to memory. -/
def writeBack (cfg : Config) (stack : cfg.Stack) : ℤ :=
  if stack.entries.length = cfg.ways ∧ stack.entries.getLast?.any Prod.snd then
    cfg.byteNum * 25
  else 0

/-- The effect of an access on the stack of its set. -/
def stackAccess (cfg : Config) (a : Access) (stack : cfg.Stack) : cfg.Stack :=
  let tag := cfg.tag a.address
  if tag ∈ stack.keys then
    let stack := if cfg.lru then stack.raise tag else stack
    match a with
    | .load _ => stack
    | .store _ => if cfg.writeThrough then stack else stack.adjust tag (fun _ => true)
  else
    match a with
    | .load _ => stack.fill tag false
    | .store _ => if cfg.writeAllocate then stack.fill tag (!cfg.writeThrough) else stack

/-- The effect of an access on the counters. -/
def account (cfg : Config) (a : Access) (stack : cfg.Stack) (c : Cache) : Cache :=
  let memory := if cfg.writeThrough then 100 else 0
  if cfg.tag a.address ∈ stack.keys then
    match a with
    | .load _ => { c with
        totalLoad := c.totalLoad + 1
        loadHit := c.loadHit + 1
        cycles := c.cycles + 1 }
    | .store _ => { c with
        totalStore := c.totalStore + 1
        storeHit := c.storeHit + 1
        cycles := c.cycles + 1 + memory }
  else
    match a with
    | .load _ => { c with
        totalLoad := c.totalLoad + 1
        loadMiss := c.loadMiss + 1
        cycles := c.cycles + writeBack cfg stack + cfg.byteNum * 25 }
    | .store _ => { c with
        totalStore := c.totalStore + 1
        storeMiss := c.storeMiss + 1
        cycles := if cfg.writeAllocate then
            c.cycles + 25 * cfg.byteNum + writeBack cfg stack + 1 + memory
          else c.cycles + 100 }

section Eviction

variable {cfg : Config} {s : CacheSet} {stack : cfg.Stack}

theorem isSetFull_iff (hv : cfg.Sized) (h : Stores s stack) :
    isSetFull cfg s = true ↔ stack.entries.length = cfg.ways := by
  have hlt := hv.ways_lt
  have hcast := hv.ways_cast
  have hways : toUInt64 cfg.blockNum = cfg.ways := by
    rw [← hcast, toUInt64_natCast (by omega)]
  simp [isSetFull, hways, h.length_eq]

private theorem foldl_victimStep_of_ne {l : CacheSet} {acc : Option Tag × ℤ}
    (hl : ∀ e ∈ l, e.2.first ≠ toUInt64 (cfg.blockNum - 1)) :
    l.foldl (victimStep cfg) acc = acc := by
  induction l generalizing acc with
  | nil => rfl
  | cons e l ih =>
    rw [List.foldl_cons, victimStep, if_neg (hl e List.mem_cons_self)]
    exact ih fun e he => hl e (List.mem_cons_of_mem _ he)

/-- In any iteration order the last tag of a full stack is the only block with the last order. -/
theorem victim_split (hv : cfg.Sized) (h : Stores s stack) {l : List (Tag × Bool)} {tag : Tag}
    {d : Bool} (hs : stack.entries = l ++ [(tag, d)]) (hfull : stack.entries.length = cfg.ways) :
    ∃ before after, s = before ++ (tag, ⟨toUInt64 (cfg.blockNum - 1), d⟩) :: after ∧
      (∀ e ∈ before, e.2.first ≠ toUInt64 (cfg.blockNum - 1)) ∧
      ∀ e ∈ after, e.2.first ≠ toUInt64 (cfg.blockNum - 1) := by
  have hlen : l.length + 1 = cfg.ways := by simpa [hs] using hfull
  have hlast : toUInt64 (cfg.blockNum - 1) = l.length := by
    have hlt := hv.ways_lt
    have hcast := hv.ways_cast
    rw [show cfg.blockNum - 1 = (l.length : ℤ) by omega, toUInt64_natCast (by omega)]
  have hp : s.Perm (numbered 0 l ++ [(tag, ⟨l.length, d⟩)]) := by
    simpa [Stores, hs, numbered] using h
  have hm : (tag, (⟨l.length, d⟩ : Block)) ∈ s := hp.mem_iff.mpr (by simp)
  obtain ⟨before, after, rfl⟩ := List.append_of_mem hm
  have hrest : (before ++ after).Perm (numbered 0 l) :=
    (List.perm_cons _).mp ((List.perm_middle.symm.trans hp).trans (List.perm_append_singleton _ _))
  have hne : ∀ e ∈ before ++ after, e.2.first ≠ toUInt64 (cfg.blockNum - 1) := by
    intro e he
    have := (order_of_mem_numbered (hrest.mem_iff.mp he)).2
    omega
  rw [hlast] at hne ⊢
  exact ⟨before, after, rfl, fun e he => hne e (List.mem_append_left _ he),
    fun e he => hne e (List.mem_append_right _ he)⟩

/-- The victim is the last tag of the full stack, and its write back is charged once. -/
theorem victimLoop_eq (hv : cfg.Sized) (h : Stores s stack) {l : List (Tag × Bool)} {tag : Tag}
    {d : Bool} (hs : stack.entries = l ++ [(tag, d)]) (hfull : stack.entries.length = cfg.ways)
    (cycles : ℤ) :
    victimLoop cfg s cycles = (some tag, if d then cycles + cfg.byteNum * 25 else cycles) := by
  obtain ⟨before, after, rfl, hbefore, hafter⟩ := victim_split hv h hs hfull
  rw [victimLoop, List.foldl_append, List.foldl_cons, foldl_victimStep_of_ne hbefore, victimStep,
    if_pos rfl, foldl_victimStep_of_ne hafter]

/-- After the eviction branch the set holds the entries that a fill keeps. -/
theorem evict_eq (hv : cfg.Sized) (h : Stores s stack) (cycles : ℤ) :
    ∃ s' l, evict cfg s cycles = some (s', cycles + writeBack cfg stack) ∧
      s'.Perm (numbered 0 l) ∧ (∀ e ∈ l, e ∈ stack.entries) ∧ l.length < cfg.ways ∧
      ∀ tag d, tag ∉ stack.keys → (stack.fill tag d).entries = (tag, d) :: l := by
  by_cases hfull : stack.entries.length = cfg.ways
  · obtain ⟨l, ⟨tag, d⟩, hs⟩ := exists_last_of_full hv hfull
    have hnodup := stack.nodup
    rw [hs, List.map_append, List.nodup_append] at hnodup
    have hl : ∀ e ∈ l, e.1 ≠ tag := fun e he =>
      hnodup.2.2 _ (List.mem_map_of_mem he) _ (by simp)
    have hp : s.Perm (numbered 0 l ++ [(tag, ⟨l.length, d⟩)]) := by
      simpa [Stores, hs, numbered] using h
    have hlen : l.length + 1 = cfg.ways := by simpa [hs] using hfull
    refine ⟨s.filter (fun e => e.1 ≠ tag), l, ?_, ?_, ?_, by omega, ?_⟩
    · rw [evict, if_pos ((isSetFull_iff hv h).mpr hfull), victimLoop_eq hv h hs hfull]
      have hcharge : writeBack cfg stack = if d then cfg.byteNum * 25 else 0 := by
        simp [writeBack, hs, hlen]
      rw [hcharge]
      cases d <;> simp
    · have hkeep : (numbered 0 l).filter (fun e => e.1 ≠ tag) = numbered 0 l :=
        List.filter_eq_self.mpr fun e he => by simpa using tag_of_mem_numbered hl e he
      have hf := hp.filter (fun e => e.1 ≠ tag)
      rwa [List.filter_append, hkeep, List.filter_cons_of_neg (by simp), List.filter_nil,
        List.append_nil] at hf
    · intro e he
      rw [hs]
      exact List.mem_append_left _ he
    · intro tag' d' hn
      exact stack.entries_fill_of_full hn d' hs hfull
  · refine ⟨s, stack.entries, ?_, h, fun e he => he, lt_of_le_of_ne stack.bounded hfull, ?_⟩
    · have hnot : ¬isSetFull cfg s = true := fun hf => hfull ((isSetFull_iff hv h).mp hf)
      simp [evict, hnot, writeBack, hfull]
    · intro tag d hn
      exact stack.entries_fill_of_lt hn d (lt_of_le_of_ne stack.bounded hfull)

/-- The insertion of the two miss handlers, after their eviction branch. -/
theorem fill_eq (hv : cfg.Sized) (h : Stores s stack) {tag : Tag} (ht : tag ∉ stack.keys)
    (cycles : ℤ) (d : Bool) :
    ∃ s', evict cfg s cycles = some (s', cycles + writeBack cfg stack) ∧
      Stores (setSecond (setFirst (s'.map increment) tag 0) tag d) (stack.fill tag d) := by
  obtain ⟨s', l, he, hp, hl, hlen, hfill⟩ := evict_eq hv h cycles
  refine ⟨s', he, ?_⟩
  have hlt := hv.ways_lt
  rw [Stores, hfill tag d ht]
  exact Stores.insert hp (fun e hm => stack.ne_of_notMem_keys ht e (hl e hm)) (by omega) d

end Eviction

section Handlers

variable {cfg : Config} {c : Cache} {s : CacheSet} {stack : cfg.Stack} {index : BitVec 32}
  {tag : Tag}

private theorem order_lt (h : Stores s stack) (ht : tag ∈ stack.keys) : order s tag < cfg.ways := by
  obtain ⟨l, d, r, hs, -, -⟩ := stack.split_of_mem ht
  have hb := stack.bounded
  simp only [hs, List.length_append, List.length_cons] at hb
  rw [h.order_eq hs]
  omega

private theorem subscript_eq (h : Stores s stack) (ht : tag ∈ stack.keys) :
    subscript s tag = s := by
  rw [subscript, if_pos (h.isHit_iff.mpr ht)]

/-- The reordering of a hit, whichever type the compared order is converted to. -/
private theorem reorder_stores (hv : cfg.Sized) (h : Stores s stack) (ht : tag ∈ stack.keys)
    (convert : ℕ → ℕ) (hc : ∀ n < 2 ^ 31, convert n = n) :
    Stores (if cfg.lru then
        setFirst (incrementBelow (subscript s tag) (convert (order (subscript s tag) tag))) tag 0
      else s) (if cfg.lru then stack.raise tag else stack) := by
  have hlt := hv.ways_lt
  cases cfg.lru with
  | false => exact h
  | true =>
    have hord : convert (order s tag) = order s tag := hc _ ((order_lt h ht).trans hlt)
    rw [subscript_eq h ht, hord]
    exact h.raise ht (by omega)

theorem countLoadHit_eq (hv : cfg.Sized) (h : Stores s stack) (ht : tag ∈ stack.keys)
    (hget : c.data[index.toNat]? = some s) :
    ∃ s', countLoadHit cfg c index tag = some { c with
        data := c.data.set index.toNat s'
        loadHit := c.loadHit + 1
        cycles := c.cycles + 1 } ∧
      Stores s' (if cfg.lru then stack.raise tag else stack) := by
  refine ⟨_, ?_, reorder_stores hv h ht (fun n => toUInt64 (toInt n))
    fun n hn => by rw [toInt_natCast hn, toUInt64_natCast (by omega)]⟩
  simp only [countLoadHit, hget, Option.bind_eq_bind, Option.bind_some, Option.pure_def]

theorem countLoadMiss_eq (hv : cfg.Sized) (h : Stores s stack) (ht : tag ∉ stack.keys)
    (hget : c.data[index.toNat]? = some s) :
    ∃ s', countLoadMiss cfg c index tag = some { c with
        data := c.data.set index.toNat s'
        loadMiss := c.loadMiss + 1
        cycles := c.cycles + writeBack cfg stack + cfg.byteNum * 25 } ∧
      Stores s' (stack.fill tag false) := by
  obtain ⟨s', he, hs⟩ := fill_eq hv h ht c.cycles false
  refine ⟨_, ?_, hs⟩
  simp only [countLoadMiss, hget, he, Option.bind_eq_bind, Option.bind_some, Option.pure_def]

theorem countStoreHit_eq (hv : cfg.Sized) (h : Stores s stack) (ht : tag ∈ stack.keys)
    (hget : c.data[index.toNat]? = some s) :
    ∃ s', countStoreHit cfg c index tag = some { c with
        data := c.data.set index.toNat s'
        storeHit := c.storeHit + 1
        cycles := c.cycles + 1 + if cfg.writeThrough then 100 else 0 } ∧
      Stores s' (let stack := if cfg.lru then stack.raise tag else stack
        if cfg.writeThrough then stack else stack.adjust tag (fun _ => true)) := by
  have hr := reorder_stores hv h ht (fun n => toUInt32 n)
    fun n hn => toUInt32_natCast (by omega)
  have hmem : tag ∈ (if cfg.lru then stack.raise tag else stack).keys := by
    cases cfg.lru with
    | false => exact ht
    | true =>
      rw [if_pos rfl, KeyedStack.keys_raise ht]
      exact List.mem_cons_self
  cases hw : cfg.writeThrough with
  | true =>
    refine ⟨_, ?_, hr⟩
    simp only [countStoreHit, hget, hw, Option.bind_eq_bind, Option.bind_some, Option.pure_def,
      if_true]
  | false =>
    refine ⟨_, ?_, hr.adjust hmem true⟩
    simp only [countStoreHit, hget, hw, Option.bind_eq_bind, Option.bind_some, Option.pure_def,
      Bool.false_eq_true, if_false, Int.add_zero]

theorem countStoreMiss_eq (hv : cfg.Sized) (h : Stores s stack) (ht : tag ∉ stack.keys)
    (hget : c.data[index.toNat]? = some s) :
    ∃ s', countStoreMiss cfg c index tag = some { c with
        data := c.data.set index.toNat s'
        storeMiss := c.storeMiss + 1
        cycles := if cfg.writeAllocate then
            c.cycles + 25 * cfg.byteNum + writeBack cfg stack + 1 +
              if cfg.writeThrough then 100 else 0
          else c.cycles + 100 } ∧
      Stores s' (if cfg.writeAllocate then stack.fill tag (!cfg.writeThrough) else stack) := by
  cases ha : cfg.writeAllocate with
  | false =>
    refine ⟨s, ?_, h⟩
    simp only [countStoreMiss, ha, Bool.false_eq_true, if_false, Option.pure_def]
    obtain ⟨hi, rfl⟩ := List.getElem?_eq_some_iff.mp hget
    rw [List.set_getElem_self]
  | true =>
    obtain ⟨s', he, -⟩ := fill_eq hv h ht (c.cycles + 25 * cfg.byteNum) true
    have hs : ∀ d, Stores (setSecond (setFirst (s'.map increment) tag 0) tag d)
        (stack.fill tag d) := by
      intro d
      obtain ⟨s'', he', hs⟩ := fill_eq hv h ht (c.cycles + 25 * cfg.byteNum) d
      rw [he'] at he
      cases he
      exact hs
    cases hw : cfg.writeThrough with
    | true =>
      refine ⟨_, ?_, hs false⟩
      simp only [countStoreMiss, ha, hget, he, hw, setSecond_setSecond, Option.bind_eq_bind,
        Option.bind_some, Option.pure_def, if_true]
    | false =>
      refine ⟨_, ?_, hs true⟩
      simp only [countStoreMiss, ha, hget, he, hw, Option.bind_eq_bind, Option.bind_some,
        Option.pure_def, if_true, Bool.false_eq_true, if_false, Int.add_zero]

/-- One access, on the set its address selects. -/
theorem perform_eq (hv : cfg.Sized) (a : Access) (h : Stores s stack)
    (hget : c.data[cfg.index a.address]? = some s) :
    hits cfg c a.address = some (decide (cfg.tag a.address ∈ stack.keys)) ∧
      ∃ s', perform cfg c a =
          some { account cfg a stack c with data := c.data.set (cfg.index a.address) s' } ∧
        Stores s' (stackAccess cfg a stack) := by
  have hget' : c.data[(BitVec.ofNat 32 (cfg.index a.address)).toNat]? = some s := by
    rwa [Config.Sized.index_toNat]
  have hslice := hv.slice_eq a.address
  have htest : hits cfg c a.address = some (decide (cfg.tag a.address ∈ stack.keys)) := by
    simp only [hits, hslice, hget', h.isHit_eq, Option.bind_eq_bind, Option.bind_some,
      Option.pure_def]
  refine ⟨htest, ?_⟩
  by_cases ht : cfg.tag a.address ∈ stack.keys
  · cases a with
    | load address =>
      obtain ⟨s', hs, hst⟩ := countLoadHit_eq hv h ht hget'
      rw [Config.Sized.index_toNat] at hs
      refine ⟨s', ?_, by simpa [stackAccess, ht] using hst⟩
      simp only [Access.address] at hslice htest ht hs ⊢
      simp [perform, load, hslice, htest, ht, hs, account, Access.address]
    | store address =>
      obtain ⟨s', hs, hst⟩ := countStoreHit_eq hv h ht hget'
      rw [Config.Sized.index_toNat] at hs
      refine ⟨s', ?_, by simpa [stackAccess, ht] using hst⟩
      simp only [Access.address] at hslice htest ht hs ⊢
      simp [perform, store, hslice, htest, ht, hs, account, Access.address]
  · cases a with
    | load address =>
      obtain ⟨s', hs, hst⟩ := countLoadMiss_eq hv h ht hget'
      rw [Config.Sized.index_toNat] at hs
      refine ⟨s', ?_, by simpa [stackAccess, ht] using hst⟩
      simp only [Access.address] at hslice htest ht hs ⊢
      simp [perform, load, hslice, htest, ht, hs, account, Access.address]
    | store address =>
      obtain ⟨s', hs, hst⟩ := countStoreMiss_eq hv h ht hget'
      rw [Config.Sized.index_toNat] at hs
      refine ⟨s', ?_, by simpa [stackAccess, ht] using hst⟩
      simp only [Access.address] at hslice htest ht hs ⊢
      simp [perform, store, hslice, htest, ht, hs, account, Access.address]

end Handlers

section Runs

variable {cfg : Config}

/-- The stacks of all sets after the listed accesses, the latest first. -/
def recencyStacks (cfg : Config) : List Access → ℕ → cfg.Stack
  | [] => fun _ => KeyedStack.empty Tag Bool cfg.ways
  | a :: as => Function.update (recencyStacks cfg as) (cfg.index a.address)
      (stackAccess cfg a (recencyStacks cfg as (cfg.index a.address)))

/-- The counters after the listed accesses. -/
def tally (cfg : Config) : List Access → Cache
  | [] => { cache cfg with data := [] }
  | a :: as => account cfg a (recencyStacks cfg as (cfg.index a.address)) (tally cfg as)

/-- The cache stores the abstract stacks and shows their counters. -/
structure Simulates (cfg : Config) (c : Cache) (as : List Access) : Prop where
  length_eq : c.data.length = cfg.sets
  stores : ∀ i s, c.data[i]? = some s → Stores s (recencyStacks cfg as i)
  counters : { c with data := [] } = tally cfg as

theorem simulates_start (cfg : Config) : Simulates cfg (cache cfg) [] where
  length_eq := List.length_replicate
  stores i s hs := by
    have hnil : s = [] := List.eq_of_mem_replicate (List.mem_of_getElem? hs)
    rw [hnil]
    exact .nil
  counters := rfl

private theorem account_data (cfg : Config) (a : Access) (stack : cfg.Stack) (c : Cache)
    (data data' : List CacheSet) :
    { { account cfg a stack c with data := data } with data := data' } =
      account cfg a stack { c with data := data' } := by
  unfold account
  cases a <;> simp only <;> split <;> rfl

/-- The selected set, and the effect of an access on a cache that stores the stacks. -/
theorem Simulates.perform {c : Cache} {as : List Access} (hv : cfg.Sized)
    (h : Simulates cfg c as) (a : Access) :
    hits cfg c a.address =
        some (decide (cfg.tag a.address ∈ (recencyStacks cfg as (cfg.index a.address)).keys)) ∧
      ∃ c', Csim.perform cfg c a = some c' ∧ Simulates cfg c' (a :: as) := by
  have hi : cfg.index a.address < c.data.length := h.length_eq ▸ hv.index_lt a.address
  have hget := List.getElem?_eq_getElem hi
  obtain ⟨htest, s', hp, hs⟩ := perform_eq hv a (h.stores _ _ hget) hget
  refine ⟨htest, _, hp, ⟨by simp [h.length_eq], ?_, ?_⟩⟩
  · intro i s hset
    simp only [List.getElem?_set] at hset
    by_cases hia : cfg.index a.address = i
    · subst hia
      rw [if_pos rfl, if_pos hi] at hset
      cases hset
      simpa [recencyStacks] using hs
    · rw [if_neg hia] at hset
      simpa [recencyStacks, Function.update_of_ne (Ne.symm hia)] using h.stores i s hset
  · rw [account_data, h.counters, tally]

theorem Simulates.rehash {c : Cache} {as : List Access} {data : List CacheSet}
    (h : Simulates cfg c as) (hp : List.Forall₂ List.Perm c.data data) :
    Simulates cfg { c with data := data } as where
  length_eq := hp.length_eq.symm.trans h.length_eq
  stores i s hs := by
    obtain ⟨hi, rfl⟩ := List.getElem?_eq_some_iff.mp hs
    have hi' : i < c.data.length := hp.length_eq ▸ hi
    exact (h.stores i _ (List.getElem?_eq_getElem hi')).perm (hp.get hi' hi)
  counters := h.counters

/-- Every run stores the stacks of its accesses. -/
theorem Run.simulates {h : List (Access × Bool)} {c : Cache} (hv : cfg.Sized)
    (run : Run cfg h c) : Simulates cfg c (h.map Prod.fst) := by
  induction run with
  | start => exact simulates_start cfg
  | access a run test step ih =>
    obtain ⟨-, c', hp, hs⟩ := ih.perform hv a
    cases step.symm.trans hp
    exact hs
  | rehash run perm ih => exact ih.rehash perm

/-- The recorded answers are the residencies in the abstract stacks. -/
def Flagged (cfg : Config) : List (Access × Bool) → Prop
  | [] => True
  | (a, hit) :: h =>
      (hit = true ↔ cfg.tag a.address ∈ (recencyStacks cfg (h.map Prod.fst) (cfg.index a.address)).keys) ∧
        Flagged cfg h

theorem Run.flagged {h : List (Access × Bool)} {c : Cache} (hv : cfg.Sized)
    (run : Run cfg h c) : Flagged cfg h := by
  induction run with
  | start => trivial
  | access a run test step ih =>
    refine ⟨?_, ih⟩
    have hit := test.symm.trans ((run.simulates hv).perform hv a).1
    rw [Option.some.inj hit, decide_eq_true_iff]
  | rehash run perm ih => exact ih

/-- No access of a run is undefined. -/
theorem Run.extend {h : List (Access × Bool)} {c : Cache} (hv : cfg.Sized)
    (run : Run cfg h c) (a : Access) : ∃ hit c', Run cfg ((a, hit) :: h) c' := by
  obtain ⟨test, c', hp, -⟩ := (run.simulates hv).perform hv a
  exact ⟨_, c', .access a run test hp⟩

/-- Every sequence of accesses has a run. -/
theorem exists_run (hv : cfg.Sized) (as : List Access) :
    ∃ h c, h.map Prod.fst = as ∧ Run cfg h c := by
  induction as with
  | nil => exact ⟨[], _, rfl, .start⟩
  | cons a as ih =>
    obtain ⟨h, c, rfl, run⟩ := ih
    obtain ⟨hit, c', run'⟩ := run.extend hv a
    exact ⟨_, c', rfl, run'⟩

end Runs
end CsfAssignments.Csim
