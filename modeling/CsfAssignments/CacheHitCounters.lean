import CsfAssignments.CacheLruInclusion
import CsfAssignments.CheckedArithmetic

/-!
# When the hits fit an `int`

The source counts the load hits and the store hits of a cache in an `int` each. The hits of a
larger LRU cache include those of a smaller one, so the comparison of the two counts holds until
the larger cache has hit 2 ^ 31 times, and fails then.
-/

namespace CsfAssignments.Csim
open CIntegers CheckedArithmetic RecencyStacks

/-- The hit counters as the source holds them. -/
structure HitCounters where
  loadHit : ℤ
  storeHit : ℤ
  deriving DecidableEq, Repr

/-- `++` of an `int`; overflow is undefined, unless the increment wraps around. -/
def incrementInt (wraps : Bool) (n : ℤ) : Option ℤ :=
  if wraps then some (toInt (n + 1)) else addInt n 1

/-- What an access does to the hit counters, by the answer of `is_hit`: `loadHit++` in
`count_load_hit` and `storeHit++` in `count_store_hit`. -/
def countHit (wraps : Bool) (a : Access) (hit : Bool) (n : HitCounters) : Option HitCounters :=
  if hit then
    match a with
    | .load _ => (incrementInt wraps n.loadHit).map fun loadHit => { n with loadHit := loadHit }
    | .store _ =>
        (incrementInt wraps n.storeHit).map fun storeHit => { n with storeHit := storeHit }
  else some n

/-- The hit counters after the accesses of a history; none where one has overflowed. -/
def hitCounters (wraps : Bool) : List (Access × Bool) → Option HitCounters
  | [] => some ⟨0, 0⟩
  | (a, hit) :: h => (hitCounters wraps h).bind (countHit wraps a hit)

/-- The loads or the stores of a trace that find their tag in the cache, by what the trace did
before them. -/
def traceHits (cfg : Config) (store : Bool) : List Access → ℕ
  | [] => 0
  | a :: as => traceHits cfg store as +
      if a.isStore = store ∧ cfg.tag a.address ∈ residentTags cfg as (cfg.index a.address) then 1
      else 0

/-- The same accesses on two LRU caches that differ in the number of blocks of a set. Every block
resident in the smaller one is resident in the larger one, every access that hits in the smaller
one hits in the larger one, and the larger one counts at least as many load hits and store hits,
in counters of type `int`. -/
structure Includes (wraps : Bool) (cfg : Config) (blockNum : ℤ) (as : List Access) : Prop where
  runs : ∃ h c h' c', h.map Prod.fst = as ∧ h'.map Prod.fst = as ∧
    Run cfg h c ∧ Run (cfg.holding blockNum) h' c'
  resident : ∀ h c h' c', Run cfg h c → Run (cfg.holding blockNum) h' c' →
    h.map Prod.fst = as → h'.map Prod.fst = as →
    List.Forall₂ (fun s s' : CacheSet => ∀ e ∈ s, isHit s' e.1 = true) c.data c'.data ∧
      ∀ address, hits cfg c address = some true →
        hits (cfg.holding blockNum) c' address = some true
  hitsAlso : ∀ h c h' c', Run cfg h c → Run (cfg.holding blockNum) h' c' →
    h.map Prod.fst = as → h'.map Prod.fst = as → HitsAlso h h'
  counters : ∀ h c h' c', Run cfg h c → Run (cfg.holding blockNum) h' c' →
    h.map Prod.fst = as → h'.map Prod.fst = as →
    ∃ n n', hitCounters wraps h = some n ∧ hitCounters wraps h' = some n' ∧
      n.loadHit ≤ n'.loadHit ∧ n.storeHit ≤ n'.storeHit

section Counters
variable {cfg : Config} {h : List (Access × Bool)}

private theorem toInt_succ (n : ℤ) : toInt (toInt n + 1) = toInt (n + 1) := by
  simp only [toInt]
  omega

/-- Where the increments wrap around, the counters are the hits converted to an `int`. -/
theorem hitCounters_wraps (h : List (Access × Bool)) :
    hitCounters true h =
      some ⟨toInt (countOf false true h), toInt (countOf true true h)⟩ := by
  induction h with
  | nil => rfl
  | cons e h ih =>
    obtain ⟨a, hit⟩ := e
    rw [hitCounters, ih, Option.bind_some, countOf_cons, countOf_cons]
    cases hit with
    | false => simp [countHit]
    | true =>
      cases a <;> simp [countHit, incrementInt, Access.isStore, toInt_succ]

private theorem addInt_natCast (n : ℕ) :
    addInt n 1 = if n + 1 < 2 ^ 31 then some ((n + 1 : ℕ) : ℤ) else none := by
  have hcast : (n : ℤ) + 1 = ((n + 1 : ℕ) : ℤ) := (Nat.cast_succ n).symm
  rw [addInt, hcast]
  by_cases hlt : n + 1 < 2 ^ 31
  · rw [if_pos hlt, checked_of_lt (by omega) (by omega)]
  · rw [if_neg hlt, checked_of_le (by omega)]

/-- Otherwise the counters are the hits, as long as these are within the type. -/
theorem hitCounters_checked (h : List (Access × Bool)) :
    hitCounters false h =
      if countOf false true h < 2 ^ 31 ∧ countOf true true h < 2 ^ 31 then
        some ⟨countOf false true h, countOf true true h⟩
      else none := by
  induction h with
  | nil => rfl
  | cons e h ih =>
    obtain ⟨a, hit⟩ := e
    rw [hitCounters, ih, countOf_cons, countOf_cons]
    generalize countOf false true h = loads
    generalize countOf true true h = stores
    cases hit with
    | false =>
      simp only [countHit, Bool.false_eq_true, and_false, if_false, Nat.add_zero]
      exact Option.bind_fun_some _
    | true =>
      by_cases hboth : loads < 2 ^ 31 ∧ stores < 2 ^ 31
      · rw [if_pos hboth, Option.bind_some]
        cases a <;>
          (simp only [countHit, incrementInt, Access.isStore, addInt_natCast, if_true, and_true,
            Bool.false_eq_true, Bool.true_eq_false, if_false, Nat.add_zero]
           split_ifs <;> first | rfl | omega)
      · rw [if_neg hboth, Option.bind_none, if_neg fun h => hboth ⟨by omega, by omega⟩]

/-- The answers in a history are the hits of its trace. -/
theorem countOf_eq_traceHits (hv : cfg.Sized) (hf : Flagged cfg h) (store : Bool) :
    countOf store true h = traceHits cfg store (h.map Prod.fst) := by
  induction h with
  | nil => rfl
  | cons e h ih =>
    obtain ⟨a, hit⟩ := e
    have hhit : hit = true ↔
        cfg.tag a.address ∈ residentTags cfg (h.map Prod.fst) (cfg.index a.address) := by
      rw [hf.hit_eq hv, decide_eq_true_iff]
    rw [countOf_cons, ih hf.2, List.map_cons, traceHits]
    exact congrArg _ (if_congr (and_congr_right fun _ => hhit) rfl rfl)

/-- Fewer hits of a kind than accesses of that kind. -/
theorem traceHits_le (cfg : Config) (store : Bool) (as : List Access) :
    traceHits cfg store as ≤ as.countP fun a => a.isStore = store := by
  induction as with
  | nil => exact le_rfl
  | cons a as ih =>
    rw [traceHits, List.countP_cons]
    refine Nat.add_le_add ih ?_
    split_ifs <;> simp_all

end Counters

section Inclusion
variable {cfg : Config} {blockNum : ℤ} {as : List Access} {h : List (Access × Bool)} {c : Cache}

/-- The counters of a run have values exactly if the hits of its trace do. -/
theorem Run.hitCounters_eq_some_iff (hv : cfg.Sized) (run : Run cfg h c) {n : HitCounters} :
    hitCounters false h = some n ↔
      (∀ store, traceHits cfg store (h.map Prod.fst) < 2 ^ 31) ∧
        n = ⟨traceHits cfg false (h.map Prod.fst), traceHits cfg true (h.map Prod.fst)⟩ := by
  have hf := run.flagged hv
  rw [hitCounters_checked, countOf_eq_traceHits hv hf, countOf_eq_traceHits hv hf, Bool.forall_bool]
  split_ifs with hboth
  · rw [Option.some_inj, eq_comm]
    exact (and_iff_right hboth).symm
  · exact iff_of_false nofun fun h => hboth h.1

/-- LRU caches include each other, their counters included, if and only if the larger one hits
less than 2 ^ 31 times in the loads and less than 2 ^ 31 times in the stores of the trace. -/
theorem lru_inclusion_iff (cfg : Config) (blockNum : ℤ) (hv : cfg.Valid)
    (hb : PowerOfTwo blockNum) (hle : cfg.blockNum ≤ blockNum) (hlru : cfg.lru = true)
    (as : List Access) :
    Includes false cfg blockNum as ↔
      ∀ store, traceHits (cfg.holding blockNum) store as < 2 ^ 31 := by
  obtain ⟨hruns, hincl⟩ := lru_inclusion cfg blockNum hv hb hle hlru
  replace hv := hv.sized
  have hv' := hv.holding hb
  constructor
  · intro hincludes
    obtain ⟨h, c, h', c', hh, hh', run, run'⟩ := hruns as
    obtain ⟨-, n', -, hn', -⟩ := hincludes.counters h c h' c' run run' hh hh'
    rw [← hh']
    exact ((run'.hitCounters_eq_some_iff hv').mp hn').1
  · intro hlt
    refine ⟨hruns as, fun h c h' c' run run' hh hh' => ?_, fun h c h' c' run run' hh hh' => ?_,
      fun h c h' c' run run' hh hh' => ?_⟩
    · obtain ⟨hres, hhits, -⟩ := hincl h c h' c' run run' (hh.trans hh'.symm)
      exact ⟨hres, hhits⟩
    · exact (hincl h c h' c' run run' (hh.trans hh'.symm)).2.2.1
    · have hhits := (hincl h c h' c' run run' (hh.trans hh'.symm)).2.2.1
      have hmore (store : Bool) : traceHits cfg store as ≤
          traceHits (cfg.holding blockNum) store as := by
        have hcount := countOf_hit_le hhits store
        rwa [countOf_eq_traceHits hv (run.flagged hv), countOf_eq_traceHits hv' (run'.flagged hv'),
          hh, hh'] at hcount
      refine ⟨_, _, (run.hitCounters_eq_some_iff hv).mpr ⟨fun store => ?_, rfl⟩,
        (run'.hitCounters_eq_some_iff hv').mpr ⟨fun store => ?_, rfl⟩, ?_, ?_⟩
      · rw [hh]
        exact (hmore store).trans_lt (hlt store)
      · rw [hh']
        exact hlt store
      · rw [hh, hh']
        exact Int.ofNat_le.mpr (hmore false)
      · rw [hh, hh']
        exact Int.ofNat_le.mpr (hmore true)

end Inclusion

theorem lru_inclusion_iff_two_four :
    Includes false (smallConfig true) 4 [.load 0, .load 16, .load 8, .load 0] := by
  refine (lru_inclusion_iff (smallConfig true) 4 (smallConfig_valid true) ⟨2, by decide, rfl⟩
    (by decide) rfl _).mpr fun store => ?_
  exact (traceHits_le _ store _).trans_lt (List.countP_le_length.trans_lt (by decide))

/-- Loads of two blocks in turn, the latest first. -/
def alternating : ℕ → List Access
  | 0 => []
  | n + 1 => .load (if n % 2 = 0 then 0 else 4) :: alternating n

/-- An LRU cache of one set with blocks of four bytes. -/
def oneSet (blockNum : ℤ) : Config := ⟨1, blockNum, 4, true, false, true⟩

section Alternating

/-- The smaller cache only has the block loaded last. -/
private theorem residentTags_oneSet_one (n : ℕ) :
    residentTags (oneSet 1) (alternating (n + 1)) 0 = [if n % 2 = 0 then 0 else 1] := by
  induction n with
  | zero => decide
  | succ n ih =>
    rw [alternating, residentTags_cons, ih]
    rcases Nat.mod_two_eq_zero_or_one n with heven | hodd
    · rw [heven, show (n + 1) % 2 = 1 by omega]
      decide
    · rw [hodd, show (n + 1) % 2 = 0 by omega]
      decide

/-- The larger cache has both blocks. -/
private theorem residentTags_oneSet_two (n : ℕ) :
    residentTags (oneSet 2) (alternating (n + 2)) 0 = if n % 2 = 0 then [1, 0] else [0, 1] := by
  induction n with
  | zero => decide
  | succ n ih =>
    rw [alternating, residentTags_cons, ih]
    rcases Nat.mod_two_eq_zero_or_one n with heven | hodd
    · rw [heven, show (n + 1) % 2 = 1 by omega, show (n + 2) % 2 = 0 by omega]
      decide
    · rw [hodd, show (n + 1) % 2 = 0 by omega, show (n + 2) % 2 = 1 by omega]
      decide

private theorem index_oneSet (n : ℕ) :
    (oneSet 1).index (if n % 2 = 0 then 0 else 4) = 0 ∧
      (oneSet 2).index (if n % 2 = 0 then 0 else 4) = 0 := by
  split_ifs <;> decide

private theorem traceHits_oneSet_one (n : ℕ) : traceHits (oneSet 1) false (alternating n) = 0 := by
  induction n with
  | zero => rfl
  | succ n ih =>
    cases n with
    | zero => decide
    | succ n =>
      rw [alternating, traceHits, ih, Access.address, (index_oneSet _).1, residentTags_oneSet_one]
      rcases Nat.mod_two_eq_zero_or_one n with heven | hodd
      · rw [heven, show (n + 1) % 2 = 1 by omega]
        decide
      · rw [hodd, show (n + 1) % 2 = 0 by omega]
        decide

private theorem traceHits_oneSet_two (n : ℕ) :
    traceHits (oneSet 2) false (alternating (n + 2)) = n := by
  induction n with
  | zero => decide
  | succ n ih =>
    rw [alternating, traceHits, ih, Access.address, (index_oneSet _).2, residentTags_oneSet_two]
    refine congrArg (n + ·) (if_pos ?_)
    rcases Nat.mod_two_eq_zero_or_one n with heven | hodd
    · rw [heven, show (n + 2) % 2 = 0 by omega]
      decide
    · rw [hodd, show (n + 2) % 2 = 1 by omega]
      decide

end Alternating

theorem oneSet_valid {blockNum : ℤ} (hb : PowerOfTwo blockNum) : (oneSet blockNum).Valid where
  setNum := ⟨0, by decide, rfl⟩
  blockNum := hb
  byteNum := ⟨2, by decide, rfl⟩
  four_le := le_refl (4 : ℤ)
  address := show (1 : ℤ) * 4 < 2 ^ 32 by decide
  policy := .inl rfl

/-- The smaller cache never hits, and the larger one hits in all loads but the first two. -/
private theorem not_includes (wraps : Bool) :
    ¬Includes wraps (oneSet 1) 2 (alternating (2 ^ 31 + 2)) := by
  intro hincludes
  generalize hn : 2 ^ 31 = n at hincludes
  obtain ⟨h, c, h', c', hh, hh', run, run'⟩ := hincludes.runs
  obtain ⟨k, k', hk, hk', hle, -⟩ := hincludes.counters h c h' c' run run' hh hh'
  have hv : (oneSet 1).Sized := (oneSet_valid ⟨0, by decide, rfl⟩).sized
  have hv' : (oneSet 2).Sized := (oneSet_valid ⟨1, by decide, rfl⟩).sized
  have hnone : countOf false true h = 0 := by
    rw [countOf_eq_traceHits hv (run.flagged hv), hh, traceHits_oneSet_one]
  have hall : countOf false true h' = n := by
    rw [countOf_eq_traceHits hv' (run'.flagged hv'), hh']
    exact traceHits_oneSet_two n
  cases wraps with
  | false =>
    rw [hitCounters_checked, hall, if_neg fun h => by omega] at hk'
    cases hk'
  | true =>
    rw [hitCounters_wraps, hnone, Option.some_inj] at hk
    rw [hitCounters_wraps, hall, Option.some_inj] at hk'
    rw [← hk, ← hk'] at hle
    have hcounters : toInt (0 : ℕ) ≤ toInt (n : ℤ) := hle
    rw [toInt, toInt] at hcounters
    omega

/-- 2 ^ 31 + 2 loads of two blocks in turn, whether the counters wrap around or their overflow is
undefined. -/
theorem larger_hits_overflow :
    ¬Includes false (oneSet 1) 2 (alternating (2 ^ 31 + 2)) ∧
      ¬Includes true (oneSet 1) 2 (alternating (2 ^ 31 + 2)) :=
  ⟨not_includes false, not_includes true⟩

end CsfAssignments.Csim
