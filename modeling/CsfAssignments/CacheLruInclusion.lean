import CsfAssignments.CacheCounters

/-!
# A larger LRU cache includes a smaller one

Two LRU caches that differ in their associativity run the same trace. The tags of the
smaller one are always an ordered part of the tags of the larger one, also when a store
without allocation touches the larger one only, so every hit of the smaller one is a hit
of the larger one.
-/

namespace CsfAssignments.Csim
open RecencyStacks

/-- A configuration with the given associativity. -/
def Config.holding (cfg : Config) (blockNum : ℤ) : Config := { cfg with blockNum := blockNum }

theorem Config.Sized.holding {cfg : Config} (hv : cfg.Sized) {b : ℤ} (hb : PowerOfTwo b) :
    (cfg.holding b).Sized :=
  ⟨hv.setNum, hb, hv.byteNum, hv.four_le, hv.address⟩

/-- Every hit of one history is a hit of the other, access by access. -/
def HitsAlso (h h' : List (Access × Bool)) : Prop :=
  List.Forall₂ (fun e e' => e.1 = e'.1 ∧ (e.2 = true → e'.2 = true)) h h'

section Inclusion

variable {cfg : Config} {b : ℤ}

private theorem residentTags_bounded (hv : cfg.Sized) (as : List Access) (i : ℕ) :
    (residentTags cfg as i).Nodup ∧ (residentTags cfg as i).length ≤ cfg.ways := by
  rw [← keys_recencyStacks hv]
  exact ⟨KeyedStack.nodup _, by simpa [KeyedStack.keys] using KeyedStack.bounded _⟩

/-- One access keeps the tags of the smaller set within those of the larger one. -/
private theorem within_tagAccess (hv : cfg.Sized) (hlru : cfg.lru = true)
    (hle : cfg.blockNum ≤ b) (a : Access) {tags tags' : List Tag}
    (h : Within cfg.ways tags tags') (hnodup : tags'.Nodup)
    (hlen : tags'.length ≤ (cfg.holding b).ways) :
    Within cfg.ways (tagAccess cfg a tags) (tagAccess (cfg.holding b) a tags') := by
  have hways : cfg.ways ≤ (cfg.holding b).ways := Int.toNat_le_toNat hle
  have hlru' : (cfg.holding b).lru = true := hlru
  have hboth := h.touch hnodup hv.ways_pos hways hlen (cfg.tag a.address)
  by_cases ht : cfg.tag a.address ∈ tags
  · have ht' : (cfg.holding b).tag a.address ∈ tags' := h.sublist.subset ht
    rw [tagAccess_of_mem ht, tagAccess_of_mem ht', if_pos hlru, if_pos hlru']
    exact hboth
  · rw [tagAccess_of_notMem ht]
    by_cases ht' : (cfg.holding b).tag a.address ∈ tags'
    · -- a store without allocation touches the larger set only
      rw [tagAccess_of_mem ht', if_pos hlru']
      by_cases halloc : a.isStore = false ∨ cfg.writeAllocate = true
      · rw [if_pos halloc]
        exact hboth
      · rw [if_neg halloc]
        exact h.touch_right hnodup hlen ht ht'
    · rw [tagAccess_of_notMem ht']
      by_cases halloc : a.isStore = false ∨ cfg.writeAllocate = true
      · have halloc' : a.isStore = false ∨ (cfg.holding b).writeAllocate = true := halloc
        rw [if_pos halloc, if_pos halloc']
        exact hboth
      · have halloc' : ¬(a.isStore = false ∨ (cfg.holding b).writeAllocate = true) := halloc
        rw [if_neg halloc, if_neg halloc']
        exact h

/-- After the same accesses the smaller cache holds an ordered part of the larger one. -/
private theorem within_residentTags (hv : cfg.Sized) (hb : PowerOfTwo b) (hlru : cfg.lru = true)
    (hle : cfg.blockNum ≤ b) (as : List Access) (i : ℕ) :
    Within cfg.ways (residentTags cfg as i) (residentTags (cfg.holding b) as i) := by
  induction as generalizing i with
  | nil => exact within_nil _
  | cons a as ih =>
    obtain ⟨hnodup, hlen⟩ := residentTags_bounded (hv.holding hb) as i
    rw [residentTags_cons, residentTags_cons]
    by_cases hi : i = cfg.index a.address
    · have hi' : i = (cfg.holding b).index a.address := hi
      rw [if_pos hi, if_pos hi']
      exact within_tagAccess hv hlru hle a (ih i) hnodup hlen
    · have hi' : ¬i = (cfg.holding b).index a.address := hi
      rw [if_neg hi, if_neg hi']
      exact ih i

/-- A hit of the smaller cache is a hit of the larger one. -/
private theorem hitsAlso_of_flagged (hv : cfg.Sized) (hb : PowerOfTwo b) (hlru : cfg.lru = true)
    (hle : cfg.blockNum ≤ b) {h h' : List (Access × Bool)} (hf : Flagged cfg h)
    (hf' : Flagged (cfg.holding b) h') (heq : h.map Prod.fst = h'.map Prod.fst) :
    HitsAlso h h' := by
  induction h generalizing h' with
  | nil =>
    rw [List.map_eq_nil_iff.mp heq.symm]
    exact .nil
  | cons e h ih =>
    cases h' with
    | nil => cases heq
    | cons e' h' =>
      obtain ⟨a, hit⟩ := e
      obtain ⟨a', hit'⟩ := e'
      obtain ⟨rfl, hrest⟩ := List.cons_eq_cons.mp heq
      refine .cons ⟨rfl, fun hhit => ?_⟩ (ih hf.2 hf'.2 hrest)
      have hm := hf.1.mp hhit
      rw [keys_recencyStacks hv] at hm
      refine hf'.1.mpr ?_
      rw [keys_recencyStacks (hv.holding hb), ← hrest]
      exact (within_residentTags hv hb hlru hle _ _).sublist.subset hm

end Inclusion

theorem countOf_hit_le {h h' : List (Access × Bool)} (hh : HitsAlso h h') (store : Bool) :
    countOf store true h ≤ countOf store true h' := by
  induction hh with
  | nil => exact le_rfl
  | @cons e e' h h' he _ ih =>
    obtain ⟨heq, himp⟩ := he
    simp only [countOf, List.countP_cons] at ih ⊢
    refine Nat.add_le_add ih ?_
    cases hhit : e.2 with
    | false => simp
    | true => rw [heq, himp hhit]

/-- LRU caches include each other. Two caches that differ in the number of blocks of a set
run the same accesses: every block resident in the smaller one is resident in the larger
one, every access that hits in the smaller one hits in the larger one, and the larger one
counts at least as many load hits and store hits, in counters that do not overflow. -/
theorem lru_inclusion (cfg : Config) (blockNum : ℤ) (hv : cfg.Valid)
    (hb : PowerOfTwo blockNum) (hle : cfg.blockNum ≤ blockNum) (hlru : cfg.lru = true) :
    (∀ as : List Access, ∃ h c h' c', h.map Prod.fst = as ∧ h'.map Prod.fst = as ∧
      Run cfg h c ∧ Run (cfg.holding blockNum) h' c') ∧
    ∀ h c h' c', Run cfg h c → Run (cfg.holding blockNum) h' c' →
      h.map Prod.fst = h'.map Prod.fst →
      List.Forall₂ (fun s s' : CacheSet => ∀ e ∈ s, isHit s' e.1 = true) c.data c'.data ∧
      (∀ address, hits cfg c address = some true →
        hits (cfg.holding blockNum) c' address = some true) ∧
      HitsAlso h h' ∧ c.loadHit ≤ c'.loadHit ∧ c.storeHit ≤ c'.storeHit := by
  replace hv := hv.sized
  have hv' := hv.holding hb
  refine ⟨fun as => ?_, fun h c h' c' run run' heq => ?_⟩
  · obtain ⟨h, c, hh, run⟩ := exists_run hv as
    obtain ⟨h', c', hh', run'⟩ := exists_run hv' as
    exact ⟨h, c, h', c', hh, hh', run, run'⟩
  · have hsim := run.simulates hv
    have hsim' := run'.simulates hv'
    rw [← heq] at hsim'
    have hwithin := within_residentTags hv hb hlru hle (h.map Prod.fst)
    have hhits := hitsAlso_of_flagged hv hb hlru hle (run.flagged hv) (run'.flagged hv') heq
    have hc := run.counts hv
    have hc' := run'.counts hv'
    refine ⟨?_, fun address hhit => ?_, hhits, ?_, ?_⟩
    · refine List.forall₂_iff_get.mpr ⟨hsim.length_eq.trans hsim'.length_eq.symm,
        fun i hi hi' e he => ?_⟩
      have hst := hsim.stores i _ (List.getElem?_eq_getElem hi)
      have hst' := hsim'.stores i _ (List.getElem?_eq_getElem hi')
      have hm := hst.keys_perm.mem_iff.mp (List.mem_map_of_mem he)
      rw [keys_recencyStacks hv] at hm
      refine hst'.isHit_iff.mpr ?_
      rw [keys_recencyStacks hv']
      exact (hwithin i).sublist.subset hm
    · obtain ⟨-, test, -, -, -⟩ := hsim.step hv (.load address)
      obtain ⟨-, test', -, -, -⟩ := hsim'.step hv' (.load address)
      have hm := of_decide_eq_true (Option.some.inj (test.symm.trans hhit))
      exact test'.trans (congrArg some (decide_eq_true ((hwithin _).sublist.subset hm)))
    · rw [hc.loadHit, hc'.loadHit]
      exact_mod_cast countOf_hit_le hhits false
    · rw [hc.storeHit, hc'.storeHit]
      exact_mod_cast countOf_hit_le hhits true

end CsfAssignments.Csim
