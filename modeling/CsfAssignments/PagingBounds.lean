import Mathlib.Data.Finset.Card
import Mathlib.Data.List.Nodup
import Mathlib.Tactic.Ring

/-!
# Bounds on the misses of a cache

A cache of bounded size serves a history of requests, the latest first. A queue forgets its last
element on a miss, and on a hit it may raise the requested element or leave it in place, so that
it may be a recency stack or a first-in first-out queue. The history is cut into phases of at
most as many distinct elements as the queue holds. In a phase the queue misses each element at
most once, and no cache at all can serve a phase and the first request behind it without misses.
-/

namespace CsfAssignments.Paging

variable {α : Type*} [DecidableEq α]

/-- Any cache of at most `j` elements: its elements after a history, and its misses. Only the
requested element is brought in, and any others may be dropped. -/
inductive Service (j : ℕ) : List α → Finset α → ℕ → Prop
  | start : Service j [] ∅ 0
  | serve {h : List α} {s t : Finset α} {n : ℕ} {a : α} : Service j h s n → a ∈ t →
      t ⊆ insert a s → t.card ≤ j → Service j (a :: h) t (n + if a ∈ s then 0 else 1)

/-- A queue of at most `k` elements after a history, and its misses. -/
inductive Queue (k : ℕ) : List α → List α → ℕ → Prop
  | start : Queue k [] [] 0
  | stay {h l : List α} {n : ℕ} {a : α} : Queue k h l n → a ∈ l → Queue k (a :: h) l n
  | raise {h l : List α} {n : ℕ} {a : α} : Queue k h l n → a ∈ l →
      Queue k (a :: h) (a :: l.filter (fun b => b ≠ a)) n
  | miss {h l : List α} {n : ℕ} {a : α} : Queue k h l n → a ∉ l →
      Queue k (a :: h) (a :: l.take (k - 1)) (n + 1)

/-- The distinct requests of the current phase, and the number of phases before it. A phase ends
with a request that would be its `k + 1`st element. -/
def phases (k : ℕ) : List α → Finset α × ℕ
  | [] => (∅, 0)
  | a :: h =>
      if (insert a (phases k h).1).card ≤ k then (insert a (phases k h).1, (phases k h).2)
      else ({a}, (phases k h).2 + 1)

section Phases
variable {j k n : ℕ} {h l : List α} {s : Finset α} {a : α}

theorem phases_of_le (hcard : (insert a (phases k h).1).card ≤ k) :
    phases k (a :: h) = (insert a (phases k h).1, (phases k h).2) := by
  rw [phases, if_pos hcard]

theorem phases_of_lt (hcard : k < (insert a (phases k h).1).card) :
    phases k (a :: h) = ({a}, (phases k h).2 + 1) := by
  rw [phases, if_neg (not_le.mpr hcard)]

theorem card_phases_le (hk : 0 < k) (h : List α) : (phases k h).1.card ≤ k := by
  induction h with
  | nil => exact Nat.zero_le k
  | cons a h ih =>
    by_cases hcard : (insert a (phases k h).1).card ≤ k
    · rwa [phases_of_le hcard]
    · rw [phases_of_lt (not_le.mp hcard), Finset.card_singleton]
      exact hk

/-- Every distinct element of a history is missed at least once. -/
theorem Service.card_le (hserved : Service j h s n) : s ⊆ h.toFinset ∧ h.toFinset.card ≤ n := by
  induction hserved with
  | start => exact ⟨Finset.Subset.refl _, le_refl 0⟩
  | @serve h s t n a _ _ hsub _ ih =>
    obtain ⟨hs, hn⟩ := ih
    rw [List.toFinset_cons]
    refine ⟨hsub.trans (Finset.insert_subset_insert a hs), ?_⟩
    by_cases ha : a ∈ s
    · rw [if_pos ha, Finset.insert_eq_self.mpr (hs ha)]
      exact hn
    · rw [if_neg ha]
      exact (Finset.card_insert_le _ _).trans (Nat.succ_le_succ hn)

/-- What a cache has at the start of a phase and has brought in since covers the phase, so that
every phase behind the first costs it the elements that did not fit. -/
private theorem Service.phase_bound (hserved : Service j h s n) :
    ∃ kept brought : Finset α, kept.card ≤ j ∧ (phases k h).1 ⊆ kept ∪ brought ∧
      s ⊆ kept ∪ brought ∧ (k + 1 - j) * (phases k h).2 + brought.card ≤ n := by
  induction hserved with
  | start => exact ⟨∅, ∅, Nat.zero_le j, Finset.empty_subset _, Finset.empty_subset _, le_refl 0⟩
  | @serve h s t n a _ ha hsub hcard ih =>
    obtain ⟨kept, brought, hkept, hphase, hs, hn⟩ := ih
    obtain ⟨brought', hcover, hmem, hn'⟩ : ∃ brought' : Finset α,
        kept ∪ brought ⊆ kept ∪ brought' ∧ a ∈ kept ∪ brought' ∧
        (k + 1 - j) * (phases k h).2 + brought'.card ≤ n + if a ∈ s then 0 else 1 := by
      by_cases hhit : a ∈ s
      · exact ⟨brought, Finset.Subset.refl _, hs hhit, by rwa [if_pos hhit]⟩
      · refine ⟨insert a brought, Finset.union_subset_union_right (Finset.subset_insert a _),
          Finset.mem_union_right _ (Finset.mem_insert_self a _), ?_⟩
        have hinsert := Finset.card_insert_le a brought
        rw [if_neg hhit]
        omega
    have hphase' : insert a (phases k h).1 ⊆ kept ∪ brought' :=
      Finset.insert_subset hmem (hphase.trans hcover)
    by_cases hroom : (insert a (phases k h).1).card ≤ k
    · rw [phases_of_le hroom]
      exact ⟨kept, brought', hkept, hphase',
        hsub.trans (Finset.insert_subset hmem (hs.trans hcover)), hn'⟩
    · -- the elements of the phase and the next one are more than the cache had room for
      have hmany := (Finset.card_le_card hphase').trans (Finset.card_union_le kept brought')
      rw [phases_of_lt (not_le.mp hroom)]
      refine ⟨t, ∅, hcard, ?_, Finset.subset_union_left, ?_⟩
      · exact Finset.singleton_subset_iff.mpr (Finset.mem_union_left _ ha)
      · rw [Finset.card_empty, Nat.mul_succ]
        omega

/-- The elements raised or brought in since the phase began are in front, and every miss of the
phase has added one. -/
def Fresh (k : ℕ) (h l : List α) (n : ℕ) : Prop :=
  ∃ front rest, l = front ++ rest ∧ front.Nodup ∧ (∀ b ∈ front, b ∈ (phases k h).1) ∧
    n ≤ k * (phases k h).2 + front.length

namespace Fresh

private theorem length_le {front : List α} (hnodup : front.Nodup) (hfront : ∀ b ∈ front, b ∈ s) :
    front.length ≤ s.card := by
  rw [← List.toFinset_card_of_nodup hnodup]
  exact Finset.card_le_card fun b hb => hfront b (List.mem_toFinset.mp hb)

/-- A phase has at most as many misses as the queue has places. -/
theorem misses_le (hk : 0 < k) (hfresh : Fresh k h l n) : n ≤ k * ((phases k h).2 + 1) := by
  obtain ⟨front, rest, -, hnodup, hfront, hn⟩ := hfresh
  have hlen := (length_le hnodup hfront).trans (card_phases_le hk h)
  rw [Nat.mul_succ]
  omega

/-- A hit begins a phase with no element in front. -/
private theorem begins (hk : 0 < k) (hfresh : Fresh k h l n)
    (hfull : k < (insert a (phases k h).1).card) (l' : List α) : Fresh k (a :: h) l' n := by
  have hn := hfresh.misses_le hk
  rw [Fresh, phases_of_lt hfull]
  exact ⟨[], l', rfl, List.nodup_nil, by simp, hn⟩

/-- A miss begins a phase with its element in front. -/
private theorem begins_miss (hk : 0 < k) (hfresh : Fresh k h l n)
    (hfull : k < (insert a (phases k h).1).card) (l' : List α) :
    Fresh k (a :: h) (a :: l') (n + 1) := by
  have hn := hfresh.misses_le hk
  rw [Fresh, phases_of_lt hfull]
  exact ⟨[a], l', rfl, List.nodup_singleton a, by simp, Nat.succ_le_succ hn⟩

private theorem mem_cons_front {front : List α} (hfront : ∀ b ∈ front, b ∈ s) :
    ∀ b ∈ a :: front, b ∈ insert a s := by
  rintro b hb
  rcases List.mem_cons.mp hb with rfl | hb
  · exact Finset.mem_insert_self b s
  · exact Finset.mem_insert_of_mem (hfront b hb)

private theorem stay (hfresh : Fresh k h l n) (hroom : (insert a (phases k h).1).card ≤ k) :
    Fresh k (a :: h) l n := by
  obtain ⟨front, rest, hl, hnodup, hfront, hn⟩ := hfresh
  rw [Fresh, phases_of_le hroom]
  exact ⟨front, rest, hl, hnodup, fun b hb => Finset.mem_insert_of_mem (hfront b hb), hn⟩

private theorem raise (hfresh : Fresh k h l n) (hroom : (insert a (phases k h).1).card ≤ k) :
    Fresh k (a :: h) (a :: l.filter (fun b => b ≠ a)) n := by
  obtain ⟨front, rest, rfl, hnodup, hfront, hn⟩ := hfresh
  have hlen : front.length ≤ (a :: front.filter (fun b => b ≠ a)).length := by
    have herase : front.filter (fun b => b ≠ a) = front.erase a := by
      rw [hnodup.erase_eq_filter]
      exact List.filter_congr fun b _ => by simp [bne, Bool.beq_eq_decide_eq]
    rw [herase, List.length_cons, List.length_erase]
    split_ifs <;> omega
  rw [Fresh, phases_of_le hroom, List.filter_append]
  refine ⟨a :: front.filter (fun b => b ≠ a), rest.filter (fun b => b ≠ a), rfl,
    List.nodup_cons.mpr ⟨by simp, hnodup.filter _⟩,
    mem_cons_front fun b hb => hfront b (List.mem_filter.mp hb).1, ?_⟩
  exact hn.trans (Nat.add_le_add_left hlen _)

/-- A miss in a phase finds room in front of the elements of the phase. -/
private theorem miss (hfresh : Fresh k h l n) (hroom : (insert a (phases k h).1).card ≤ k)
    (ha : a ∉ l) : Fresh k (a :: h) (a :: l.take (k - 1)) (n + 1) := by
  obtain ⟨front, rest, rfl, hnodup, hfront, hn⟩ := hfresh
  have hnodup' : (a :: front).Nodup :=
    List.nodup_cons.mpr ⟨fun hin => ha (List.mem_append_left rest hin), hnodup⟩
  have hlen := (length_le hnodup' (mem_cons_front hfront)).trans hroom
  rw [List.length_cons] at hlen
  rw [Fresh, phases_of_le hroom, List.take_append, List.take_of_length_le (by omega)]
  exact ⟨a :: front, rest.take (k - 1 - front.length), rfl, hnodup', mem_cons_front hfront,
    Nat.succ_le_succ hn⟩

end Fresh

theorem Queue.fresh (hk : 0 < k) (hqueue : Queue k h l n) : Fresh k h l n := by
  induction hqueue with
  | start => exact ⟨[], [], rfl, List.nodup_nil, by simp, le_refl 0⟩
  | @stay h l n a _ _ ih =>
    rcases le_or_gt (insert a (phases k h).1).card k with hroom | hfull
    · exact ih.stay hroom
    · exact ih.begins hk hfull l
  | @raise h l n a _ _ ih =>
    rcases le_or_gt (insert a (phases k h).1).card k with hroom | hfull
    · exact ih.raise hroom
    · exact ih.begins hk hfull _
  | @miss h l n a _ ha ih =>
    rcases le_or_gt (insert a (phases k h).1).card k with hroom | hfull
    · exact ih.miss hroom ha
    · exact ih.begins_miss hk hfull _

/-- A queue is a cache. -/
theorem Queue.service (hk : 0 < k) (hqueue : Queue k h l n) :
    l.Nodup ∧ l.length ≤ k ∧ Service k h l.toFinset n := by
  induction hqueue with
  | start => exact ⟨List.nodup_nil, Nat.zero_le k, .start⟩
  | @stay h l n a _ ha ih =>
    obtain ⟨hnodup, hlen, hserved⟩ := ih
    have hmem : a ∈ l.toFinset := List.mem_toFinset.mpr ha
    have hnext := hserved.serve hmem (Finset.subset_insert a _)
      ((List.toFinset_card_le l).trans hlen)
    rw [if_pos hmem] at hnext
    exact ⟨hnodup, hlen, hnext⟩
  | @raise h l n a _ ha ih =>
    obtain ⟨hnodup, hlen, hserved⟩ := ih
    have hshort : (l.filter (fun b => b ≠ a)).length < l.length :=
      List.length_filter_lt_length_iff_exists.mpr ⟨a, ha, by simp⟩
    have hlen' : (a :: l.filter (fun b => b ≠ a)).length ≤ k := by
      rw [List.length_cons]
      omega
    have hsub : (a :: l.filter (fun b => b ≠ a)).toFinset ⊆ insert a l.toFinset := by
      rw [List.toFinset_cons]
      exact Finset.insert_subset_insert a fun b hb =>
        List.mem_toFinset.mpr (List.mem_filter.mp (List.mem_toFinset.mp hb)).1
    have hnext := hserved.serve (List.mem_toFinset.mpr List.mem_cons_self) hsub
      ((List.toFinset_card_le _).trans hlen')
    rw [if_pos (List.mem_toFinset.mpr ha)] at hnext
    exact ⟨List.nodup_cons.mpr ⟨by simp, hnodup.filter _⟩, hlen', hnext⟩
  | @miss h l n a _ ha ih =>
    obtain ⟨hnodup, hlen, hserved⟩ := ih
    have hlen' : (a :: l.take (k - 1)).length ≤ k := by
      rw [List.length_cons, List.length_take]
      omega
    have hsub : (a :: l.take (k - 1)).toFinset ⊆ insert a l.toFinset := by
      rw [List.toFinset_cons]
      exact Finset.insert_subset_insert a fun b hb =>
        List.mem_toFinset.mpr (List.mem_of_mem_take (List.mem_toFinset.mp hb))
    have hnext := hserved.serve (List.mem_toFinset.mpr List.mem_cons_self) hsub
      ((List.toFinset_card_le _).trans hlen')
    rw [if_neg fun hin => ha (List.mem_toFinset.mp hin)] at hnext
    exact ⟨List.nodup_cons.mpr ⟨fun hin => ha (List.mem_of_mem_take hin), hnodup.take⟩, hlen',
      hnext⟩

/-- A queue of `k` elements against any cache of `j` elements on the same history: for
`j = k` it misses at most `k` times as often, but for the last phase. -/
theorem Queue.competitive {m : ℕ} (hk : 0 < k) (hqueue : Queue k h l n)
    (hserved : Service j h s m) : (k + 1 - j) * n ≤ k * m + k * (k + 1 - j) := by
  obtain ⟨_, brought, _, _, _, hm⟩ := hserved.phase_bound (k := k)
  have hphases : (k + 1 - j) * (phases k h).2 ≤ m := (Nat.le_add_right _ _).trans hm
  calc (k + 1 - j) * n ≤ (k + 1 - j) * (k * ((phases k h).2 + 1)) :=
        Nat.mul_le_mul_left _ ((hqueue.fresh hk).misses_le hk)
    _ = k * ((k + 1 - j) * (phases k h).2) + k * (k + 1 - j) := by ring
    _ ≤ k * m + k * (k + 1 - j) := Nat.add_le_add_right (Nat.mul_le_mul_left k hphases) _

/-- A hit requests nothing new. -/
private theorem Queue.toFinset_hit (hk : 0 < k) (hqueue : Queue k h l n) (ha : a ∈ l) :
    (a :: h).toFinset = h.toFinset := by
  rw [List.toFinset_cons]
  exact Finset.insert_eq_self.mpr ((hqueue.service hk).2.2.card_le.1 (List.mem_toFinset.mpr ha))

/-- On a history of no more distinct elements than it holds, a queue misses each of them once and
forgets none. -/
theorem Queue.of_card_le (hk : 0 < k) (hqueue : Queue k h l n) (hcard : h.toFinset.card ≤ k) :
    (∀ b ∈ h, b ∈ l) ∧ n = h.toFinset.card := by
  induction hqueue with
  | start => exact ⟨fun b hb => absurd hb List.not_mem_nil, rfl⟩
  | @stay h l n a hqueue ha ih =>
    rw [hqueue.toFinset_hit hk ha] at hcard ⊢
    obtain ⟨hall, hn⟩ := ih hcard
    exact ⟨List.forall_mem_cons.mpr ⟨ha, hall⟩, hn⟩
  | @raise h l n a hqueue ha ih =>
    rw [hqueue.toFinset_hit hk ha] at hcard ⊢
    obtain ⟨hall, hn⟩ := ih hcard
    refine ⟨List.forall_mem_cons.mpr ⟨List.mem_cons_self, fun b hb => ?_⟩, hn⟩
    by_cases hba : b = a
    · exact List.mem_cons.mpr (.inl hba)
    · exact List.mem_cons_of_mem a (List.mem_filter.mpr ⟨hall b hb, by simpa using hba⟩)
  | @miss h l n a hqueue ha ih =>
    obtain ⟨hnodup, -, hserved⟩ := hqueue.service hk
    have hsub := Finset.card_le_card hserved.card_le.1
    have hgrows : h.toFinset.card ≤ (a :: h).toFinset.card := by
      rw [List.toFinset_cons]
      exact Finset.card_le_card (Finset.subset_insert a _)
    obtain ⟨hall, hn⟩ := ih (hgrows.trans hcard)
    have hnew : a ∉ h.toFinset := fun hin => ha (hall a (List.mem_toFinset.mp hin))
    rw [List.toFinset_cons, Finset.card_insert_of_notMem hnew] at hcard ⊢
    rw [List.toFinset_card_of_nodup hnodup] at hsub
    rw [List.take_of_length_le (by omega)]
    exact ⟨List.forall_mem_cons.mpr ⟨List.mem_cons_self, fun b hb =>
      List.mem_cons_of_mem a (hall b hb)⟩, by rw [hn]⟩

end Phases
end CsfAssignments.Paging
