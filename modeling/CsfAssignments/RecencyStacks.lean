import Mathlib.Data.Finset.Card
import Mathlib.Data.List.Nodup
import Mathlib.Data.List.TakeWhile

/-!
# Recency stacks of a touch history

A history lists the elements that were touched, the latest first. Its recency
stack keeps each element once, at its latest touch. The position of an element in
the stack is its stack distance, and a bounded stack follows the same touches by
moving the touched element to the front and forgetting the last one.
-/

namespace CsfAssignments.RecencyStacks

variable {α β : Type*} [DecidableEq α]

/-- Touching an element of a stack that may hold at most `n` of them. -/
def touch (n : ℕ) (a : α) (l : List α) : List α :=
  a :: (l.filter (fun b => b ≠ a)).take (n - 1)

/-- The distinct elements of a history, in the order of their latest touch. -/
def recency : List α → List α
  | [] => []
  | a :: h => a :: (recency h).filter (fun b => b ≠ a)

/-- Number of distinct elements touched after the latest touch of `b`. -/
def distance (b : α) (h : List α) : ℕ := (h.takeWhile (fun a => a ≠ b)).toFinset.card

@[simp] theorem mem_recency {h : List α} {b : α} : b ∈ recency h ↔ b ∈ h := by
  induction h with
  | nil => simp [recency]
  | cons a h ih =>
    by_cases hb : b = a
    · simp [recency, hb]
    · simp [recency, hb, ih]

theorem nodup_recency (h : List α) : (recency h).Nodup := by
  induction h with
  | nil => exact List.nodup_nil
  | cons a h ih =>
    refine List.nodup_cons.mpr ⟨by simp, ih.filter _⟩

private theorem filter_of_notMem {a : α} {l : List α} (ha : a ∉ l) :
    l.filter (fun b => b ≠ a) = l := by
  refine List.filter_eq_self.mpr fun b hb => ?_
  have hne : b ≠ a := fun h => ha (h ▸ hb)
  simpa using hne

/-- A miss inserts in front and forgets the last element of a full stack. -/
theorem touch_of_notMem {n : ℕ} {a : α} {l : List α} (ha : a ∉ l) :
    touch n a l = a :: l.take (n - 1) := by
  rw [touch, filter_of_notMem ha]

/-- A hit moves the touched element to the front and forgets nothing. -/
theorem touch_of_mem {n : ℕ} {a : α} {l : List α} (ha : a ∈ l) (hn : l.length ≤ n) :
    touch n a l = a :: l.filter (fun b => b ≠ a) := by
  have hlt : (l.filter (fun b => b ≠ a)).length < l.length :=
    List.length_filter_lt_length_iff_exists.mpr ⟨a, ha, by simp⟩
  rw [touch, List.take_of_length_le (by omega)]

private theorem filter_take_of_notMem {a : α} {l : List α} {n : ℕ} (h : a ∉ l.take n) :
    (l.filter (fun b => b ≠ a)).take n = l.take n := by
  induction l generalizing n with
  | nil => simp
  | cons b l ih =>
    cases n with
    | zero => simp
    | succ n =>
      simp only [List.take_succ_cons, List.mem_cons, not_or] at h
      have hb : b ≠ a := fun hba => h.1 hba.symm
      rw [List.filter_cons_of_pos (by simpa using hb), List.take_succ_cons, ih h.2,
        List.take_succ_cons]

private theorem filter_take_of_mem {a : α} {l : List α} {n : ℕ} (hl : l.Nodup)
    (h : a ∈ l.take n) :
    (l.take n).filter (fun b => b ≠ a) = (l.filter (fun b => b ≠ a)).take (n - 1) := by
  induction l generalizing n with
  | nil => simp
  | cons b l ih =>
    obtain ⟨hbl, hl⟩ := List.nodup_cons.mp hl
    cases n with
    | zero => simp at h
    | succ n =>
      by_cases hb : b = a
      · subst hb
        have hrest : l.filter (fun c => c ≠ b) = l := filter_of_notMem hbl
        have htake : (l.take n).filter (fun c => c ≠ b) = l.take n :=
          filter_of_notMem fun hm => hbl (List.mem_of_mem_take hm)
        rw [List.take_succ_cons, List.filter_cons_of_neg (by simp), htake,
          List.filter_cons_of_neg (by simp), hrest, Nat.add_sub_cancel]
      · have ha : a ∈ l.take n := by
          rcases List.mem_cons.mp (by simpa using h) with hab | ha
          · exact absurd hab.symm hb
          · exact ha
        have hn : n ≠ 0 := by rintro rfl; simp at ha
        obtain ⟨m, rfl⟩ := Nat.exists_eq_succ_of_ne_zero hn
        rw [List.take_succ_cons, List.filter_cons_of_pos (by simpa using hb), ih hl ha,
          List.filter_cons_of_pos (by simpa using hb)]
        simp

/-- The bounded stack is always the beginning of the unbounded one. -/
theorem touch_take_recency {n : ℕ} (hn : 0 < n) (a : α) (h : List α) :
    touch n a ((recency h).take n) = (recency (a :: h)).take n := by
  obtain ⟨m, rfl⟩ := Nat.exists_eq_succ_of_ne_zero hn.ne'
  simp only [recency, List.take_succ_cons]
  by_cases ha : a ∈ (recency h).take (m + 1)
  · rw [touch, filter_take_of_mem (nodup_recency h) ha]
    simp
  · have hm : a ∉ (recency h).take m := fun hm =>
      ha (List.take_subset_take_left _ (Nat.le_succ m) hm)
    rw [touch_of_notMem ha, filter_take_of_notMem hm]
    simp [List.take_take]

/-- Filtering commutes with cutting a list at an element that the filter keeps. -/
theorem takeWhile_filter {p : α → Bool} {b : α} (hb : p b = true) (l : List α) :
    (l.filter p).takeWhile (fun c => c ≠ b) = (l.takeWhile (fun c => c ≠ b)).filter p := by
  induction l with
  | nil => rfl
  | cons c l ih =>
    by_cases hc : c = b
    · subst hc
      simp [hb]
    · by_cases hp : p c = true
      · simpa [hc, hp] using ih
      · simpa [hc, hp] using ih

private theorem toFinset_takeWhile_recency (b : α) (h : List α) :
    ((recency h).takeWhile (fun a => a ≠ b)).toFinset =
      (h.takeWhile (fun a => a ≠ b)).toFinset := by
  induction h with
  | nil => rfl
  | cons a h ih =>
    by_cases hab : a = b
    · simp [recency, hab]
    · simp only [recency, ne_eq, hab, not_false_eq_true, decide_true, List.takeWhile_cons_of_pos,
        List.toFinset_cons]
      rw [takeWhile_filter (by simpa using Ne.symm hab), ← ih]
      ext c
      by_cases hca : c = a <;> simp [hca]

theorem idxOf_eq_length_takeWhile (b : α) (l : List α) :
    l.idxOf b = (l.takeWhile (fun a => a ≠ b)).length := by
  induction l with
  | nil => rfl
  | cons a l ih =>
    by_cases hab : a = b
    · simp [hab]
    · simp [List.idxOf_cons_ne _ hab, hab, ih]

/-- The position in the recency stack is the stack distance. -/
theorem idxOf_recency (b : α) (h : List α) : (recency h).idxOf b = distance b h := by
  rw [distance, ← toFinset_takeWhile_recency, List.toFinset_card_of_nodup,
    idxOf_eq_length_takeWhile]
  exact (nodup_recency h).sublist (List.takeWhile_sublist _)

/-- An element is in the bounded stack exactly when it was touched and fewer than
`n` distinct others were touched since. -/
theorem mem_take_recency {n : ℕ} {b : α} {h : List α} :
    b ∈ (recency h).take n ↔ b ∈ h ∧ distance b h < n := by
  rw [← idxOf_recency]
  constructor
  · intro hb
    have hr := List.mem_of_mem_take hb
    exact ⟨mem_recency.mp hr, (List.mem_take_iff_idxOf_lt hr).mp hb⟩
  · rintro ⟨hb, hlt⟩
    exact (List.mem_take_iff_idxOf_lt (mem_recency.mpr hb)).mpr hlt

theorem takeWhile_map_ne [DecidableEq β] {f : α → β} (hf : Function.Injective f) (b : α)
    (l : List α) :
    (l.map f).takeWhile (fun a => a ≠ f b) = (l.takeWhile (fun a => a ≠ b)).map f := by
  rw [List.takeWhile_map]
  congr 2
  funext a
  simp [hf.eq_iff]

theorem idxOf_map [DecidableEq β] {f : α → β} (hf : Function.Injective f) (b : α) (l : List α) :
    (l.map f).idxOf (f b) = l.idxOf b := by
  rw [idxOf_eq_length_takeWhile, idxOf_eq_length_takeWhile, takeWhile_map_ne hf, List.length_map]

/-- The stack distance only depends on which touches are of one element. -/
theorem distance_map [DecidableEq β] {f : α → β} (hf : Function.Injective f) (b : α)
    (h : List α) : distance (f b) (h.map f) = distance b h := by
  rw [distance, distance, takeWhile_map_ne hf, ← Finset.card_image_of_injective _ hf]
  congr 1
  ext c
  simp

/-- A stack of at most `n` elements is an ordered part of a larger one, and has forgotten
nothing unless it is full. -/
structure Within (n : ℕ) (l l' : List α) : Prop where
  sublist : l.Sublist l'
  length_eq : l.length = min n l'.length

omit [DecidableEq α] in
theorem within_nil (n : ℕ) : Within n ([] : List α) [] := ⟨.refl _, by simp⟩

namespace Within

variable {n m : ℕ} {a : α} {l l' : List α}

private theorem length_filter_ne (hl : l.Nodup) :
    (l.filter (fun b => b ≠ a)).length = if a ∈ l then l.length - 1 else l.length := by
  have herase : l.filter (fun b => b ≠ a) = l.erase a := by
    rw [hl.erase_eq_filter]
    congr 1
    funext b
    by_cases hb : b = a <;> simp [hb]
  rw [herase, List.length_erase]

private theorem length_touch (hl : l.Nodup) (hn : 0 < n) (hlen : l.length ≤ n) :
    (RecencyStacks.touch n a l).length =
      if a ∈ l then l.length else min n (l.length + 1) := by
  rw [RecencyStacks.touch, List.length_cons, List.length_take, length_filter_ne hl]
  by_cases ha : a ∈ l
  · have hpos := List.length_pos_of_mem ha
    simp only [if_pos ha]
    omega
  · simp only [if_neg ha]
    omega

omit [DecidableEq α] in
private theorem dropLast_sublist (h : l.Sublist l') : l.dropLast.Sublist l'.dropLast := by
  have hrev := h.reverse.tail
  rwa [List.tail_reverse, List.tail_reverse, List.reverse_sublist] at hrev

/-- Touching the same element in both stacks. -/
theorem touch (h : Within n l l') (hl' : l'.Nodup) (hn : 0 < n) (hnm : n ≤ m)
    (hm : l'.length ≤ m) (a : α) :
    Within n (RecencyStacks.touch n a l) (RecencyStacks.touch m a l') := by
  have hl := hl'.sublist h.sublist
  have hlen := h.length_eq
  have hfilter : (l.filter (fun b => b ≠ a)).Sublist (l'.filter (fun b => b ≠ a)) :=
    h.sublist.filter _
  constructor
  · rw [RecencyStacks.touch, RecencyStacks.touch, List.cons_sublist_cons]
    by_cases hroom : (l'.filter (fun b => b ≠ a)).length ≤ m - 1
    · rw [List.take_of_length_le hroom]
      exact (List.take_sublist _ _).trans hfilter
    · -- the larger stack is full and forgets its last element; so does the smaller one
      have ha' : a ∉ l' := by
        intro ha'
        rw [length_filter_ne hl', if_pos ha'] at hroom
        omega
      rw [filter_of_notMem ha'] at hroom hfilter ⊢
      have hlast : l'.take (m - 1) = l'.dropLast := by
        rw [List.dropLast_eq_take, show m - 1 = l'.length - 1 by omega]
      have hcut : (l.filter (fun b => b ≠ a)).take (n - 1) = l.dropLast := by
        rw [filter_of_notMem fun hm => ha' (h.sublist.subset hm), List.dropLast_eq_take,
          show n - 1 = l.length - 1 by omega]
      rw [hlast, hcut]
      exact dropLast_sublist h.sublist
  · rw [length_touch hl hn (by omega), length_touch hl' (by omega) hm]
    by_cases ha : a ∈ l
    · rw [if_pos ha, if_pos (h.sublist.subset ha), hlen]
    · rw [if_neg ha]
      by_cases ha' : a ∈ l'
      · rw [if_pos ha']
        have hlt : l.length < l'.length := by
          refine lt_of_le_of_ne h.sublist.length_le fun heq => ha ?_
          rwa [h.sublist.eq_of_length heq]
        omega
      · rw [if_neg ha']
        omega

/-- Touching only in the larger stack an element that the smaller one has forgotten. -/
theorem touch_right (h : Within n l l') (hl' : l'.Nodup) (hm : l'.length ≤ m) (ha : a ∉ l)
    (ha' : a ∈ l') : Within n l (RecencyStacks.touch m a l') := by
  have hpos := List.length_pos_of_mem ha'
  constructor
  · rw [touch_of_mem ha' hm]
    have hfilter := h.sublist.filter (fun b => b ≠ a)
    rw [filter_of_notMem ha] at hfilter
    exact hfilter.cons a
  · rw [length_touch hl' (by omega) hm, if_pos ha']
    exact h.length_eq

end Within

/-- At most `n` distinct keys in recency order, with a payload for each. -/
structure KeyedStack (α β : Type*) (n : ℕ) where
  entries : List (α × β)
  nodup : (entries.map Prod.fst).Nodup
  bounded : entries.length ≤ n

namespace KeyedStack

variable {n : ℕ}

def keys (s : KeyedStack α β n) : List α := s.entries.map Prod.fst

def empty (α β : Type*) (n : ℕ) : KeyedStack α β n := ⟨[], List.nodup_nil, Nat.zero_le n⟩

/-- Replaces the payload of a key in place. -/
def adjust (a : α) (f : β → β) (s : KeyedStack α β n) : KeyedStack α β n where
  entries := s.entries.map (fun e => if e.1 = a then (e.1, f e.2) else e)
  nodup := by
    rw [List.map_map, List.map_congr_left (g := Prod.fst) (fun e _ => by
      by_cases h : e.1 = a <;> simp [h])]
    exact s.nodup
  bounded := by simpa using s.bounded

/-- Moves a key to the front. -/
def raise (a : α) (s : KeyedStack α β n) : KeyedStack α β n where
  entries := s.entries.filter (fun e => e.1 = a) ++ s.entries.filter (fun e => e.1 ≠ a)
  nodup := by
    have hp := (List.filter_append_perm (fun e : α × β => decide (e.1 = a)) s.entries).map Prod.fst
    simpa using hp.nodup_iff.mpr s.nodup
  bounded := by
    have hp := (List.filter_append_perm (fun e : α × β => decide (e.1 = a)) s.entries).length_eq
    have hb := s.bounded
    simp only [List.length_append, ne_eq, decide_not] at hp ⊢
    omega

/-- Pushes a key in front and keeps the first `n` entries. -/
def fill (a : α) (b : β) (s : KeyedStack α β n) : KeyedStack α β n where
  entries := ((a, b) :: s.entries.filter (fun e => e.1 ≠ a)).take n
  nodup := by
    rw [List.map_take]
    refine (List.nodup_cons.mpr ⟨fun hm => ?_, ?_⟩ : List.Nodup (_ :: _)).take
    · obtain ⟨e, he, hea⟩ := List.mem_map.mp hm
      simp at he
      exact he.2 hea
    · exact s.nodup.sublist (List.filter_sublist.map Prod.fst)
  bounded := List.length_take_le _ _

theorem entries_adjust (a : α) (f : β → β) (s : KeyedStack α β n) :
    (s.adjust a f).entries = s.entries.map (fun e => if e.1 = a then (e.1, f e.2) else e) := rfl

theorem entries_raise (a : α) (s : KeyedStack α β n) :
    (s.raise a).entries =
      s.entries.filter (fun e => e.1 = a) ++ s.entries.filter (fun e => e.1 ≠ a) := rfl

theorem entries_fill (a : α) (b : β) (s : KeyedStack α β n) :
    (s.fill a b).entries = ((a, b) :: s.entries.filter (fun e => e.1 ≠ a)).take n := rfl

theorem mem_adjust {a : α} {f : β → β} {s : KeyedStack α β n} {e : α × β}
    (he : e ∈ (s.adjust a f).entries) :
    ∃ b, (e.1, b) ∈ s.entries ∧ e.2 = if e.1 = a then f b else b := by
  rw [entries_adjust] at he
  obtain ⟨⟨k, b⟩, hm, rfl⟩ := List.mem_map.mp he
  by_cases hk : k = a
  · exact ⟨b, by simpa [hk] using hm, by simp [hk]⟩
  · exact ⟨b, by simpa [hk] using hm, by simp [hk]⟩

@[simp] theorem mem_raise {a : α} {s : KeyedStack α β n} {e : α × β} :
    e ∈ (s.raise a).entries ↔ e ∈ s.entries := by
  rw [entries_raise, List.mem_append, List.mem_filter, List.mem_filter, ← and_or_left]
  simp [em]

theorem mem_fill {a : α} {b : β} {s : KeyedStack α β n} {e : α × β}
    (he : e ∈ (s.fill a b).entries) : e = (a, b) ∨ e.1 ≠ a ∧ e ∈ s.entries := by
  rw [entries_fill] at he
  rcases List.mem_cons.mp (List.mem_of_mem_take he) with hab | hm
  · exact .inl hab
  · obtain ⟨hm, hne⟩ := List.mem_filter.mp hm
    exact .inr ⟨by simpa using hne, hm⟩

@[simp] theorem keys_adjust (a : α) (f : β → β) (s : KeyedStack α β n) :
    (s.adjust a f).keys = s.keys := by
  rw [keys, entries_adjust, List.map_map]
  refine List.map_congr_left fun e _ => ?_
  by_cases h : e.1 = a <;> simp [h]

private theorem map_fst_filter_ne (a : α) (l : List (α × β)) :
    (l.filter (fun e => e.1 ≠ a)).map Prod.fst =
      (l.map Prod.fst).filter (fun c => c ≠ a) := by
  rw [List.filter_map]
  rfl

private theorem filter_ne_eq_self {a : α} {l : List (α × β)} (hl : ∀ e ∈ l, e.1 ≠ a) :
    l.filter (fun e => e.1 ≠ a) = l :=
  List.filter_eq_self.mpr (by simpa using hl)

private theorem filter_eq_eq_nil {a : α} {l : List (α × β)} (hl : ∀ e ∈ l, e.1 ≠ a) :
    l.filter (fun e => e.1 = a) = [] :=
  List.filter_eq_nil_iff.mpr (by simpa using hl)

omit [DecidableEq α] in
theorem ne_of_notMem_keys {s : KeyedStack α β n} {a : α} (ha : a ∉ s.keys) :
    ∀ e ∈ s.entries, e.1 ≠ a :=
  fun _ he hea => ha (hea ▸ List.mem_map_of_mem he)

omit [DecidableEq α] in
/-- The entries before and after a key of a stack. -/
theorem split_of_mem {s : KeyedStack α β n} {a : α} (ha : a ∈ s.keys) :
    ∃ l b r, s.entries = l ++ (a, b) :: r ∧ (∀ e ∈ l, e.1 ≠ a) ∧ ∀ e ∈ r, e.1 ≠ a := by
  obtain ⟨⟨a', b⟩, he, rfl⟩ := List.mem_map.mp ha
  obtain ⟨l, r, hs⟩ := List.append_of_mem he
  have hn := s.nodup
  rw [hs, List.map_append, List.map_cons, List.nodup_append] at hn
  obtain ⟨-, hr, hd⟩ := hn
  refine ⟨l, b, r, hs, fun e hl => ?_, fun e hm hea => ?_⟩
  · exact hd _ (List.mem_map_of_mem hl) _ List.mem_cons_self
  · exact (List.nodup_cons.mp hr).1 (hea ▸ List.mem_map_of_mem hm)

theorem entries_raise_of_split {s : KeyedStack α β n} {a : α} {b : β} {l r : List (α × β)}
    (hs : s.entries = l ++ (a, b) :: r) (hl : ∀ e ∈ l, e.1 ≠ a) (hr : ∀ e ∈ r, e.1 ≠ a) :
    (s.raise a).entries = (a, b) :: (l ++ r) := by
  rw [entries_raise, hs, List.filter_append, List.filter_append, filter_eq_eq_nil hl,
    filter_ne_eq_self hl, List.filter_cons_of_pos (by simp), List.filter_cons_of_neg (by simp),
    filter_eq_eq_nil hr, filter_ne_eq_self hr]
  rfl

theorem keys_raise {s : KeyedStack α β n} {a : α} (ha : a ∈ s.keys) :
    (s.raise a).keys = touch n a s.keys := by
  obtain ⟨l, b, r, hs, hl, hr⟩ := split_of_mem ha
  have hlen : s.keys.length ≤ n := by simpa [keys] using s.bounded
  rw [touch_of_mem ha hlen, keys, entries_raise_of_split hs hl hr, keys, ← map_fst_filter_ne, hs,
    List.filter_append, filter_ne_eq_self hl, List.filter_cons_of_neg (by simp),
    filter_ne_eq_self hr, List.map_cons]

theorem keys_fill (hn : 0 < n) (a : α) (b : β) (s : KeyedStack α β n) :
    (s.fill a b).keys = touch n a s.keys := by
  obtain ⟨m, rfl⟩ := Nat.exists_eq_succ_of_ne_zero hn.ne'
  rw [keys, entries_fill, touch, keys, ← map_fst_filter_ne, List.take_succ_cons, List.map_cons,
    List.map_take]
  rfl

/-- Filling an absent key into a stack with room keeps every entry. -/
theorem entries_fill_of_lt {s : KeyedStack α β n} {a : α} (ha : a ∉ s.keys) (b : β)
    (hlt : s.entries.length < n) : (s.fill a b).entries = (a, b) :: s.entries := by
  rw [entries_fill, filter_ne_eq_self (ne_of_notMem_keys ha)]
  exact List.take_of_length_le (by rw [List.length_cons]; omega)

/-- Filling an absent key into a full stack forgets the last entry. -/
theorem entries_fill_of_full {s : KeyedStack α β n} {a : α} (ha : a ∉ s.keys) (b : β)
    {l : List (α × β)} {e : α × β} (hs : s.entries = l ++ [e]) (hfull : s.entries.length = n) :
    (s.fill a b).entries = (a, b) :: l := by
  have hlen : l.length + 1 = n := by simpa [hs] using hfull
  rw [entries_fill, filter_ne_eq_self (ne_of_notMem_keys ha), hs, ← hlen, List.take_succ_cons]
  simp

end KeyedStack
end CsfAssignments.RecencyStacks
