import CsfAssignments.ParsortAccesses

/-!
# The ranges of the process tree

A call of `merge_sort` reads and writes inside its range, and its kids split the range, so that
no two processes of the tree have anything in common. This holds whatever the processes do, and
whatever the array holds; it rests on the formulas for the split and on the cursors of the merge
loop alone.
-/

namespace CsfAssignments.Parsort
open CIntegers ListSegments ArrayFootprints

/-- What a call knows of its kids at a point, and where the cursors of its merge loop are. -/
def Point.Holds (lo hi : ℕ) (leftkid rightkid : Process) : Point → Prop
  | .entry => leftkid = .absent ∧ rightkid = .absent
  | .forked => leftkid ≠ .absent ∧ rightkid = .absent
  | .waiting => True
  | .waitingRight => leftkid.status? = some (.exited 0)
  | .merging left right _ =>
      Finished leftkid ∧ Finished rightkid ∧ lo ≤ left ∧ half lo hi ≤ right
  | .copying _ _ | .returned => Finished leftkid ∧ Finished rightkid
  | .ended status => status = .exited 0 → Finished leftkid ∧ Finished rightkid

/-- A call with these bounds has kids only if its range is larger than the threshold, and they
are calls on the halves of its range. -/
def Divided (threshold : ℕ) : ℕ → ℕ → Process → Prop
  | _, _, .absent => True
  | lo, hi, .node point lo' hi' leftkid rightkid =>
      lo' = lo ∧ hi' = hi ∧ Divided threshold lo (half lo hi) leftkid ∧
        Divided threshold (half lo hi) hi rightkid ∧
        (leftkid ≠ .absent ∨ rightkid ≠ .absent → threshold < hi - lo) ∧
        point.Holds lo hi leftkid rightkid

section Division
variable {qsort : (Int64 → Int64 → ℤ) → List Int64 → List Int64} {threshold : ℕ}
  {arr arr' : List Int64} {lo hi : ℕ} {p p' leftkid rightkid kid' : Process} {point : Point}

/-- A process that has exited with zero has left no process behind. -/
theorem Divided.finished (h : Divided threshold lo hi p) (hstatus : p.status? = some (.exited 0)) :
    Finished p := by
  cases p with
  | absent => trivial
  | node point lo' hi' leftkid rightkid =>
    cases point with
    | ended status => exact h.2.2.2.2.2 (Option.some.inj hstatus)
    | _ => cases hstatus

theorem Divided.entry (lo hi : ℕ) :
    Divided threshold lo hi (.node .entry lo hi .absent .absent) :=
  ⟨rfl, rfl, trivial, trivial, fun h => absurd h (by simp), rfl, rfl⟩

private theorem holds_failed {status : Status} (hstatus : status ≠ .exited 0) :
    (Point.ended status).Holds lo hi leftkid rightkid := fun h => absurd h hstatus

/-- The cursors of the merge loop never move back. -/
private theorem mergeRound_le {x : Int64} {endl endr left right left' right' : ℕ}
    (h : mergeRound arr endl endr left right = some (x, left', right')) :
    left ≤ left' ∧ right ≤ right' := by
  unfold mergeRound at h
  split_ifs at h
  · obtain ⟨y, -, h⟩ := Option.bind_eq_some_iff.mp h
    cases h
    omega
  · obtain ⟨y, -, h⟩ := Option.bind_eq_some_iff.mp h
    cases h
    omega
  · obtain ⟨y, -, h⟩ := Option.bind_eq_some_iff.mp h
    obtain ⟨z, -, h⟩ := Option.bind_eq_some_iff.mp h
    split_ifs at h
    · cases h
      omega
    · cases h
      omega

/-- A move of a process itself. -/
private theorem act_divided (hle : lo ≤ hi) (hsize : hi < 2 ^ 61) {kid : Bool}
    (h : Divided threshold lo hi p) (hmove : act qsort threshold kid arr p = some (arr', p')) :
    Divided threshold lo hi p' ∧ p' ≠ .absent := by
  cases p with
  | absent => cases hmove
  | node point lo' hi' leftkid rightkid =>
    obtain ⟨rfl, rfl, hleft, hright, hlarge, hpoint⟩ := h
    have hgoto {point : Point} (hholds : point.Holds lo' hi' leftkid rightkid) :
        Divided threshold lo' hi' (.node point lo' hi' leftkid rightkid) ∧
          Process.node point lo' hi' leftkid rightkid ≠ .absent :=
      ⟨⟨rfl, rfl, hleft, hright, hlarge, hholds⟩, by simp⟩
    cases act_step hmove with
    | sorts | skips =>
      obtain ⟨rfl, rfl⟩ := hpoint
      exact hgoto ⟨trivial, trivial⟩
    | forks hsize' =>
      obtain ⟨rfl, rfl⟩ := hpoint
      rw [probSize_of_le hle hsize] at hsize'
      rw [midpoint_of_le hle hsize]
      exact ⟨⟨rfl, rfl, .entry _ _, trivial, fun _ => hsize', by simp, rfl⟩, by simp⟩
    | forksRight =>
      rw [rightBegin_of_le hle hsize]
      exact ⟨⟨rfl, rfl, hleft, .entry _ _, fun _ => hlarge (.inl hpoint.1), trivial⟩, by simp⟩
    | leftFails _ _ hcode | rightFails _ _ hcode =>
      exact hgoto (holds_failed fun hzero => hcode (Status.exited.inj hzero))
    | leftExits hstatus => exact hgoto hstatus
    | rightExits hstatus =>
      rw [midpoint_of_le hle hsize]
      exact hgoto ⟨hleft.finished hpoint, hright.finished hstatus, le_refl _, le_refl _⟩
    | merged =>
      obtain ⟨hfl, hfr, -, -⟩ := hpoint
      exact hgoto ⟨hfl, hfr⟩
    | merges _ hround =>
      obtain ⟨hfl, hfr, hl, hr⟩ := hpoint
      obtain ⟨hl', hr'⟩ := mergeRound_le hround
      exact hgoto ⟨hfl, hfr, hl.trans hl', hr.trans hr'⟩
    | copies | copied => exact hgoto hpoint
    | exits => exact hgoto fun _ => hpoint

/-- A kid that can move is not one that the parent knows to have ended. -/
private theorem Point.Holds.left (h : point.Holds lo hi leftkid rightkid)
    (hdivided : Divided threshold lo (half lo hi) leftkid) (hrunning : ¬Finished leftkid)
    (hkid : kid' ≠ .absent) : point.Holds lo hi kid' rightkid := by
  cases point with
  | entry => exact absurd (h.1 ▸ trivial) hrunning
  | forked => exact ⟨hkid, h.2⟩
  | waiting => trivial
  | waitingRight => exact absurd (hdivided.finished h) hrunning
  | merging | copying | returned => exact absurd h.1 hrunning
  | ended status => exact fun hstatus => absurd (h hstatus).1 hrunning

private theorem Point.Holds.right (h : point.Holds lo hi leftkid rightkid)
    (hrunning : ¬Finished rightkid) : point.Holds lo hi leftkid kid' := by
  cases point with
  | entry | forked => exact absurd (h.2 ▸ trivial) hrunning
  | waiting => trivial
  | waitingRight => exact h
  | merging => exact absurd h.2.1 hrunning
  | copying | returned => exact absurd h.2 hrunning
  | ended status => exact fun hstatus => absurd (h hstatus).2 hrunning

/-- Every move of a tree divides the ranges in the same way. -/
theorem move_divided {action : Action} (path : List Bool) {kid : Bool} (hle : lo ≤ hi)
    (hsize : hi < 2 ^ 61) (h : Divided threshold lo hi p)
    (hmove : move qsort threshold action kid path arr p = some (arr', p')) :
    Divided threshold lo hi p' ∧ p' ≠ .absent := by
  induction path generalizing kid lo hi p p' with
  | nil =>
    by_cases hrun : action = .run
    · subst hrun
      exact act_divided hle hsize h hmove
    · cases p with
      | absent => cases action <;> cases hmove
      | node point lo' hi' leftkid rightkid =>
        obtain ⟨rfl, rfl, hleft, hright, hlarge, -⟩ := h
        obtain ⟨⟨status, hstatus, rfl⟩, -⟩ := fails_cases hrun hmove
        exact ⟨⟨rfl, rfl, hleft, hright, hlarge, holds_failed hstatus⟩, by simp⟩
  | cons side path ih =>
    cases p with
    | absent => cases hmove
    | node point lo' hi' leftkid rightkid =>
      obtain ⟨rfl, rfl, hleft, hright, hlarge, hpoint⟩ := h
      obtain ⟨hlow, hhigh⟩ := half_mem hle
      cases side with
      | true =>
        obtain ⟨⟨arr₁, left'⟩, hkid, heq⟩ := Option.map_eq_some_iff.mp hmove
        cases heq
        obtain ⟨hleft', hnode⟩ := ih hlow (hhigh.trans_lt hsize) hleft hkid
        refine ⟨⟨rfl, rfl, hleft', hright, fun _ => hlarge (.inl ?_),
          hpoint.left hleft (move_running hkid) hnode⟩, by simp⟩
        rintro rfl
        exact move_running hkid trivial
      | false =>
        obtain ⟨⟨arr₁, right'⟩, hkid, heq⟩ := Option.map_eq_some_iff.mp hmove
        cases heq
        obtain ⟨hright', -⟩ := ih hhigh hsize hright hkid
        refine ⟨⟨rfl, rfl, hleft, hright', fun _ => hlarge (.inr ?_),
          hpoint.right (move_running hkid)⟩, by simp⟩
        rintro rfl
        exact move_running hkid trivial

/-- Every run divides the ranges in the same way. -/
theorem runFailing_divided {schedule : List (Action × List Bool)} (hle : lo ≤ hi)
    (hsize : hi < 2 ^ 61) (h : Divided threshold lo hi p)
    (hrun : runFailing qsort threshold (arr, p) schedule = some (arr', p')) :
    Divided threshold lo hi p' := by
  induction schedule generalizing arr p with
  | nil =>
    cases hrun
    exact h
  | cons next schedule ih =>
    obtain ⟨action, path⟩ := next
    obtain ⟨⟨arr₁, p₁⟩, hmove, hrest⟩ := Option.bind_eq_some_iff.mp hrun
    exact ih (move_divided path hle hsize h hmove).1 hrest

end Division

section Ranges
variable {threshold : ℕ} {lo hi b e : ℕ} {p leftkid rightkid : Process} {point : Point}

/-- A call below another one has its bounds within those of the other. -/
theorem Divided.descendant (h : Divided threshold lo hi p) (hle : lo ≤ hi) {path : List Bool}
    (hpath : p.descendant path = .node point b e leftkid rightkid) :
    lo ≤ b ∧ b ≤ e ∧ e ≤ hi ∧ Divided threshold b e (.node point b e leftkid rightkid) := by
  induction path generalizing lo hi p with
  | nil =>
    rw [Process.descendant, List.foldl_nil] at hpath
    subst hpath
    obtain ⟨rfl, rfl, h⟩ := h
    exact ⟨le_refl _, hle, le_refl _, rfl, rfl, h⟩
  | cons side path ih =>
    cases p with
    | absent =>
      rw [Process.descendant_absent] at hpath
      cases hpath
    | node point' lo' hi' leftkid' rightkid' =>
      obtain ⟨rfl, rfl, hleft, hright, -⟩ := h
      obtain ⟨hlow, hhigh⟩ := half_mem hle
      rw [Process.descendant_cons] at hpath
      cases side with
      | true =>
        obtain ⟨hb, hbe, he, hdivided⟩ := ih hleft hlow hpath
        exact ⟨hb, hbe, he.trans hhigh, hdivided⟩
      | false =>
        obtain ⟨hb, hbe, he, hdivided⟩ := ih hright hhigh hpath
        exact ⟨hlow.trans hb, hbe, he, hdivided⟩

theorem Divided.range_subset (h : Divided threshold lo hi p) : p.range ⊆ Finset.Ico lo hi := by
  cases p with
  | absent => exact Finset.empty_subset _
  | node point lo' hi' leftkid rightkid =>
    obtain ⟨rfl, rfl, -⟩ := h
    exact Finset.Subset.refl _

/-- The ranges of the kids are disjoint parts of the range of their parent. -/
theorem Divided.subdivision (h : Divided threshold lo hi p) (hle : lo ≤ hi) :
    Subdivision fun path => (p.descendant path).range := by
  have hkids (path : List Bool) : ((p.descendant path).kid true).range ⊆ (p.descendant path).range ∧
      ((p.descendant path).kid false).range ⊆ (p.descendant path).range ∧
      Disjoint ((p.descendant path).kid true).range ((p.descendant path).kid false).range := by
    cases hpath : p.descendant path with
    | absent => exact ⟨Finset.empty_subset _, Finset.empty_subset _, Finset.disjoint_empty_left _⟩
    | node point b e leftkid rightkid =>
      obtain ⟨-, hbe, -, -, -, hleft, hright, -⟩ := h.descendant hle hpath
      obtain ⟨hlow, hhigh⟩ := half_mem hbe
      refine ⟨hleft.range_subset.trans (Finset.Ico_subset_Ico_right hhigh),
        hright.range_subset.trans (Finset.Ico_subset_Ico_left hlow), ?_⟩
      exact (Finset.Ico_disjoint_Ico_consecutive b (half b e) e).mono hleft.range_subset
        hright.range_subset
  refine ⟨fun path side => ?_, fun path {side side'} hne => ?_⟩
  · rw [Process.descendant_append]
    cases side with
    | true => exact (hkids path).1
    | false => exact (hkids path).2.1
  · rw [Process.descendant_append, Process.descendant_append]
    cases side with
    | true =>
      obtain rfl : side' = false := by simpa using hne.symm
      exact (hkids path).2.2
    | false =>
      obtain rfl : side' = true := by simpa using hne.symm
      exact (hkids path).2.2.symm

/-- The next move of a call reads and writes inside its range. -/
theorem Divided.accesses_subset (h : Divided threshold lo hi p) (hle : lo ≤ hi)
    (hsize : hi < 2 ^ 61) : accesses threshold p ⊆ Finset.Ico lo hi := by
  cases p with
  | absent => exact Finset.empty_subset _
  | node point lo' hi' leftkid rightkid =>
    obtain ⟨rfl, rfl, -, -, -, hpoint⟩ := h
    intro i hi
    cases point with
    | entry =>
      simp only [accesses, probSize_of_le hle hsize, Nat.add_sub_cancel' hle] at hi
      split_ifs at hi
      · exact hi
      · exact absurd hi (Finset.notMem_empty i)
    | merging left right temp =>
      obtain ⟨-, -, hl, hr⟩ := hpoint
      obtain ⟨hlow, hhigh⟩ := half_mem hle
      rw [accesses, midpoint_of_le hle hsize, Finset.mem_union] at hi
      rw [Finset.mem_Ico]
      rcases hi with hi | hi
      · split_ifs at hi with hend
        · exact absurd hi (Finset.notMem_empty i)
        · obtain rfl := Finset.mem_singleton.mp hi
          omega
      · split_ifs at hi with hend
        · exact absurd hi (Finset.notMem_empty i)
        · obtain rfl := Finset.mem_singleton.mp hi
          omega
    | copying temp j =>
      rw [accesses, probSize_of_le hle hsize] at hi
      rw [Finset.mem_Ico]
      split_ifs at hi with hlt
      · obtain rfl := Finset.mem_singleton.mp hi
        omega
      · exact absurd hi (Finset.notMem_empty i)
    | _ => exact absurd hi (Finset.notMem_empty i)

/-- A call that reads or writes has no kid that is running. -/
theorem Divided.accesses_eq_empty (h : Divided threshold lo hi p) (side : Bool) :
    accesses threshold p = ∅ ∨ Finished (p.kid side) := by
  cases p with
  | absent => exact .inl rfl
  | node point lo' hi' leftkid rightkid =>
    obtain ⟨-, -, -, -, -, hpoint⟩ := h
    cases point with
    | entry =>
      obtain ⟨rfl, rfl⟩ := hpoint
      cases side <;> exact .inr trivial
    | merging left right temp =>
      cases side with
      | true => exact .inr hpoint.1
      | false => exact .inr hpoint.2.1
    | copying temp i =>
      cases side with
      | true => exact .inr hpoint.1
      | false => exact .inr hpoint.2
    | _ => exact .inl rfl

theorem Finished.descendant (h : Finished p) (path : List Bool) : Finished (p.descendant path) := by
  induction path generalizing p with
  | nil => exact h
  | cons side path ih =>
    rw [Process.descendant_cons]
    refine ih ?_
    cases p with
    | absent => trivial
    | node point lo hi leftkid rightkid =>
      cases point with
      | ended status =>
        cases side with
        | true => exact h.1
        | false => exact h.2
      | _ => exact h.elim

theorem Finished.accesses (h : Finished p) : accesses threshold p = ∅ := by
  cases p with
  | absent => rfl
  | node point lo hi leftkid rightkid =>
    cases point with
    | ended status => rfl
    | _ => exact h.elim

/-- A process below another one does not read or write while the other does. -/
private theorem Divided.disjoint_below (h : Divided threshold lo hi p) (hle : lo ≤ hi)
    (path : List Bool) (side : Bool) (rest : List Bool) :
    Disjoint (accesses threshold (p.descendant path))
      (accesses threshold (p.descendant (path ++ side :: rest))) := by
  have hbelow : p.descendant (path ++ side :: rest) =
      ((p.descendant path).kid side).descendant rest := by
    rw [Process.descendant, List.foldl_append]
    rfl
  have hquiet : accesses threshold (p.descendant path) = ∅ ∨
      Finished ((p.descendant path).kid side) := by
    cases hpath : p.descendant path with
    | absent => exact .inl rfl
    | node point b e leftkid rightkid =>
      obtain ⟨-, -, -, hdivided⟩ := h.descendant hle hpath
      exact hdivided.accesses_eq_empty side
  rcases hquiet with hquiet | hquiet
  · rw [hquiet]
    exact Finset.disjoint_empty_left _
  · rw [hbelow, (hquiet.descendant rest).accesses]
    exact Finset.disjoint_empty_right _

/-- No two processes read or write the same element. -/
theorem Divided.disjoint_accesses (h : Divided threshold lo hi p) (hle : lo ≤ hi)
    (hsize : hi < 2 ^ 61) {path path' : List Bool} (hne : path ≠ path') :
    Disjoint (accesses threshold (p.descendant path))
      (accesses threshold (p.descendant path')) := by
  have hrange (path : List Bool) :
      accesses threshold (p.descendant path) ⊆ (p.descendant path).range := by
    cases hpath : p.descendant path with
    | absent => exact Finset.empty_subset _
    | node point b e leftkid rightkid =>
      obtain ⟨-, hbe, he, hdivided⟩ := h.descendant hle hpath
      exact hdivided.accesses_subset hbe (he.trans_lt hsize)
  by_cases hprefix : path <+: path'
  · obtain ⟨rest, rfl⟩ := hprefix
    cases rest with
    | nil => exact absurd (List.append_nil path).symm hne
    | cons side rest => exact h.disjoint_below hle path side rest
  · by_cases hprefix' : path' <+: path
    · obtain ⟨rest, rfl⟩ := hprefix'
      cases rest with
      | nil => exact absurd (List.append_nil path') hne
      | cons side rest => exact (h.disjoint_below hle path' side rest).symm
    · exact ((h.subdivision hle).disjoint_of_parting hprefix hprefix').mono (hrange path)
        (hrange path')

/-- The kids of a call split its range where `merge` does. -/
structure Splits (lo hi : ℕ) (leftkid rightkid : Process) : Prop where
  mid_eq : midpoint lo hi = rightBegin lo hi
  union_eq : Finset.Ico lo (midpoint lo hi) ∪ Finset.Ico (midpoint lo hi) hi = Finset.Ico lo hi
  left_bounds : ∀ bounds ∈ leftkid.bounds?, bounds = (lo, midpoint lo hi)
  right_bounds : ∀ bounds ∈ rightkid.bounds?, bounds = (midpoint lo hi, hi)
  left_smaller : leftkid ≠ .absent → leftkid.range ⊂ Finset.Ico lo hi
  right_smaller : rightkid ≠ .absent → rightkid.range ⊂ Finset.Ico lo hi

theorem Divided.bounds (h : Divided threshold lo hi p) : ∀ bounds ∈ p.bounds?, bounds = (lo, hi) := by
  cases p with
  | absent => exact fun _ h => by cases h
  | node point lo' hi' leftkid rightkid =>
    obtain ⟨rfl, rfl, -⟩ := h
    exact fun _ h => (Option.some.inj h).symm

theorem Divided.splits (hthreshold : 1 ≤ threshold) (hle : lo ≤ hi) (hsize : hi < 2 ^ 61)
    (h : Divided threshold lo hi (.node point lo hi leftkid rightkid)) :
    Splits lo hi leftkid rightkid := by
  obtain ⟨-, -, hleft, hright, hlarge, -⟩ := h
  obtain ⟨hlow, hhigh⟩ := half_mem hle
  have hmid : midpoint lo hi = half lo hi := midpoint_of_le hle hsize
  refine ⟨hmid.trans (rightBegin_of_le hle hsize).symm, ?_, hmid ▸ hleft.bounds,
    hmid ▸ hright.bounds, fun hkid => ?_, fun hkid => ?_⟩
  · rw [hmid, Finset.Ico_union_Ico_eq_Ico hlow hhigh]
  · have hsize' := hlarge (.inl hkid)
    have hlt : half lo hi < hi := by rw [half]; omega
    refine Finset.ssubset_of_subset_of_ssubset hleft.range_subset ?_
    refine (Finset.ssubset_iff_of_subset (Finset.Ico_subset_Ico_right hhigh)).mpr
      ⟨half lo hi, Finset.mem_Ico.mpr ⟨hlow, hlt⟩, ?_⟩
    exact fun h => lt_irrefl _ (Finset.mem_Ico.mp h).2
  · have hsize' := hlarge (.inr hkid)
    have hlt : lo < half lo hi := by rw [half]; omega
    refine Finset.ssubset_of_subset_of_ssubset hright.range_subset ?_
    refine (Finset.ssubset_iff_of_subset (Finset.Ico_subset_Ico_left hlow)).mpr
      ⟨lo, Finset.mem_Ico.mpr ⟨le_refl _, hlt.trans_le hhigh⟩, ?_⟩
    exact fun h => absurd (Finset.mem_Ico.mp h).1 (not_le.mpr hlt)

end Ranges

/-- Two calls neither of which is above the other may move in either order. -/
theorem Divided.move_comm {qsort : (Int64 → Int64 → ℤ) → List Int64 → List Int64}
    {threshold lo hi : ℕ} {p p₁ p₂ : Process} (hqsort : SortsRange qsort)
    (h : Divided threshold lo hi p) (hle : lo ≤ hi) (hsize : hi < 2 ^ 61)
    {arr arr₁ arr₂ : List Int64} (hhi : hi ≤ arr.length) {path path' : List Bool}
    (hpath : ¬path <+: path') (hpath' : ¬path' <+: path) {action action' : Action} {kid : Bool}
    (hfirst : move qsort threshold action kid path arr p = some (arr₁, p₁))
    (hsecond : move qsort threshold action' kid path' arr₁ p₁ = some (arr₂, p₂)) :
    ∃ arr₁' p₁', move qsort threshold action' kid path' arr p = some (arr₁', p₁') ∧
      move qsort threshold action kid path arr₁' p₁' = some (arr₂, p₂) := by
  have hfootprint (path : List Bool) (action : Action) (kid : Bool) :
      Footprint arr.length (accesses threshold (p.descendant path))
        fun arr => move qsort threshold action kid [] arr (p.descendant path) := by
    cases hnode : p.descendant path with
    | absent => cases action <;> exact .const none
    | node point b e leftkid rightkid =>
      obtain ⟨-, hbe, he, -⟩ := h.descendant hle hnode
      exact move_footprint hqsort point hbe (he.trans_lt hsize) (he.trans hhi) action
  have hne : path ≠ path' := fun heq => hpath (heq ▸ List.prefix_refl path)
  rw [move_eq_descendant] at hfirst hsecond
  obtain ⟨⟨arr₁', q⟩, hq, heq⟩ := Option.map_eq_some_iff.mp hfirst
  cases heq
  rw [Process.descendant_replace hpath hpath'] at hsecond
  obtain ⟨⟨arr₂', q'⟩, hq', heq⟩ := Option.map_eq_some_iff.mp hsecond
  cases heq
  obtain ⟨arr₁', hswap, hswap'⟩ := (hfootprint path action _).comm (hfootprint path' action' _)
    (h.disjoint_accesses hle hsize hne) rfl hq hq'
  refine ⟨arr₁', q'.replace path' p, ?_, ?_⟩
  · rw [move_eq_descendant, hswap]
    rfl
  · rw [move_eq_descendant, Process.descendant_replace hpath' hpath, hswap', Option.map_some,
      Process.replace_replace hpath hpath']

/-- Concurrent processes never touch the same element, whatever a run does and whatever fails in
it: no two processes read or write one element. Calls neither of which is above the other work on
disjoint ranges, the kids of a call split its range at the `mid` of its merge, and a call reads
and writes in its own range only. -/
theorem concurrent_calls_disjoint {qsort : (Int64 → Int64 → ℤ) → List Int64 → List Int64}
    {threshold lo hi : ℕ} (hqsort : SortsRange qsort) (hthreshold : 1 ≤ threshold) (hle : lo ≤ hi)
    (hsize : hi < 2 ^ 61) {arr arr' : List Int64} {p : Process}
    {schedule : List (Action × List Bool)}
    (hrun : runFailing qsort threshold (mergeSort arr lo hi) schedule = some (arr', p)) :
    (∀ path path', path ≠ path' → Disjoint (accesses threshold (p.descendant path))
      (accesses threshold (p.descendant path'))) ∧
    (∀ path path', ¬path <+: path' → ¬path' <+: path →
      Disjoint (p.descendant path).range (p.descendant path').range) ∧
    ∀ path point b e leftkid rightkid, p.descendant path = .node point b e leftkid rightkid →
      Splits b e leftkid rightkid ∧
      accesses threshold (p.descendant path) ⊆ Finset.Ico b e ∧
      ∀ action kid n, hi ≤ n → Footprint n (accesses threshold (p.descendant path))
        fun arr => move qsort threshold action kid [] arr (p.descendant path) := by
  have h : Divided threshold lo hi p := runFailing_divided hle hsize (.entry lo hi) hrun
  refine ⟨fun path path' hne => h.disjoint_accesses hle hsize hne,
    fun path path' hprefix hprefix' => (h.subdivision hle).disjoint_of_parting hprefix hprefix',
    fun path point b e leftkid rightkid hpath => ?_⟩
  obtain ⟨-, hbe, he, hdivided⟩ := h.descendant hle hpath
  have hsize' : e < 2 ^ 61 := he.trans_lt hsize
  rw [hpath]
  exact ⟨hdivided.splits hthreshold hbe hsize', hdivided.accesses_subset hbe hsize',
    fun action kid n hn => move_footprint hqsort point hbe hsize' (he.trans hn) action⟩

/-- Two kids that are about to sort their halves, and their parent. -/
theorem concurrent_calls_disjoint_two :
    Disjoint (accesses 1 (.node .entry 0 1 .absent .absent))
      (accesses 1 (.node .entry 1 2 .absent .absent)) ∧
    Splits 0 2 (.node .entry 0 1 .absent .absent) (.node .entry 1 2 .absent .absent) := by
  have hrun : runFailing sortBy 1 (mergeSort [2, 1] 0 2) [(.run, []), (.run, [])] =
      some ([2, 1], .node .waiting 0 2 (.node .entry 0 1 .absent .absent)
        (.node .entry 1 2 .absent .absent)) := by decide +kernel
  obtain ⟨haccesses, -, hcalls⟩ :=
    concurrent_calls_disjoint sortsRange_sortBy (le_refl 1) (by decide) (by decide) hrun
  exact ⟨haccesses [true] [false] (by decide), (hcalls [] _ _ _ _ _ rfl).1⟩

end CsfAssignments.Parsort
