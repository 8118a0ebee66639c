import CsfAssignments.ParsortCorrectness

/-!
# Failures in the process tree are never swallowed

A system call may fail and a signal may end any process at any point. A process that fails
exits with a code other than zero, its parent then exits likewise, and its own kids may go on
as orphans, but only inside their ranges. So a call that returns has no failed process below it.
-/

namespace CsfAssignments.Parsort
open CIntegers ListSegments

/-- The calls of a tree work on the halves of the ranges of their parents. -/
def Shaped : ℕ → ℕ → Process → Prop
  | _, _, .absent => True
  | lo, hi, .node _ lo' hi' left right =>
      lo' = lo ∧ hi' = hi ∧ Shaped lo (half lo hi) left ∧ Shaped (half lo hi) hi right

/-- What any move of a tree respects, also of an orphan. -/
structure Confined (arr arr' : List Int64) (lo hi : ℕ) (p' : Process) : Prop where
  shaped : Shaped lo hi p'
  length_eq : arr'.length = arr.length
  outside : ∀ i, i < lo ∨ hi ≤ i → arr'[i]? = arr[i]?

/-- The invariant of a call some of whose processes may have failed. A process that exited
with code zero has sorted its range and left no process behind. -/
def Sound (threshold : ℕ) (arr : List Int64) : List Int64 → ℕ → ℕ → Process → Prop
  | _, _, _, .absent => False
  | orig, lo, hi, .node point lo' hi' left right =>
      match point with
      | .forked => lo' = lo ∧ hi' = hi ∧ threshold < hi - lo ∧ right = .absent ∧
          ∃ leftOrig, Sound threshold arr leftOrig lo (half lo hi) left ∧
            leftOrig ++ segment arr (half lo hi) hi = orig
      | .waiting => lo' = lo ∧ hi' = hi ∧ threshold < hi - lo ∧
          ∃ leftOrig rightOrig, Sound threshold arr leftOrig lo (half lo hi) left ∧
            Sound threshold arr rightOrig (half lo hi) hi right ∧ leftOrig ++ rightOrig = orig
      | .waitingRight => lo' = lo ∧ hi' = hi ∧ threshold < hi - lo ∧
          left.status? = some (.exited 0) ∧
          ∃ leftOrig rightOrig, Sound threshold arr leftOrig lo (half lo hi) left ∧
            Sound threshold arr rightOrig (half lo hi) hi right ∧ leftOrig ++ rightOrig = orig
      | .ended status => lo' = lo ∧ hi' = hi ∧ (status = .exited 0 →
          Inv threshold arr orig lo hi (.node (.ended status) lo hi left right))
      | point => Inv threshold arr orig lo hi (.node point lo' hi' left right)

section Confinement

variable {qsort : (Int64 → Int64 → ℤ) → List Int64 → List Int64} {threshold : ℕ}
  {arr arr' : List Int64} {lo hi : ℕ} {p p' : Process}

private theorem confined_refl (h : Shaped lo hi p) : Confined arr arr lo hi p :=
  ⟨h, rfl, fun _ _ => rfl⟩

private theorem confined_overwrite {new : List Int64} (hfits : Fits arr lo hi)
    (hnew : new.length = hi - lo) (h : Shaped lo hi p) :
    Confined arr (overwrite arr lo new) lo hi p := by
  have hle := hfits.lo_le
  have hhi := hfits.hi_le
  have hbound : lo + new.length ≤ arr.length := by omega
  exact ⟨h, length_overwrite hbound,
    fun i hi' => getElem?_overwrite_of_outside hbound (by omega)⟩

private theorem act_confined (hqsort : SortsRange qsort) (hfits : Fits arr lo hi) {kid : Bool}
    (h : Shaped lo hi p) (hmove : act qsort threshold kid arr p = some (arr', p')) :
    Confined arr arr' lo hi p' := by
  cases p with
  | absent => cases hmove
  | node point lo' hi' left right =>
    obtain ⟨rfl, rfl, hleft, hright⟩ := h
    have hgoto : ∀ point, Shaped lo' hi' (.node point lo' hi' left right) :=
      fun _ => ⟨rfl, rfl, hleft, hright⟩
    cases act_step hmove with
    | sorts hsmall hroom =>
      refine confined_overwrite hfits ?_ (hgoto _)
      rw [(hqsort _).1.length_eq, length_segment hroom, hfits.probSize_eq]
      omega
    | forks =>
      refine confined_refl ⟨rfl, rfl, ?_, hright⟩
      rw [hfits.midpoint_eq]
      exact ⟨rfl, rfl, trivial, trivial⟩
    | forksRight =>
      refine confined_refl ⟨rfl, rfl, hleft, ?_⟩
      rw [hfits.rightBegin_eq]
      exact ⟨rfl, rfl, trivial, trivial⟩
    | copies hlt =>
      rw [hfits.probSize_eq] at hlt
      exact ⟨hgoto _, List.length_set, fun j hj => List.getElem?_set_ne (by omega)⟩
    | skips | leftFails | leftExits | rightFails | rightExits | merged | merges | copied | exits =>
      exact confined_refl (hgoto _)

/-- A process that fails or is killed ends without a code of zero. Inside `qsort` it leaves the
range in any state. -/
theorem fails_cases {action : Action} (hrun : action ≠ .run) {kid : Bool} {point : Point}
    {left right : Process}
    (hmove : move qsort threshold action kid [] arr (.node point lo hi left right) =
      some (arr', p')) :
    (∃ status, status ≠ .exited 0 ∧ p' = .node (.ended status) lo hi left right) ∧
      (arr' = arr ∨ ∃ torn, torn.length = probSize lo hi ∧ arr' = overwrite arr lo torn) := by
  have hstays : ∀ {status : Status}, status ≠ .exited 0 →
      some (arr, Process.node (.ended status) lo hi left right) = some (arr', p') →
      (∃ status, status ≠ .exited 0 ∧ p' = .node (.ended status) lo hi left right) ∧
        (arr' = arr ∨ ∃ torn, torn.length = probSize lo hi ∧ arr' = overwrite arr lo torn) := by
    intro status hstatus heq
    cases heq
    exact ⟨⟨status, hstatus, rfl⟩, .inl rfl⟩
  cases action with
  | run => exact absurd rfl hrun
  | syscallFails =>
    cases point with
    | entry =>
      simp only [move, actFailing] at hmove
      split_ifs at hmove
      exact hstays (by decide) hmove
    | forked | waiting | waitingRight => exact hstays (by decide) hmove
    | _ => cases hmove
  | kill torn =>
    cases point with
    | entry =>
      simp only [move, actKilled] at hmove
      split_ifs at hmove with htorn
      · cases hmove
        exact ⟨⟨.signaled, by decide, rfl⟩, .inr ⟨torn, htorn.2, rfl⟩⟩
      · exact hstays (by decide) hmove
    | ended status => cases hmove
    | _ => exact hstays (by decide) hmove

private theorem fails_confined (hfits : Fits arr lo hi) {action : Action} (hrun : action ≠ .run)
    {kid : Bool} (h : Shaped lo hi p)
    (hmove : move qsort threshold action kid [] arr p = some (arr', p')) :
    Confined arr arr' lo hi p' ∧ ∃ status left right,
      p' = .node (.ended status) lo hi left right ∧ status ≠ .exited 0 := by
  cases p with
  | absent => cases action <;> cases hmove
  | node point lo' hi' left right =>
    obtain ⟨rfl, rfl, hkids⟩ := h
    obtain ⟨⟨status, hstatus, rfl⟩, harr⟩ := fails_cases hrun hmove
    refine ⟨?_, status, left, right, rfl, hstatus⟩
    rcases harr with rfl | ⟨torn, htorn, rfl⟩
    · exact confined_refl ⟨rfl, rfl, hkids⟩
    · exact confined_overwrite hfits (hfits.probSize_eq ▸ htorn) ⟨rfl, rfl, hkids⟩

/-- Every move of a tree stays inside the range of its root. -/
private theorem move_confined (hqsort : SortsRange qsort) {action : Action} (path : List Bool)
    {kid : Bool} (hfits : Fits arr lo hi) (h : Shaped lo hi p)
    (hmove : move qsort threshold action kid path arr p = some (arr', p')) :
    Confined arr arr' lo hi p' := by
  induction path generalizing kid lo hi p p' with
  | nil =>
    by_cases hrun : action = .run
    · subst hrun
      exact act_confined hqsort hfits h hmove
    · exact (fails_confined hfits hrun h hmove).1
  | cons side path ih =>
    cases p with
    | absent => cases hmove
    | node point lo' hi' left right =>
      obtain ⟨rfl, rfl, hleft, hright⟩ := h
      have hle := hfits.lo_le
      have hhalf : lo' ≤ half lo' hi' ∧ half lo' hi' ≤ hi' := half_mem hle
      cases side with
      | true =>
        obtain ⟨⟨arr₁, left'⟩, hkid, heq⟩ := Option.map_eq_some_iff.mp hmove
        cases heq
        obtain ⟨hshape, hlen, hout⟩ := ih hfits.left hleft hkid
        exact ⟨⟨rfl, rfl, hshape, hright⟩, hlen, fun i hi => hout i (by omega)⟩
      | false =>
        obtain ⟨⟨arr₁, right'⟩, hkid, heq⟩ := Option.map_eq_some_iff.mp hmove
        cases heq
        obtain ⟨hshape, hlen, hout⟩ := ih hfits.right hright hkid
        exact ⟨⟨rfl, rfl, hleft, hshape⟩, hlen, fun i hi => hout i (by omega)⟩

end Confinement

section Soundness

variable {qsort : (Int64 → Int64 → ℤ) → List Int64 → List Int64} {threshold : ℕ}

private theorem Inv.sound {p : Process} : ∀ {arr orig : List Int64} {lo hi : ℕ},
    Inv threshold arr orig lo hi p → Sound threshold arr orig lo hi p := by
  induction p with
  | absent => exact fun h => h
  | node point lo' hi' left right ihleft ihright =>
    intro arr orig lo hi h
    obtain ⟨rfl, rfl, hpoint⟩ := id h
    cases point with
    | forked =>
      obtain ⟨hsize, hr, leftOrig, hl, horig⟩ := hpoint
      exact ⟨rfl, rfl, hsize, hr, leftOrig, ihleft hl, horig⟩
    | waiting =>
      obtain ⟨hsize, leftOrig, rightOrig, hl, hr, horig⟩ := hpoint
      exact ⟨rfl, rfl, hsize, leftOrig, rightOrig, ihleft hl, ihright hr, horig⟩
    | waitingRight =>
      obtain ⟨hsize, hstatus, leftOrig, rightOrig, hl, hr, horig⟩ := hpoint
      exact ⟨rfl, rfl, hsize, hstatus, leftOrig, rightOrig, ihleft hl, ihright hr, horig⟩
    | ended status => exact ⟨rfl, rfl, fun _ => h⟩
    | entry | merging | copying | returned => exact h

/-- The invariant of a call is about its range alone. -/
private theorem Sound.congr {p : Process} : ∀ {arr arr' orig : List Int64} {lo hi : ℕ}, lo ≤ hi →
    (∀ i, lo ≤ i → i < hi → arr'[i]? = arr[i]?) → Sound threshold arr orig lo hi p →
    Sound threshold arr' orig lo hi p := by
  induction p with
  | absent => exact fun _ _ h => h
  | node point lo' hi' left right ihleft ihright =>
    intro arr arr' orig lo hi hle hagree h
    obtain ⟨hlow, hhigh⟩ := half_mem hle
    have hleft : ∀ {orig}, Sound threshold arr orig lo (half lo hi) left →
        Sound threshold arr' orig lo (half lo hi) left :=
      ihleft hlow fun i h h' => hagree i h (h'.trans_le hhigh)
    have hright : ∀ {orig}, Sound threshold arr orig (half lo hi) hi right →
        Sound threshold arr' orig (half lo hi) hi right :=
      ihright hhigh fun i h h' => hagree i (hlow.trans h) h'
    cases point with
    | forked =>
      obtain ⟨hlo, hhi, hsize, hr, leftOrig, hl, horig⟩ := h
      have hseg : segment arr' (half lo hi) hi = segment arr (half lo hi) hi :=
        segment_congr fun i h h' => hagree i (hlow.trans h) h'
      exact ⟨hlo, hhi, hsize, hr, leftOrig, hleft hl, hseg ▸ horig⟩
    | waiting =>
      obtain ⟨hlo, hhi, hsize, leftOrig, rightOrig, hl, hr, horig⟩ := h
      exact ⟨hlo, hhi, hsize, leftOrig, rightOrig, hleft hl, hright hr, horig⟩
    | waitingRight =>
      obtain ⟨hlo, hhi, hsize, hstatus, leftOrig, rightOrig, hl, hr, horig⟩ := h
      exact ⟨hlo, hhi, hsize, hstatus, leftOrig, rightOrig, hleft hl, hright hr, horig⟩
    | ended status =>
      obtain ⟨hlo, hhi, hzero⟩ := h
      exact ⟨hlo, hhi, fun hstatus => (hzero hstatus).congr hle hagree⟩
    | entry | merging | copying | returned => exact Inv.congr hle hagree h

/-- What an exit code of zero tells the parent. -/
theorem Sound.of_status {arr orig : List Int64} {lo hi : ℕ} {p : Process}
    (h : Sound threshold arr orig lo hi p) (hstatus : p.status? = some (.exited 0)) :
    Finished p ∧ segment arr lo hi = sorted orig := by
  cases p with
  | absent => exact h.elim
  | node point lo' hi' left right =>
    cases point with
    | ended status =>
      obtain ⟨rfl, rfl, hzero⟩ := h
      exact ((hzero (Option.some.inj hstatus)).of_status hstatus).2
    | _ => simp [Process.status?] at hstatus

/-- A process that ended in another way promises nothing. -/
private theorem sound_failed {arr orig : List Int64} {lo hi : ℕ} {status : Status}
    {left right : Process} (hstatus : status ≠ .exited 0) :
    Sound threshold arr orig lo hi (.node (.ended status) lo hi left right) :=
  ⟨rfl, rfl, fun h => absurd h hstatus⟩

/-- A move of a process whose kids may have failed: it goes on only after codes of zero. -/
private theorem act_sound (hqsort : SortsRange qsort) (hthreshold : 1 ≤ threshold)
    {arr arr' orig : List Int64} {lo hi : ℕ} {p p' : Process} {kid : Bool} (hfits : Fits arr lo hi)
    (h : Sound threshold arr orig lo hi p) (hmove : act qsort threshold kid arr p = some (arr', p')) :
    Sound threshold arr' orig lo hi p' := by
  cases p with
  | absent => exact h.elim
  | node point lo' hi' left right =>
    cases act_step hmove with
    | forksRight =>
      obtain ⟨rfl, rfl, hsize, rfl, leftOrig, hl, horig⟩ := h
      refine ⟨rfl, rfl, hsize, leftOrig, _, hl, ?_, horig⟩
      rw [hfits.rightBegin_eq]
      exact ⟨rfl, rfl, rfl, rfl, rfl⟩
    | leftFails _ _ hcode | rightFails _ _ hcode =>
      obtain ⟨rfl, rfl, -⟩ := h
      exact sound_failed fun hzero => hcode (Status.exited.inj hzero)
    | leftExits hstatus =>
      obtain ⟨rfl, rfl, hsize, leftOrig, rightOrig, hl, hr, horig⟩ := h
      exact ⟨rfl, rfl, hsize, hstatus, leftOrig, rightOrig, hl, hr, horig⟩
    | rightExits hstatus =>
      obtain ⟨rfl, rfl, hsize, hstatusLeft, leftOrig, rightOrig, hl, hr, horig⟩ := h
      obtain ⟨hlow, hhigh⟩ := half_mem hfits.lo_le
      obtain ⟨hfl, hsortedLeft⟩ := hl.of_status hstatusLeft
      obtain ⟨hfr, hsortedRight⟩ := hr.of_status hstatus
      rw [hfits.midpoint_eq]
      refine ⟨rfl, rfl, hfl, hfr, le_refl _, hlow, le_refl _, hhigh, by simp, ?_⟩
      rw [List.nil_append, hsortedLeft, hsortedRight, merge_sorted, horig]
    | sorts | forks | skips | merged | merges | copies | copied | exits =>
      exact (act_advances hqsort hthreshold hfits h hmove).inv.sound

/-- Every move of a tree keeps the invariant: a kid moves inside its half, and an orphan only
below a process that failed. -/
private theorem move_sound (hqsort : SortsRange qsort) (hthreshold : 1 ≤ threshold)
    {action : Action} (path : List Bool) {kid : Bool} {arr arr' orig : List Int64} {lo hi : ℕ}
    {p p' : Process} (hfits : Fits arr lo hi) (hshape : Shaped lo hi p)
    (h : Sound threshold arr orig lo hi p)
    (hmove : move qsort threshold action kid path arr p = some (arr', p')) :
    Sound threshold arr' orig lo hi p' := by
  induction path generalizing kid orig lo hi p p' with
  | nil =>
    by_cases hrun : action = .run
    · subst hrun
      exact act_sound hqsort hthreshold hfits h hmove
    · obtain ⟨-, status, left, right, rfl, hstatus⟩ := fails_confined hfits hrun hshape hmove
      exact sound_failed hstatus
  | cons side path ih =>
    cases p with
    | absent => exact h.elim
    | node point lo' hi' left right =>
      obtain ⟨rfl, rfl, hshapeLeft, hshapeRight⟩ := hshape
      have hle := hfits.lo_le
      have hhalf : lo' ≤ half lo' hi' ∧ half lo' hi' ≤ hi' := half_mem hle
      cases side with
      | true =>
        obtain ⟨⟨arr₁, left'⟩, hkid, heq⟩ := Option.map_eq_some_iff.mp hmove
        cases heq
        have hrunning := move_running hkid
        have hout := (move_confined hqsort path hfits.left hshapeLeft hkid).outside
        cases point with
        | entry => exact absurd (h.2.2.1 ▸ trivial) hrunning
        | forked =>
          obtain ⟨-, -, hsize, hr, leftOrig, hl, horig⟩ := h
          have hseg : segment arr' (half lo' hi') hi' = segment arr (half lo' hi') hi' :=
            segment_congr fun i hi _ => hout i (.inr hi)
          exact ⟨rfl, rfl, hsize, hr, leftOrig, ih hfits.left hshapeLeft hl hkid, hseg ▸ horig⟩
        | waiting =>
          obtain ⟨-, -, hsize, leftOrig, rightOrig, hl, hr, horig⟩ := h
          have hr' := hr.congr hhalf.2 fun i hi _ => hout i (.inr hi)
          exact ⟨rfl, rfl, hsize, leftOrig, rightOrig, ih hfits.left hshapeLeft hl hkid, hr', horig⟩
        | waitingRight =>
          obtain ⟨-, -, -, hstatus, leftOrig, -, hl, -, -⟩ := h
          exact absurd (hl.of_status hstatus).1 hrunning
        | ended status =>
          obtain ⟨-, -, hzero⟩ := h
          exact sound_failed fun hstatus => hrunning (hzero hstatus).2.2.1
        | merging | copying | returned => exact absurd h.2.2.1 hrunning
      | false =>
        obtain ⟨⟨arr₁, right'⟩, hkid, heq⟩ := Option.map_eq_some_iff.mp hmove
        cases heq
        have hrunning := move_running hkid
        have hout := (move_confined hqsort path hfits.right hshapeRight hkid).outside
        cases point with
        | entry | forked => exact absurd (h.2.2.2.1 ▸ trivial) hrunning
        | waiting =>
          obtain ⟨-, -, hsize, leftOrig, rightOrig, hl, hr, horig⟩ := h
          have hl' := hl.congr hhalf.1 fun i _ hi => hout i (.inl hi)
          exact ⟨rfl, rfl, hsize, leftOrig, rightOrig, hl', ih hfits.right hshapeRight hr hkid, horig⟩
        | waitingRight =>
          obtain ⟨-, -, hsize, hstatus, leftOrig, rightOrig, hl, hr, horig⟩ := h
          have hl' := hl.congr hhalf.1 fun i _ hi => hout i (.inl hi)
          exact ⟨rfl, rfl, hsize, hstatus, leftOrig, rightOrig, hl',
            ih hfits.right hshapeRight hr hkid, horig⟩
        | ended status =>
          obtain ⟨-, -, hzero⟩ := h
          exact sound_failed fun hstatus => hrunning (hzero hstatus).2.2.2.1
        | merging | copying | returned => exact absurd h.2.2.2.1 hrunning

end Soundness

section Runs

variable {qsort : (Int64 → Int64 → ℤ) → List Int64 → List Int64} {threshold : ℕ}

variable (qsort threshold) in
/-- The state after a schedule in which system calls may fail and signals may arrive. -/
def runFailing (s : State) : List (Action × List Bool) → Option State
  | [] => some s
  | (action, path) :: schedule =>
      (move qsort threshold action false path s.1 s.2).bind (runFailing · schedule)

theorem runFailing_sound (hqsort : SortsRange qsort) (hthreshold : 1 ≤ threshold)
    {schedule : List (Action × List Bool)} {arr arr' orig : List Int64} {lo hi : ℕ}
    {p p' : Process} (hfits : Fits arr lo hi) (hshape : Shaped lo hi p)
    (h : Sound threshold arr orig lo hi p)
    (hrun : runFailing qsort threshold (arr, p) schedule = some (arr', p')) :
    Sound threshold arr' orig lo hi p' ∧ arr'.length = arr.length := by
  induction schedule generalizing arr p with
  | nil =>
    cases hrun
    exact ⟨h, rfl⟩
  | cons next schedule ih =>
    obtain ⟨action, path⟩ := next
    obtain ⟨⟨arr₁, p₁⟩, hmove, hrest⟩ := Option.bind_eq_some_iff.mp hrun
    obtain ⟨hshape₁, hlen, -⟩ := move_confined hqsort path hfits hshape hmove
    obtain ⟨hsound, hlen'⟩ := ih (hfits.of_length hlen) hshape₁
      (move_sound hqsort hthreshold path hfits hshape h hmove) hrest
    exact ⟨hsound, hlen'.trans hlen⟩

/-- Failures are never swallowed. Whatever system calls fail and whatever processes are killed
at whatever points, when the call of `main` has returned the whole array is a sorted
permutation of what it was, and no other process is left to write to it. The counters of the
copy-back loops are unbounded here. -/
theorem failures_never_swallowed (hqsort : SortsRange qsort) (hthreshold : 1 ≤ threshold)
    (arr : List Int64) (hsize : 8 * arr.length < 2 ^ 64) (schedule : List (Action × List Bool))
    (arr' : List Int64) (p : Process)
    (hrun : runFailing qsort threshold (mergeSort arr 0 arr.length) schedule = some (arr', p))
    (hreturned : Returned p) :
    arr'.Pairwise (fun a b => a ≤ b) ∧ arr'.Perm arr ∧
      ∀ action side path, move qsort threshold action false (side :: path) arr' p = none := by
  have hfits : Fits arr 0 arr.length := ⟨Nat.zero_le _, le_refl _, hsize⟩
  have hstart : Sound threshold arr arr 0 arr.length (.node .entry 0 arr.length .absent .absent) :=
    ⟨rfl, rfl, rfl, rfl, segment_zero_length arr⟩
  have hshape : Shaped 0 arr.length (.node .entry 0 arr.length .absent .absent) :=
    ⟨rfl, rfl, trivial, trivial⟩
  obtain ⟨hsound, hlen⟩ := runFailing_sound hqsort hthreshold hfits hshape hstart hrun
  cases p with
  | absent => exact hreturned.elim
  | node point lo hi left right =>
    cases point with
    | returned =>
      obtain ⟨-, -, hfl, hfr, hsorted⟩ := hsound
      rw [← hlen, segment_zero_length] at hsorted
      refine ⟨hsorted ▸ sorted_pairwise arr, hsorted ▸ sorted_perm arr, fun action side path => ?_⟩
      cases side <;> simp [move, move_finished hfl, move_finished hfr]
    | _ => exact hreturned.elim

end Runs

/-- A left kid killed inside `qsort` makes its parent exit with -3, which is 253. -/
example : (runFailing sortBy 1 (mergeSort [2, 1] 0 2)
    [(.run, []), (.run, []), (.kill [2], [true]), (.run, [])]).map (fun s => s.2.status?) =
      some (some (.exited 253)) := by decide +kernel

end CsfAssignments.Parsort
