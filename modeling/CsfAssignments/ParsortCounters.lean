import CsfAssignments.ParsortCopyBack
import CsfAssignments.ParsortMain
import CsfAssignments.ParsortRanges

/-!
# The process tree with the counters of the source

The copy-back loop of every process has an `int` for its counter. Here the moves of the tree are
those of the source also where the counter overflows: the behaviour is undefined then, unless the
increment wraps around. The tree with unbounded counters makes the same moves as long as no
counter overflows, and one does in some run if the call has to copy 2 ^ 31 elements back.
-/

namespace CsfAssignments.Parsort
open CIntegers ListSegments

/-- The state after some moves, unless their behaviour is undefined. -/
inductive Outcome
  | state (s : State)
  | undefined
  deriving DecidableEq

namespace Outcome

def map (f : State → State) : Outcome → Outcome
  | .state s => .state (f s)
  | .undefined => .undefined

/-- The states in which an execution may be; behind undefined behaviour it may be in any. -/
def Allows : Outcome → State → Prop
  | .state s, s' => s' = s
  | .undefined, _ => True

end Outcome

section Moves
variable (qsort : (Int64 → Int64 → ℤ) → List Int64 → List Int64) (threshold : ℕ) (wraps : Bool)

/-- The next move of a process itself. The counter of the copy-back loop is an `int`, which is
compared as a `size_t`; behind the largest `int` the increment is undefined or wraps around. -/
def actInt (kid : Bool) (arr : List Int64) : Process → Option Outcome
  | .node (.copying temp i) lo hi leftkid rightkid =>
      let returned (arr : List Int64) : State := (arr, .node .returned lo hi leftkid rightkid)
      if i < probSize lo hi then do
        let x ← temp[i]?
        if lo + i < arr.length then
          let arr := arr.set (lo + i) x
          if i + 1 < 2 ^ 31 then
            some (.state (arr, .node (.copying temp (i + 1)) lo hi leftkid rightkid))
          -- A counter of -2 ^ 31 ends the loop: as a `size_t` it is larger than the range.
          else if wraps ∧ probSize lo hi ≤ toUInt64 (-2 ^ 31) then some (.state (returned arr))
          else some .undefined
        else none
      else some (.state (returned arr))
  | p => (act qsort threshold kid arr p).map .state

/-- A move of the process at the end of a path through the tree, `true` to the left kid. -/
def moveInt (action : Action) : Bool → List Bool → List Int64 → Process → Option Outcome
  | kid, [], arr, p =>
      match action with
      | .run => actInt qsort threshold wraps kid arr p
      | .syscallFails => (actFailing threshold arr p).map .state
      | .kill torn => (actKilled threshold arr torn p).map .state
  | _, _ :: _, _, .absent => none
  | _, true :: path, arr, .node point lo hi leftkid rightkid =>
      (moveInt action true path arr leftkid).map (·.map fun (arr, leftkid) =>
        (arr, .node point lo hi leftkid rightkid))
  | _, false :: path, arr, .node point lo hi leftkid rightkid =>
      (moveInt action true path arr rightkid).map (·.map fun (arr, rightkid) =>
        (arr, .node point lo hi leftkid rightkid))

/-- The outcome of a schedule in which system calls may fail and signals may arrive. -/
def runInt (outcome : Outcome) : List (Action × List Bool) → Option Outcome
  | [] => some outcome
  | (action, path) :: schedule =>
      match outcome with
      | .state s =>
          (moveInt qsort threshold wraps action false path s.1 s.2).bind (runInt · schedule)
      | .undefined => some .undefined

/-- Whatever system calls fail and whatever processes are killed at whatever points: when the
call of `main` returns, the whole array is a sorted permutation of what it was. -/
def NeverSwallowed (arr : List Int64) : Prop :=
  ∀ schedule outcome s,
    runInt qsort threshold wraps (.state (mergeSort arr 0 arr.length)) schedule = some outcome →
      outcome.Allows s → Returned s.2 →
        s.1.Pairwise (fun a b => a ≤ b) ∧ s.1.Perm arr

end Moves

section Counters
variable {qsort : (Int64 → Int64 → ℤ) → List Int64 → List Int64} {threshold : ℕ} {wraps kid : Bool}
  {arr arr' : List Int64} {lo hi : ℕ} {p p' : Process} {s s' : State}

/-- The increment behind the next round of the copy-back loop overflows. -/
def Overflows : Process → Prop
  | .node (.copying _ i) lo hi _ _ => i < probSize lo hi ∧ 2 ^ 31 ≤ i + 1
  | _ => False

private theorem actInt_eq (h : ¬Overflows p) :
    actInt qsort threshold wraps kid arr p = (act qsort threshold kid arr p).map .state := by
  cases p with
  | absent => rfl
  | node point lo hi leftkid rightkid =>
    cases point with
    | copying temp i =>
      simp only [actInt, act]
      by_cases hlt : i < probSize lo hi
      · have hnext : i + 1 < 2 ^ 31 := not_le.mp fun hlarge => h ⟨hlt, hlarge⟩
        rw [if_pos hlt, if_pos hlt]
        cases temp[i]? with
        | none => rfl
        | some x =>
          simp only [Option.bind_eq_bind, Option.bind_some, if_pos hnext]
          by_cases hroom : lo + i < arr.length
          · rw [if_pos hroom, if_pos hroom]
            rfl
          · rw [if_neg hroom, if_neg hroom]
            rfl
      · rw [if_neg hlt, if_neg hlt]
        rfl
    | _ => rfl

private theorem actInt_overflows (h : Overflows p)
    (hmove : act qsort threshold kid arr p = some (arr', p')) :
    actInt qsort threshold false kid arr p = some .undefined := by
  cases p with
  | absent => exact h.elim
  | node point lo hi leftkid rightkid =>
    cases point with
    | copying temp i =>
      obtain ⟨hlt, hlarge⟩ := h
      cases act_step hmove with
      | copies _ hget hroom =>
        simp only [actInt, if_pos hlt, hget, Option.bind_eq_bind, Option.bind_some, if_pos hroom]
        rw [if_neg (not_lt.mpr hlarge), if_neg (by simp)]
      | copied hge => omega
    | _ => exact h.elim

/-- As long as no counter overflows, a move is one of the tree with unbounded counters. -/
theorem moveInt_eq {action : Action} {path : List Bool} (h : ¬Overflows (p.descendant path)) :
    moveInt qsort threshold wraps action kid path arr p =
      (move qsort threshold action kid path arr p).map .state := by
  induction path generalizing kid p with
  | nil =>
    cases action with
    | run => exact actInt_eq h
    | syscallFails | kill => rfl
  | cons side path ih =>
    cases p with
    | absent => rfl
    | node point lo hi leftkid rightkid =>
      cases side with
      | true =>
        have hkid : ¬Overflows (leftkid.descendant path) := h
        rw [moveInt, ih hkid, move, Option.map_map, Option.map_map]
        rfl
      | false =>
        have hkid : ¬Overflows (rightkid.descendant path) := h
        rw [moveInt, ih hkid, move, Option.map_map, Option.map_map]
        rfl

/-- Where the increment does not wrap around, any other move is undefined. -/
private theorem moveInt_cases {action : Action} {path : List Bool}
    (hmove : move qsort threshold action kid path arr p = some (arr', p')) :
    moveInt qsort threshold false action kid path arr p = some (.state (arr', p')) ∨
      moveInt qsort threshold false action kid path arr p = some .undefined := by
  induction path generalizing kid p p' with
  | nil =>
    cases action with
    | run =>
      by_cases h : Overflows p
      · exact .inr (actInt_overflows h hmove)
      · exact .inl ((actInt_eq h).trans (congrArg (Option.map Outcome.state) hmove))
    | syscallFails | kill => exact .inl (congrArg (Option.map Outcome.state) hmove)
  | cons side path ih =>
    cases p with
    | absent => cases hmove
    | node point lo hi leftkid rightkid =>
      cases side <;>
        (obtain ⟨⟨arr₁, kid'⟩, hkid, heq⟩ := Option.map_eq_some_iff.mp hmove
         cases heq
         rcases ih hkid with h | h
         · exact .inl (congrArg (Option.map _) h)
         · exact .inr (congrArg (Option.map _) h))

/-- Where the increment does not wrap around, a run of the tree with unbounded counters is also
one of this tree, unless the behaviour is undefined from some move on. -/
theorem runInt_of_runFailing {schedule : List (Action × List Bool)}
    (hrun : runFailing qsort threshold s schedule = some s') :
    runInt qsort threshold false (.state s) schedule = some (.state s') ∨
      runInt qsort threshold false (.state s) schedule = some .undefined := by
  induction schedule generalizing s with
  | nil =>
    cases hrun
    exact .inl rfl
  | cons next schedule ih =>
    obtain ⟨action, path⟩ := next
    obtain ⟨⟨arr₁, p₁⟩, hmove, hrest⟩ := Option.bind_eq_some_iff.mp hrun
    rcases moveInt_cases hmove with h | h
    · simp only [runInt, h, Option.bind_some]
      exact ih hrest
    · refine .inr ?_
      simp only [runInt, h, Option.bind_some]
      cases schedule <;> rfl

theorem runInt_append (outcome : Outcome) (schedule more : List (Action × List Bool)) :
    runInt qsort threshold wraps outcome (schedule ++ more) =
      (runInt qsort threshold wraps outcome schedule).bind
        (runInt qsort threshold wraps · more) := by
  induction schedule generalizing outcome with
  | nil => rfl
  | cons next schedule ih =>
    cases outcome with
    | state s =>
      rw [List.cons_append, runInt, runInt, Option.bind_assoc]
      exact congrArg _ (funext fun outcome => ih outcome)
    | undefined => cases more <;> rfl

/-- A property of the trees with unbounded counters that moves preserve and that excludes
overflows makes the runs of the two trees the same. -/
theorem runInt_eq {P : Process → Prop} (hsafe : ∀ p path, P p → ¬Overflows (p.descendant path))
    (hmove : ∀ {action path arr arr' p p'},
      P p → move qsort threshold action false path arr p = some (arr', p') → P p')
    (h : P p) (schedule : List (Action × List Bool)) :
    runInt qsort threshold wraps (.state (arr, p)) schedule =
      (runFailing qsort threshold (arr, p) schedule).map .state := by
  induction schedule generalizing arr p with
  | nil => rfl
  | cons next schedule ih =>
    obtain ⟨action, path⟩ := next
    rw [runInt, runFailing, moveInt_eq (hsafe p path h), Option.bind_map, Option.map_bind]
    refine Option.bind_congr fun s hs => ?_
    exact ih (hmove h hs)

end Counters

section Small
variable {qsort : (Int64 → Int64 → ℤ) → List Int64 → List Int64} {threshold lo hi : ℕ}
  {arr arr' : List Int64} {p p' : Process}

/-- No range of a tree of less than 2 ^ 31 elements is too large for the counter. -/
theorem Divided.not_overflows (h : Divided threshold lo hi p) (hle : lo ≤ hi) (hint : hi < 2 ^ 31)
    (path : List Bool) : ¬Overflows (p.descendant path) := by
  intro hover
  cases hpath : p.descendant path with
  | absent =>
    rw [hpath] at hover
    exact hover
  | node point b e leftkid rightkid =>
    rw [hpath] at hover
    obtain ⟨-, hbe, he, -⟩ := h.descendant hle hpath
    cases point with
    | copying temp i =>
      obtain ⟨hlt, hlarge⟩ := hover
      rw [probSize_of_le hbe (by omega)] at hlt
      omega
    | _ => exact hover

/-- A call that sorts its range itself. -/
def Unforked (lo hi : ℕ) : Process → Prop
  | .node point lo' hi' leftkid rightkid =>
      lo' = lo ∧ hi' = hi ∧ leftkid = .absent ∧ rightkid = .absent ∧
        match point with
        | .entry | .returned | .ended _ => True
        | _ => False
  | .absent => False

/-- A call whose range is not larger than the threshold forks nobody, whatever fails. -/
private theorem Unforked.moves {action : Action} {path : List Bool} (hle : lo ≤ hi)
    (hsize : hi < 2 ^ 61) (hsmall : hi - lo ≤ threshold) (h : Unforked lo hi p)
    (hmove : move qsort threshold action false path arr p = some (arr', p')) :
    Unforked lo hi p' := by
  cases p with
  | absent => exact h.elim
  | node point lo' hi' leftkid rightkid =>
    obtain ⟨rfl, rfl, rfl, rfl, hpoint⟩ := h
    cases path with
    | cons side path =>
      have habsent (kid : Bool) : move qsort threshold action kid path arr .absent = none :=
        move_finished (p := .absent) trivial action kid path arr
      cases side <;> (rw [move, habsent] at hmove; cases hmove)
    | nil =>
      by_cases hrun : action = .run
      · subst hrun
        cases act_step hmove with
        | forks hlarge | skips hlarge =>
          rw [probSize_of_le hle hsize] at hlarge
          omega
        | sorts | exits => exact ⟨rfl, rfl, rfl, rfl, trivial⟩
        | _ => exact hpoint.elim
      · obtain ⟨⟨status, -, rfl⟩, -⟩ := fails_cases hrun hmove
        exact ⟨rfl, rfl, rfl, rfl, trivial⟩

private theorem Unforked.not_overflows (h : Unforked lo hi p) (path : List Bool) :
    ¬Overflows (p.descendant path) := by
  intro hover
  cases p with
  | absent => exact h
  | node point lo' hi' leftkid rightkid =>
    obtain ⟨rfl, rfl, rfl, rfl, hpoint⟩ := h
    cases path with
    | nil =>
      cases point <;> first | exact hpoint | exact hover
    | cons side path =>
      have habsent : (Process.node point lo' hi' .absent .absent).descendant (side :: path) =
          .absent := by
        rw [Process.descendant_cons]
        cases side <;> exact Process.descendant_absent path
      rw [habsent] at hover
      exact hover

/-- If no range has more elements than an `int` can count, or none is merged, then the runs are
those of the tree with unbounded counters. -/
theorem runInt_of_small (wraps : Bool) (hle : lo ≤ hi) (hsize : hi < 2 ^ 61)
    (hsmall : hi < 2 ^ 31 ∨ hi - lo ≤ threshold) (schedule : List (Action × List Bool)) :
    runInt qsort threshold wraps (.state (mergeSort arr lo hi)) schedule =
      (runFailing qsort threshold (mergeSort arr lo hi) schedule).map .state := by
  rcases hsmall with hint | hsmall
  · exact runInt_eq (P := Divided threshold lo hi) (fun p path h => h.not_overflows hle hint path)
      (fun h hmove => (move_divided _ hle hsize h hmove).1) (.entry lo hi) schedule
  · exact runInt_eq (P := Unforked lo hi) (fun p path h => h.not_overflows path)
      (fun h hmove => h.moves hle hsize hsmall hmove)
      (show Unforked lo hi (.node .entry lo hi .absent .absent) from ⟨rfl, rfl, rfl, rfl, trivial⟩)
      schedule

end Small

section Large
variable {qsort : (Int64 → Int64 → ℤ) → List Int64 → List Int64} {threshold lo hi : ℕ}
  {arr temp : List Int64} {leftkid rightkid : Process}

/-- What the process at the root makes of a run of the copy-back loop. -/
def ofLoop (lo hi : ℕ) (leftkid rightkid : Process) : Option (List Int64) → Outcome
  | some arr => .state (arr, .node .returned lo hi leftkid rightkid)
  | none => .undefined

private theorem actInt_round (wraps kid : Bool) (hfits : Fits arr lo hi)
    (htemp : temp.length = hi - lo) {i : ℕ} (hlt : i < hi - lo) :
    actInt qsort threshold wraps kid arr (.node (.copying temp i) lo hi leftkid rightkid) =
      if i + 1 < 2 ^ 31 then some (.state (arr.set (lo + i) temp[i],
        .node (.copying temp (i + 1)) lo hi leftkid rightkid))
      else some (ofLoop lo hi leftkid rightkid
        (if wraps then some (arr.set (lo + i) temp[i]) else none)) := by
  have hhi := hfits.hi_le
  have hsize := hfits.hi_lt
  have hget : temp[i]? = some temp[i] := List.getElem?_eq_getElem (by omega)
  have hlarge : hi - lo ≤ toUInt64 (-2 ^ 31) := by
    rw [toUInt64]
    omega
  simp only [actInt, hfits.probSize_eq, hget, Option.bind_eq_bind, Option.bind_some]
  rw [if_pos hlt, if_pos (by omega)]
  refine if_congr Iff.rfl rfl ?_
  cases wraps with
  | true => exact if_pos ⟨rfl, hlarge⟩
  | false => exact if_neg (by simp)

/-- The rounds of the process are those of the copy-back loop. -/
theorem runInt_copying (wraps : Bool) (hfits : Fits arr lo hi) (htemp : temp.length = hi - lo)
    {i : ℕ} (hle : i ≤ hi - lo) (hint : i < 2 ^ 31) :
    ∃ rounds, runInt qsort threshold wraps
        (.state (arr, .node (.copying temp i) lo hi leftkid rightkid))
        (List.replicate rounds (.run, [])) =
      some (ofLoop lo hi leftkid rightkid (copyBack wraps lo (probSize lo hi) temp arr i)) := by
  have hlo := hfits.lo_le
  have hhi := hfits.hi_le
  have hsize := hfits.hi_lt
  rw [hfits.probSize_eq]
  induction hk : 2 ^ 31 - i generalizing i arr with
  | zero => omega
  | succ k ih =>
    rcases hle.lt_or_eq with hlt | rfl
    · rw [copyBack_round (by omega) (by have := hfits.addressable; omega) htemp hlt hint]
      by_cases hnext : i + 1 < 2 ^ 31
      · have hfits' : Fits (arr.set (lo + i) temp[i]) lo hi := hfits.of_length List.length_set
        obtain ⟨rounds, hrest⟩ := ih hfits' hlt hnext hfits'.hi_le (by omega)
        refine ⟨rounds + 1, ?_⟩
        simp only [List.replicate_succ, runInt, moveInt, actInt_round wraps false hfits htemp hlt,
          if_pos hnext, Option.bind_some]
        exact hrest
      · refine ⟨1, ?_⟩
        simp only [List.replicate_one, runInt, moveInt, actInt_round wraps false hfits htemp hlt,
          if_neg hnext, Option.bind_some]
    · refine ⟨1, ?_⟩
      have hcounter : toUInt64 ((hi - lo : ℕ) : ℤ) = hi - lo := toUInt64_natCast (by omega)
      rw [copyBack, if_neg (by rw [hcounter]; exact lt_irrefl _)]
      simp only [List.replicate_one, runInt, moveInt, actInt, hfits.probSize_eq, lt_irrefl,
        if_false, Option.bind_some]
      rfl

/-- A call with 2 ^ 31 elements or more to copy back has a run whose behaviour is undefined. -/
theorem exists_runInt_undefined (hqsort : SortsRange qsort) (hthreshold : 1 ≤ threshold)
    (hfits : Fits arr lo hi) (hlarge : threshold < hi - lo) (hint : 2 ^ 31 ≤ hi - lo) :
    ∃ schedule, runInt qsort threshold false (.state (mergeSort arr lo hi)) schedule =
      some .undefined := by
  have hinv : Inv threshold arr (segment arr lo hi) lo hi (.node .entry lo hi .absent .absent) :=
    ⟨rfl, rfl, rfl, rfl, rfl⟩
  obtain ⟨paths, arr', p, hrun, hlen, temp, leftkid, rightkid, htemp, rfl⟩ :=
    exists_run_atLoop hqsort hthreshold hfits hlarge hinv trivial
  rw [← runFailing_smoothly] at hrun
  rcases runInt_of_runFailing hrun with hstate | hundefined
  · have hfits' := hfits.of_length hlen
    rw [hfits.probSize_eq] at htemp
    obtain ⟨rounds, hrounds⟩ := @runInt_copying qsort threshold lo hi arr' temp leftkid rightkid
      false hfits' htemp 0 (Nat.zero_le _) (by decide)
    rw [Nat.cast_zero, copyBack_eq false hfits' htemp, if_neg (not_lt.mpr hint)] at hrounds
    refine ⟨smoothly paths ++ List.replicate rounds (.run, []), ?_⟩
    rw [runInt_append, mergeSort, hstate, Option.bind_some, hrounds]
    rfl
  · exact ⟨_, hundefined⟩

/-- Failures are never swallowed if and only if the call of `main` has less than 2 ^ 31 elements
to copy back, or none. -/
theorem failures_never_swallowed_iff (hqsort : SortsRange qsort) (hthreshold : 1 ≤ threshold)
    (arr : List Int64) (hsize : 8 * arr.length < 2 ^ 64) :
    NeverSwallowed qsort threshold false arr ↔
      arr.length < 2 ^ 31 ∨ arr.length ≤ threshold := by
  have hfits : Fits arr 0 arr.length := ⟨Nat.zero_le _, le_refl _, hsize⟩
  constructor
  · intro h
    by_contra hlarge
    rw [not_or, not_lt, not_le] at hlarge
    obtain ⟨schedule, hundefined⟩ :=
      exists_runInt_undefined hqsort hthreshold hfits hlarge.2 hlarge.1
    obtain ⟨-, hperm⟩ := h schedule .undefined ([], .node .returned 0 0 .absent .absent) hundefined
      trivial trivial
    have hnil := hperm.length_eq
    rw [List.length_nil] at hnil
    omega
  · intro hsmall schedule outcome s hrun hallows hreturned
    rw [runInt_of_small false (Nat.zero_le _) hfits.hi_lt hsmall] at hrun
    obtain ⟨s', hmoves, rfl⟩ := Option.map_eq_some_iff.mp hrun
    obtain rfl : s = s' := hallows
    obtain ⟨hsorted, hperm, -⟩ :=
      failures_never_swallowed hqsort hthreshold arr hsize schedule s.1 s.2 hmoves hreturned
    exact ⟨hsorted, hperm⟩

end Large

theorem failures_never_swallowed_iff_two :
    NeverSwallowed sortBy 1 false [2, 1] ∧
      ∃ schedule s, runInt sortBy 1 false (.state (mergeSort [2, 1] 0 2)) schedule =
        some (.state s) ∧ Returned s.2 ∧ s.1.Pairwise (fun a b => a ≤ b) ∧ s.1.Perm [2, 1] := by
  have h : NeverSwallowed sortBy 1 false [2, 1] :=
    (failures_never_swallowed_iff sortsRange_sortBy (le_refl 1) [2, 1] (by decide)).mpr
      (.inl (by decide))
  have hrun : runInt sortBy 1 false (.state (mergeSort [2, 1] 0 2)) (smoothly sortTwo) =
      some (.state ([1, 2], .node .returned 0 2 (.node (.ended (.exited 0)) 0 1 .absent .absent)
        (.node (.ended (.exited 0)) 1 2 .absent .absent))) := by decide +kernel
  exact ⟨h, _, _, hrun, trivial, h _ _ _ hrun rfl trivial⟩

section Lost
variable {qsort : (Int64 → Int64 → ℤ) → List Int64 → List Int64} {threshold lo hi : ℕ}
  {arr : List Int64} {leftkid rightkid : Process}

/-- The rounds of the merge loop. -/
private theorem runInt_merging (wraps : Bool) (hfits : Fits arr lo hi) {l r : ℕ}
    {temp : List Int64} (hl : l ≤ half lo hi) (hr : r ≤ hi)
    (htemp : temp.length + lo + half lo hi = l + r) :
    ∃ rounds, runInt qsort threshold wraps
        (.state (arr, .node (.merging l r temp) lo hi leftkid rightkid))
        (List.replicate rounds (.run, [])) =
      some (.state (arr, .node (.copying (temp ++ List.merge (segment arr l (half lo hi))
        (segment arr r hi) (fun a b => a ≤ b)) 0) lo hi leftkid rightkid)) := by
  have hhi := hfits.hi_le
  obtain ⟨-, hhigh⟩ := half_mem hfits.lo_le
  induction hk : half lo hi + hi - (l + r) using Nat.strong_induction_on generalizing l r temp with
  | _ k ih =>
    subst hk
    by_cases hdone : l ≥ half lo hi ∧ r ≥ hi
    · obtain rfl : l = half lo hi := le_antisymm hl hdone.1
      obtain rfl : r = hi := le_antisymm hr hdone.2
      refine ⟨1, ?_⟩
      rw [segment_self, segment_self, List.nil_merge, List.append_nil]
      simp only [List.replicate_one, runInt, moveInt, actInt, act, hfits.midpoint_eq]
      rw [if_pos hdone]
      rfl
    · obtain ⟨x, l', r', hround, -, hl', -, hr', hsum, hmerge⟩ :=
        mergeRound_eq (by omega) hhi hl hr hdone
      obtain ⟨rounds, hrest⟩ := @ih _ (by omega) l' r' (temp ++ [x]) hl' hr'
        (by rw [List.length_append, List.length_singleton]; omega) rfl
      refine ⟨rounds + 1, ?_⟩
      rw [hmerge, List.append_cons, ← hrest]
      simp only [List.replicate_succ, runInt, moveInt, actInt, act, hfits.midpoint_eq,
        hfits.probSize_eq, hround]
      rw [if_neg hdone, Option.bind_eq_bind, Option.bind_some, if_pos (by omega)]
      rfl

/-- The first eight moves of a call whose halves are not larger than the threshold. -/
private theorem runInt_halves (wraps : Bool) (hqsort : SortsRange qsort) (hfits : Fits arr lo hi)
    (hlarge : threshold < hi - lo) (hleft : half lo hi - lo ≤ threshold)
    (hright : hi - half lo hi ≤ threshold) :
    ∃ arr' leftkid rightkid, Fits arr' lo hi ∧
      segment arr' lo (half lo hi) = sorted (segment arr lo (half lo hi)) ∧
      segment arr' (half lo hi) hi = sorted (segment arr (half lo hi) hi) ∧
      runInt qsort threshold wraps (.state (mergeSort arr lo hi))
          (smoothly [[], [true], [true], [], [false], [false], [], []]) =
        some (.state (arr', .node (.merging lo (half lo hi) []) lo hi leftkid rightkid)) := by
  have hfitsLeft := hfits.left
  have hfitsRight := hfits.right
  have hlow := hfitsLeft.lo_le
  have hhigh := hfitsRight.lo_le
  have hhi := hfits.hi_le
  have hendLeft := hfitsLeft.add_length_sorted
  have hendRight := hfitsRight.add_length_sorted
  let arr₁ := overwrite arr lo (sorted (segment arr lo (half lo hi)))
  let arr₂ := overwrite arr₁ (half lo hi) (sorted (segment arr (half lo hi) hi))
  have hlen₁ : arr₁.length = arr.length := length_overwrite (by omega)
  have hlen₂ : arr₂.length = arr₁.length := length_overwrite (by omega)
  have hkept : segment arr₁ (half lo hi) hi = segment arr (half lo hi) hi :=
    segment_congr fun i hi _ => getElem?_overwrite_of_outside (by omega) (by omega)
  have hsegLeft : segment arr₂ lo (half lo hi) = sorted (segment arr lo (half lo hi)) := by
    rw [segment_congr fun i _ hi => getElem?_overwrite_of_outside (by omega) (.inl hi)]
    exact hfitsLeft.segment_overwrite_sorted
  have hsegRight : segment arr₂ (half lo hi) hi = sorted (segment arr (half lo hi) hi) := by
    have h : segment arr₂ (half lo hi)
        (half lo hi + (sorted (segment arr (half lo hi) hi)).length) = _ :=
      segment_overwrite (by omega)
    rwa [hendRight] at h
  refine ⟨arr₂, .node (.ended (.exited 0)) lo (half lo hi) .absent .absent,
    .node (.ended (.exited 0)) (half lo hi) hi .absent .absent,
    hfits.of_length (hlen₂.trans hlen₁), hsegLeft, hsegRight, ?_⟩
  have hsortLeft : enter qsort threshold arr lo (half lo hi) .absent .absent =
      some (arr₁, .node .returned lo (half lo hi) .absent .absent) := by
    rw [enter, hfitsLeft.probSize_eq, if_pos hleft, if_pos (by omega), Nat.add_sub_cancel' hlow,
      hqsort.eq_sorted]
  have hsortRight : enter qsort threshold arr₁ (half lo hi) hi .absent .absent =
      some (arr₂, .node .returned (half lo hi) hi .absent .absent) := by
    rw [enter, hfitsRight.probSize_eq, if_pos hright, if_pos (by omega), Nat.add_sub_cancel' hhigh,
      hqsort.eq_sorted, hkept]
  have hforks : enter qsort threshold arr lo hi .absent .absent =
      some (arr, .node .forked lo hi (.node .entry lo (half lo hi) .absent .absent) .absent) := by
    rw [enter, hfits.probSize_eq, if_neg (not_le.mpr hlarge), if_pos (by omega), hfits.midpoint_eq]
  have hzero : ¬BitVec.ofInt 8 0 ≠ 0 := by decide
  simp only [smoothly, List.map, mergeSort, runInt, moveInt, actInt, act, hforks, hsortLeft,
    hsortRight, hfits.rightBegin_eq, hfits.midpoint_eq, Option.map_some, Option.bind_some,
    Outcome.map, Process.status?, if_true, if_neg hzero]
  rfl

/-- Such a call comes to its copy-back loop with the halves still in the array. -/
private theorem exists_runInt_loop (wraps : Bool) (hqsort : SortsRange qsort)
    (hfits : Fits arr lo hi) (hlarge : threshold < hi - lo) (hleft : half lo hi - lo ≤ threshold)
    (hright : hi - half lo hi ≤ threshold) :
    ∃ schedule arr' leftkid rightkid, Fits arr' lo hi ∧
      segment arr' (half lo hi) hi = sorted (segment arr (half lo hi) hi) ∧
      runInt qsort threshold wraps (.state (mergeSort arr lo hi)) schedule =
        some (ofLoop lo hi leftkid rightkid
          (copyBack wraps lo (probSize lo hi) (sorted (segment arr lo hi)) arr' 0)) := by
  obtain ⟨hlow, hhigh⟩ := half_mem hfits.lo_le
  obtain ⟨arr', leftkid, rightkid, hfits', hsegLeft, hsegRight, hhalves⟩ :=
    runInt_halves wraps hqsort hfits hlarge hleft hright
  obtain ⟨merges, hmerged⟩ := @runInt_merging qsort threshold lo hi arr' leftkid rightkid wraps
    hfits' lo (half lo hi) [] hlow hhigh (by simp)
  have htemp : [] ++ List.merge (segment arr' lo (half lo hi)) (segment arr' (half lo hi) hi)
      (fun a b => a ≤ b) = sorted (segment arr lo hi) := by
    rw [List.nil_append, hsegLeft, hsegRight, merge_sorted, segment_append hlow hhigh]
  have hlen : (sorted (segment arr lo hi)).length = hi - lo := by
    rw [length_sorted, length_segment hfits.hi_le]
  obtain ⟨rounds, hcopied⟩ := @runInt_copying qsort threshold lo hi arr' _ leftkid rightkid wraps
    hfits' hlen 0 (Nat.zero_le _) (by decide)
  rw [htemp] at hmerged
  refine ⟨smoothly [[], [true], [true], [], [false], [false], [], []] ++
    (List.replicate merges (.run, []) ++ List.replicate rounds (.run, [])), arr', leftkid, rightkid,
    hfits', hsegRight, ?_⟩
  rw [runInt_append, hhalves, Option.bind_some, runInt_append, hmerged, Option.bind_some, hcopied]
  rfl

end Lost

/-- The largest element comes last. -/
private theorem sorted_cons_replicate (n : ℕ) :
    sorted (1 :: List.replicate n 0 : List Int64) = List.replicate n 0 ++ [1] := by
  refine (eq_sorted (List.perm_append_singleton 1 _) ?_).symm
  refine List.pairwise_append.mpr ⟨List.pairwise_replicate.mpr (.inr (le_refl 0)),
    List.pairwise_singleton _ _, fun x hx y hy => ?_⟩
  rw [List.eq_of_mem_replicate hx, List.mem_singleton.mp hy]
  decide

private theorem eq_zero_of_mem_segment {n k : ℕ} {x : Int64}
    (h : x ∈ segment (1 :: List.replicate n 0) (k + 1) (n + 1)) : x = 0 := by
  rw [ListSegments.segment, List.take_succ_cons, List.drop_succ_cons] at h
  exact List.eq_of_mem_replicate (List.mem_of_mem_take (List.mem_of_mem_drop h))

/-- The largest element is the last one to be copied back, and where the counter wraps around it is
not. -/
private theorem not_neverSwallowed (wraps : Bool) :
    ¬NeverSwallowed sortBy (2 ^ 31) wraps (1 :: List.replicate (2 ^ 31) 0) := by
  intro h
  generalize hn : 2 ^ 31 = n at h
  have hlen : (1 :: List.replicate n 0 : List Int64).length = n + 1 := by
    rw [List.length_cons, List.length_replicate]
  have hfits : Fits (1 :: List.replicate n 0) 0 (n + 1) := ⟨Nat.zero_le _, hlen.ge, by omega⟩
  obtain ⟨k, hhalf⟩ : ∃ k, half 0 (n + 1) = k + 1 := by
    refine ⟨2 ^ 30 - 1, ?_⟩
    rw [half]
    omega
  have hk : n = 2 * (k + 1) := by
    rw [half] at hhalf
    omega
  obtain ⟨schedule, arr', leftkid, rightkid, hfits', hright, hrun⟩ :=
    exists_runInt_loop wraps sortsRange_sortBy hfits (show n < n + 1 - 0 by omega) (by omega)
      (by omega)
  have hall : segment (1 :: List.replicate n 0 : List Int64) 0 (n + 1) = 1 :: List.replicate n 0 :=
    hlen ▸ segment_zero_length _
  have htemp : (List.replicate n 0 ++ [1] : List Int64).length = n + 1 - 0 := by
    rw [List.length_append, List.length_replicate, List.length_singleton, Nat.sub_zero]
  rw [hall, sorted_cons_replicate] at hrun
  rw [NeverSwallowed, hlen] at h
  cases wraps with
  | false =>
    rw [copyBack_eq false hfits' htemp, if_neg (by omega)] at hrun
    obtain ⟨-, hperm⟩ := h schedule .undefined ([], .node .returned 0 0 .absent .absent) hrun
      trivial trivial
    exact absurd hperm.length_eq (by rw [hlen]; simp)
  | true =>
    obtain ⟨arr'', hloop, hget⟩ := copyBack_wraps hfits' htemp
    rw [hloop] at hrun
    obtain ⟨-, hperm⟩ := h schedule _ _ hrun rfl trivial
    obtain ⟨i, hi⟩ := List.mem_iff_getElem?.mp (hperm.mem_iff.mpr (List.mem_cons_self))
    have hlt : i < n + 1 := by
      obtain ⟨hlt, -⟩ := List.getElem?_eq_some_iff.mp hi
      rwa [hperm.length_eq, hlen] at hlt
    have hvalue := hget i hlt
    rw [Nat.zero_add, hi] at hvalue
    by_cases hcopied : i < n
    · rw [if_pos (hn ▸ hcopied), List.getElem?_append_left (by rwa [List.length_replicate]),
        List.getElem?_replicate, if_pos hcopied] at hvalue
      exact absurd (Option.some.inj hvalue) (by decide)
    · rw [if_neg (by omega)] at hvalue
      have hmem : (1 : Int64) ∈ segment arr' (half 0 (n + 1)) (n + 1) := by
        refine List.mem_iff_getElem?.mpr ⟨i - half 0 (n + 1), ?_⟩
        rw [getElem?_segment, if_pos (by omega), Nat.add_sub_cancel' (by omega), ← hvalue]
      rw [hright, (sorted_perm _).mem_iff, hhalf] at hmem
      exact absurd (eq_zero_of_mem_segment hmem) (by decide)

/-- A file of 2 ^ 31 + 1 elements of which the first is the largest, whether the counter of the loop
wraps around or its overflow is undefined. -/
theorem largest_element_lost :
    ¬NeverSwallowed sortBy (2 ^ 31) false (1 :: List.replicate (2 ^ 31) 0) ∧
      ¬NeverSwallowed sortBy (2 ^ 31) true (1 :: List.replicate (2 ^ 31) 0) :=
  ⟨not_neverSwallowed false, not_neverSwallowed true⟩

end CsfAssignments.Parsort
