import CsfAssignments.ArrayFootprints
import CsfAssignments.ParsortFailures

/-!
# Reads and writes of the process tree

The elements of the array that the next move of a process reads or writes. They are its
footprint, so that the moves of processes with disjoint accesses commute. The processes of a
tree are given by the paths to them.
-/

namespace CsfAssignments.Parsort
open CIntegers ListSegments ArrayFootprints

def Process.kid : Process → Bool → Process
  | .absent, _ => .absent
  | .node _ _ _ leftkid rightkid, side => if side then leftkid else rightkid

/-- The process at the end of a path through the tree, `true` to the left kid. -/
def Process.descendant (p : Process) (path : List Bool) : Process := path.foldl Process.kid p

theorem Process.descendant_append (p : Process) (path : List Bool) (side : Bool) :
    p.descendant (path ++ [side]) = (p.descendant path).kid side := by
  rw [descendant, List.foldl_append]
  rfl

theorem Process.descendant_cons (p : Process) (side : Bool) (path : List Bool) :
    p.descendant (side :: path) = (p.kid side).descendant path := rfl

theorem Process.descendant_absent (path : List Bool) : Process.absent.descendant path = .absent := by
  induction path with
  | nil => rfl
  | cons side path ih => exact ih

/-- The tree with another process at the end of a path. -/
def Process.replace (q : Process) : List Bool → Process → Process
  | [], _ => q
  | _ :: _, .absent => .absent
  | true :: path, .node point lo hi leftkid rightkid =>
      .node point lo hi (q.replace path leftkid) rightkid
  | false :: path, .node point lo hi leftkid rightkid =>
      .node point lo hi leftkid (q.replace path rightkid)

/-- Processes at other places of the tree stay as they are. -/
theorem Process.descendant_replace {path path' : List Bool} (h : ¬path <+: path')
    (h' : ¬path' <+: path) (q p : Process) :
    (q.replace path p).descendant path' = p.descendant path' := by
  induction path generalizing path' p with
  | nil => exact absurd List.nil_prefix h
  | cons side path ih =>
    cases path' with
    | nil => exact absurd List.nil_prefix h'
    | cons side' path' =>
      rw [List.cons_prefix_cons, not_and] at h h'
      cases p with
      | absent => cases side <;> rfl
      | node point lo hi leftkid rightkid =>
        cases side <;> cases side'
        · exact ih (h rfl) (h' rfl) rightkid
        · rfl
        · rfl
        · exact ih (h rfl) (h' rfl) leftkid

theorem Process.replace_replace {path path' : List Bool} (h : ¬path <+: path')
    (h' : ¬path' <+: path) (q q' p : Process) :
    q'.replace path' (q.replace path p) = q.replace path (q'.replace path' p) := by
  induction path generalizing path' p with
  | nil => exact absurd List.nil_prefix h
  | cons side path ih =>
    cases path' with
    | nil => exact absurd List.nil_prefix h'
    | cons side' path' =>
      rw [List.cons_prefix_cons, not_and] at h h'
      cases p with
      | absent => cases side <;> cases side' <;> rfl
      | node point lo hi leftkid rightkid =>
        cases side <;> cases side'
        · exact congrArg (Process.node point lo hi leftkid) (ih (h rfl) (h' rfl) rightkid)
        · rfl
        · rfl
        · exact congrArg (fun kid => Process.node point lo hi kid rightkid)
            (ih (h rfl) (h' rfl) leftkid)

/-- The indices that a call works on. -/
def Process.range : Process → Finset ℕ
  | .absent => ∅
  | .node _ lo hi _ _ => Finset.Ico lo hi

/-- The bounds of a call. -/
def Process.bounds? : Process → Option (ℕ × ℕ)
  | .absent => none
  | .node _ lo hi _ _ => some (lo, hi)

/-- The elements of the array that the next move of a process reads or writes: the range of
`qsort`, what the two cursors of `merge` point to, the destination of the copy-back loop. -/
def accesses (threshold : ℕ) : Process → Finset ℕ
  | .absent => ∅
  | .node point lo hi _ _ =>
      match point with
      | .entry =>
          if probSize lo hi ≤ threshold then Finset.Ico lo (lo + probSize lo hi) else ∅
      | .merging left right _ =>
          (if left ≥ midpoint lo hi then ∅ else {left}) ∪ (if right ≥ hi then ∅ else {right})
      | .copying _ i => if i < probSize lo hi then {lo + i} else ∅
      | _ => ∅

section Accesses
variable {qsort : (Int64 → Int64 → ℤ) → List Int64 → List Int64} {threshold : ℕ}
  {leftkid rightkid : Process} {lo hi n : ℕ} {kid : Bool}

/-- A round of the merge loop reads what the cursors point to. -/
private theorem mergeRound_congr {l m : List Int64} {endl endr left right : ℕ}
    (hleft : ¬left ≥ endl → l[left]? = m[left]?) (hright : ¬right ≥ endr → l[right]? = m[right]?)
    (hrest : ¬(left ≥ endl ∧ right ≥ endr)) :
    mergeRound l endl endr left right = mergeRound m endl endr left right := by
  unfold mergeRound
  by_cases hendl : left ≥ endl
  · rw [if_pos hendl, if_pos hendl, hright fun h => hrest ⟨hendl, h⟩]
  · rw [if_neg hendl, if_neg hendl, hleft hendl]
    by_cases hendr : right ≥ endr
    · rw [if_pos hendr, if_pos hendr]
    · rw [if_neg hendr, if_neg hendr, hright hendr]

/-- The reads and writes of a process are those in `accesses`. -/
theorem act_footprint (hqsort : SortsRange qsort) (point : Point) :
    Footprint n (accesses threshold (.node point lo hi leftkid rightkid))
      fun arr => act qsort threshold kid arr (.node point lo hi leftkid rightkid) := by
  cases point with
  | entry =>
    simp only [act, enter, accesses]
    split_ifs with hsmall hpos
    · by_cases hbound : lo + probSize lo hi ≤ n
      · refine (Footprint.overwrite_segment hbound (qsort compareI64)
          (fun l hlen => by rw [(hqsort l).1.length_eq, hlen])
          (.node .returned lo hi leftkid rightkid)).congr fun l hlen => ?_
        rw [if_pos (hbound.trans_eq hlen.symm)]
      · refine (Footprint.const none).congr fun l hlen => ?_
        rw [if_neg (by rwa [hlen])]
        rfl
    · exact .const (some _)
    · exact .const (some _)
  | forked => exact .const (some _)
  | waiting | waitingRight =>
    simp only [act]
    split
    · exact .const none
    · exact .const (some _)
    · split_ifs <;> exact .const (some _)
  | merging left right temp =>
    simp only [act]
    by_cases hdone : left ≥ midpoint lo hi ∧ right ≥ hi
    · simp only [if_pos hdone]
      exact .const (some _)
    · refine (Footprint.of_read (r := fun l => (mergeRound l (midpoint lo hi) hi left right).bind
        fun next => if temp.length < probSize lo hi then some (.node (.merging next.2.1 next.2.2
          (temp ++ [next.1])) lo hi leftkid rightkid) else none) fun l m _ _ hagree => ?_).congr
        fun l _ => ?_
      · rw [mergeRound_congr (m := m) (fun hleft => hagree left ?_) (fun hright => hagree right ?_) hdone]
        · simp [accesses, hleft]
        · simp [accesses, hright]
      · rw [if_neg hdone]
        cases mergeRound l (midpoint lo hi) hi left right with
        | none => rfl
        | some next =>
          simp only [Option.bind_eq_bind, Option.bind_some]
          split_ifs <;> rfl
  | copying temp i =>
    simp only [act, accesses]
    split_ifs with hi'
    · cases temp[i]? with
      | none => exact .const none
      | some x => exact .set (lo + i) x _
    · exact .const (some _)
  | returned =>
    simp only [act]
    split_ifs
    · exact .const (some _)
    · exact .const none
  | ended status => exact .const none

/-- Every move of a process itself, also one that ends it. A signal inside `qsort` leaves the
range in any state. -/
theorem move_footprint (hqsort : SortsRange qsort) (point : Point) (hle : lo ≤ hi)
    (hsize : hi < 2 ^ 61) (hn : hi ≤ n) (action : Action) :
    Footprint n (accesses threshold (.node point lo hi leftkid rightkid))
      fun arr => move qsort threshold action kid [] arr (.node point lo hi leftkid rightkid) := by
  cases action with
  | run => exact act_footprint hqsort point
  | syscallFails =>
    cases point with
    | entry =>
      simp only [move, actFailing]
      split_ifs
      · exact .const (some _)
      · exact .const none
    | forked | waiting | waitingRight => exact .const (some _)
    | _ => exact .const none
  | kill torn =>
    cases point with
    | entry =>
      simp only [move, actKilled, accesses]
      by_cases htorn : probSize lo hi ≤ threshold ∧ torn.length = probSize lo hi
      · have hbound : lo + probSize lo hi ≤ n := by
          rw [probSize_of_le hle hsize]
          omega
        simp only [if_pos htorn, if_pos htorn.1]
        exact .overwrite_segment hbound (fun _ => torn) (fun _ _ => htorn.2) _
      · simp only [if_neg htorn]
        exact .const (some _)
    | ended status => exact .const none
    | _ => exact .const (some _)

/-- A move of a process changes the tree where the process is. -/
theorem move_eq_descendant (action : Action) (path : List Bool) (kid : Bool) (arr : List Int64)
    (p : Process) : move qsort threshold action kid path arr p =
      (move qsort threshold action (kid || !path.isEmpty) [] arr (p.descendant path)).map
        fun s => (s.1, s.2.replace path p) := by
  induction path generalizing kid p with
  | nil =>
    rw [Process.descendant, List.foldl_nil, List.isEmpty_nil, Bool.not_true, Bool.or_false]
    exact Option.map_id'.symm
  | cons side path ih =>
    cases p with
    | absent =>
      rw [Process.descendant_absent]
      cases action <;> rfl
    | node point lo hi leftkid rightkid =>
      have hkid : (true || !path.isEmpty) = (kid || !(side :: path).isEmpty) := by simp
      cases side with
      | true =>
        rw [move, ih, hkid, Option.map_map]
        rfl
      | false =>
        rw [move, ih, hkid, Option.map_map]
        rfl

end Accesses

end CsfAssignments.Parsort
