import CsfAssignments.CIntegers
import CsfAssignments.ListSegments

/-!
# The parallel merge sort

Definitions of `parsort.c`. The calls of `merge_sort` form a tree of processes that work on
one shared array, and a schedule says which process makes the next move. A move is the code
between two points at which other processes may run: a system call, a round of the merge
loop, a round of the copy-back loop. Loop counters are unbounded, and a move that would leave
an array or a buffer is undefined.
-/

namespace CsfAssignments.Parsort
open CIntegers ListSegments

def compareI64 (left right : Int64) : ℤ :=
  if left < right then -1 else if left > right then 1 else 0

/-- How a process ended, as its parent sees it. -/
inductive Status
  | exited (code : BitVec 8)
  | signaled
  deriving DecidableEq, Repr

/-- The point a call of `merge_sort` has reached. The temporary array is the list of what was
stored in it, and the destination of the merge is its end. -/
inductive Point
  | entry
  | forked
  | waiting
  | waitingRight
  | merging (left right : ℕ) (temp : List Int64)
  | copying (temp : List Int64) (i : ℕ)
  | returned
  | ended (status : Status)
  deriving DecidableEq

/-- A process with the bounds `lo` and `hi` of its call (`begin` and `end`) and the two kids
it forked. A kid that ended stays with its own kids, which may outlive it. -/
inductive Process
  | absent
  | node (point : Point) (lo hi : ℕ) (leftkid rightkid : Process)
  deriving DecidableEq

/-- What `waitpid` reports about a kid; it blocks until there is a status. -/
def Process.status? : Process → Option Status
  | .node (.ended status) _ _ _ _ => some status
  | _ => none

inductive Action
  | run
  /-- The pending system call fails. -/
  | syscallFails
  /-- A signal ends the process; inside `qsort` the range is left as `torn`. -/
  | kill (torn : List Int64)
  deriving DecidableEq

abbrev State := List Int64 × Process

def probSize (lo hi : ℕ) : ℕ := toUInt64 ((hi : ℤ) - lo)

/-- `(end + begin) / 2` in `size_t` arithmetic. -/
def midpoint (lo hi : ℕ) : ℕ := toUInt64 ((hi : ℤ) + lo) / 2

/-- The first index of the right kid, `begin + prob_size/2`. -/
def rightBegin (lo hi : ℕ) : ℕ := toUInt64 ((lo : ℤ) + (probSize lo hi / 2 : ℕ))

/-- A round of the merge loop: the stored value and the cursors after it. -/
def mergeRound (arr : List Int64) (endl endr left right : ℕ) : Option (Int64 × ℕ × ℕ) := do
  if left ≥ endl then return (← arr[right]?, left, right + 1)
  else if right ≥ endr then return (← arr[left]?, left + 1, right)
  else
    let x ← arr[left]?
    let y ← arr[right]?
    if compareI64 x y ≤ 0 then return (x, left + 1, right) else return (y, left, right + 1)

section Moves
variable (qsort : (Int64 → Int64 → ℤ) → List Int64 → List Int64) (threshold : ℕ)

/-- A call before it forks: a small range is sorted in place. -/
def enter (arr : List Int64) (lo hi : ℕ) (leftkid rightkid : Process) : Option State :=
  let n := probSize lo hi
  if n ≤ threshold then
    if lo + n ≤ arr.length then
      some (overwrite arr lo (qsort compareI64 (segment arr lo (lo + n))),
        .node .returned lo hi leftkid rightkid)
    else none
  else if hi > lo then
    some (arr, .node .forked lo hi (.node .entry lo (midpoint lo hi) .absent .absent) rightkid)
  else some (arr, .node .returned lo hi leftkid rightkid)

/-- The next move of a process itself; `kid` says whether the call was made in a kid, which
exits when the call returns. -/
def act (kid : Bool) (arr : List Int64) : Process → Option State
  | .absent => none
  | .node point lo hi leftkid rightkid =>
      let goto (point : Point) : State := (arr, .node point lo hi leftkid rightkid)
      let exit (code : ℤ) : State := goto (.ended (.exited (BitVec.ofInt 8 code)))
      let n := probSize lo hi
      match point with
      | .entry => enter qsort threshold arr lo hi leftkid rightkid
      | .forked =>
          some (arr, .node .waiting lo hi leftkid
            (.node .entry (rightBegin lo hi) hi .absent .absent))
      | .waiting =>
          match leftkid.status? with
          | none => none
          | some .signaled => some (exit (-3))
          | some (.exited code) => some (if code ≠ 0 then exit (-4) else goto .waitingRight)
      | .waitingRight =>
          match rightkid.status? with
          | none => none
          | some .signaled => some (exit 3)
          | some (.exited code) =>
              some (if code ≠ 0 then exit 4 else goto (.merging lo (midpoint lo hi) []))
      | .merging left right temp =>
          if left ≥ midpoint lo hi ∧ right ≥ hi then some (goto (.copying temp 0))
          else do
            let (x, left, right) ← mergeRound arr (midpoint lo hi) hi left right
            if temp.length < n then some (goto (.merging left right (temp ++ [x]))) else none
      | .copying temp i =>
          -- The counter is an `int` in the source; here it is unbounded.
          if i < n then do
            let x ← temp[i]?
            if lo + i < arr.length then
              some (arr.set (lo + i) x, .node (.copying temp (i + 1)) lo hi leftkid rightkid)
            else none
          else some (goto .returned)
      | .returned => if kid then some (exit 0) else none
      | .ended _ => none

/-- The exit of a process whose next system call fails. -/
def actFailing (arr : List Int64) : Process → Option State
  | .absent => none
  | .node point lo hi leftkid rightkid =>
      let exit (code : ℤ) : State :=
        (arr, .node (.ended (.exited (BitVec.ofInt 8 code))) lo hi leftkid rightkid)
      match point with
      | .entry => if probSize lo hi > threshold ∧ hi > lo then some (exit (-1)) else none
      | .forked => some (exit 1)
      | .waiting => some (exit (-2))
      | .waitingRight => some (exit 2)
      | _ => none

/-- A signal ends a process. -/
def actKilled (arr torn : List Int64) : Process → Option State
  | .absent => none
  | .node point lo hi leftkid rightkid =>
      let killed : Process := .node (.ended .signaled) lo hi leftkid rightkid
      match point with
      | .ended _ => none
      | .entry =>
          if probSize lo hi ≤ threshold ∧ torn.length = probSize lo hi then
            some (overwrite arr lo torn, killed)
          else some (arr, killed)
      | _ => some (arr, killed)

/-- A move of the process at the end of a path through the tree, `true` to the left kid. -/
def move (action : Action) : Bool → List Bool → List Int64 → Process → Option State
  | kid, [], arr, p =>
      match action with
      | .run => act qsort threshold kid arr p
      | .syscallFails => actFailing threshold arr p
      | .kill torn => actKilled threshold arr torn p
  | _, _ :: _, _, .absent => none
  | _, true :: path, arr, .node point lo hi leftkid rightkid =>
      (move action true path arr leftkid).map fun (arr, leftkid) =>
        (arr, .node point lo hi leftkid rightkid)
  | _, false :: path, arr, .node point lo hi leftkid rightkid =>
      (move action true path arr rightkid).map fun (arr, rightkid) =>
        (arr, .node point lo hi leftkid rightkid)

/-- The state after a schedule of moves without failures. -/
def run (s : State) : List (List Bool) → Option State
  | [] => some s
  | path :: schedule => (move qsort threshold .run false path s.1 s.2).bind (run · schedule)

end Moves

/-- A call of `merge_sort` that has not begun. -/
def mergeSort (arr : List Int64) (lo hi : ℕ) : State := (arr, .node .entry lo hi .absent .absent)

end CsfAssignments.Parsort
