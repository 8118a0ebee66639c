import CsfAssignments.ParsortModel

/-!
# Steps of a process

What a process can do to the array and to itself when nothing fails, one case for each place in
the code. The invariants of the process tree are proved from these cases.
-/

namespace CsfAssignments.Parsort
open ListSegments

section Steps
variable (qsort : (Int64 → Int64 → ℤ) → List Int64 → List Int64) (threshold : ℕ) (kid : Bool)
  (arr : List Int64) (lo hi : ℕ) (leftkid rightkid : Process)

/-- The array and the process after a move of a call with these bounds and kids. -/
inductive Step : Point → List Int64 → Process → Prop
  | sorts : probSize lo hi ≤ threshold → lo + probSize lo hi ≤ arr.length →
      Step .entry (overwrite arr lo (qsort compareI64 (segment arr lo (lo + probSize lo hi))))
        (.node .returned lo hi leftkid rightkid)
  | forks : threshold < probSize lo hi → lo < hi →
      Step .entry arr
        (.node .forked lo hi (.node .entry lo (midpoint lo hi) .absent .absent) rightkid)
  | skips : threshold < probSize lo hi → hi ≤ lo →
      Step .entry arr (.node .returned lo hi leftkid rightkid)
  | forksRight :
      Step .forked arr
        (.node .waiting lo hi leftkid (.node .entry (rightBegin lo hi) hi .absent .absent))
  | leftFails {status : Status} {code : BitVec 8} : leftkid.status? = some status →
      status ≠ .exited 0 → code ≠ 0 →
      Step .waiting arr (.node (.ended (.exited code)) lo hi leftkid rightkid)
  | leftExits : leftkid.status? = some (.exited 0) →
      Step .waiting arr (.node .waitingRight lo hi leftkid rightkid)
  | rightFails {status : Status} {code : BitVec 8} : rightkid.status? = some status →
      status ≠ .exited 0 → code ≠ 0 →
      Step .waitingRight arr (.node (.ended (.exited code)) lo hi leftkid rightkid)
  | rightExits : rightkid.status? = some (.exited 0) →
      Step .waitingRight arr (.node (.merging lo (midpoint lo hi) []) lo hi leftkid rightkid)
  | merged {left right : ℕ} {temp : List Int64} : midpoint lo hi ≤ left → hi ≤ right →
      Step (.merging left right temp) arr (.node (.copying temp 0) lo hi leftkid rightkid)
  | merges {left right left' right' : ℕ} {temp : List Int64} {x : Int64} :
      ¬(midpoint lo hi ≤ left ∧ hi ≤ right) →
      mergeRound arr (midpoint lo hi) hi left right = some (x, left', right') →
      temp.length < probSize lo hi →
      Step (.merging left right temp) arr
        (.node (.merging left' right' (temp ++ [x])) lo hi leftkid rightkid)
  | copies {temp : List Int64} {i : ℕ} {x : Int64} : i < probSize lo hi → temp[i]? = some x →
      lo + i < arr.length →
      Step (.copying temp i) (arr.set (lo + i) x)
        (.node (.copying temp (i + 1)) lo hi leftkid rightkid)
  | copied {temp : List Int64} {i : ℕ} : probSize lo hi ≤ i →
      Step (.copying temp i) arr (.node .returned lo hi leftkid rightkid)
  | exits : kid = true → Step .returned arr (.node (.ended (.exited 0)) lo hi leftkid rightkid)

end Steps

variable {qsort : (Int64 → Int64 → ℤ) → List Int64 → List Int64} {threshold : ℕ} {kid : Bool}
  {arr arr' : List Int64} {lo hi : ℕ} {leftkid rightkid p' : Process} {point : Point}

/-- A move of a process is a step at its point. -/
theorem act_step
    (hmove : act qsort threshold kid arr (.node point lo hi leftkid rightkid) = some (arr', p')) :
    Step qsort threshold kid arr lo hi leftkid rightkid point arr' p' := by
  cases point with
  | entry =>
    simp only [act, enter] at hmove
    split_ifs at hmove with hsmall hroom hpos
    · cases hmove
      exact .sorts hsmall hroom
    · cases hmove
      exact .forks (not_le.mp hsmall) hpos
    · cases hmove
      exact .skips (not_le.mp hsmall) (not_lt.mp hpos)
  | forked =>
    cases hmove
    exact .forksRight
  | waiting =>
    simp only [act] at hmove
    split at hmove
    · cases hmove
    · rename_i hstatus
      cases hmove
      exact .leftFails hstatus (by decide) (by decide)
    · rename_i code hstatus
      split_ifs at hmove with hcode
      · cases hmove
        exact .leftFails hstatus (fun h => hcode (Status.exited.inj h)) (by decide)
      · cases hmove
        exact .leftExits (not_not.mp hcode ▸ hstatus)
  | waitingRight =>
    simp only [act] at hmove
    split at hmove
    · cases hmove
    · rename_i hstatus
      cases hmove
      exact .rightFails hstatus (by decide) (by decide)
    · rename_i code hstatus
      split_ifs at hmove with hcode
      · cases hmove
        exact .rightFails hstatus (fun h => hcode (Status.exited.inj h)) (by decide)
      · cases hmove
        exact .rightExits (not_not.mp hcode ▸ hstatus)
  | merging left right temp =>
    simp only [act] at hmove
    by_cases hdone : left ≥ midpoint lo hi ∧ right ≥ hi
    · rw [if_pos hdone] at hmove
      cases hmove
      exact .merged hdone.1 hdone.2
    · rw [if_neg hdone] at hmove
      obtain ⟨⟨x, left', right'⟩, hround, hstore⟩ := Option.bind_eq_some_iff.mp hmove
      dsimp only at hstore
      split_ifs at hstore with hroom
      cases hstore
      exact .merges hdone hround hroom
  | copying temp i =>
    simp only [act] at hmove
    by_cases hlt : i < probSize lo hi
    · rw [if_pos hlt] at hmove
      obtain ⟨x, hget, hstore⟩ := Option.bind_eq_some_iff.mp hmove
      split_ifs at hstore with hroom
      cases hstore
      exact .copies hlt hget hroom
    · rw [if_neg hlt] at hmove
      cases hmove
      exact .copied (not_lt.mp hlt)
  | returned =>
    simp only [act] at hmove
    split_ifs at hmove with hkid
    cases hmove
    exact .exits hkid
  | ended status => cases hmove

end CsfAssignments.Parsort
