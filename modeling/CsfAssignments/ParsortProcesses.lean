import CsfAssignments.ParsortRanges

/-!
# How many processes the sort forks

Every call that forks has a range larger than the threshold, and halves it. So the number of
processes of a tree, whether they are running or have ended, and their depth are bounded by the
size of the range and the threshold alone.
-/

namespace CsfAssignments.Parsort

/-- The processes of a tree, with those that have ended. -/
def Process.count : Process → ℕ
  | .absent => 0
  | .node _ _ _ leftkid rightkid => leftkid.count + rightkid.count + 1

variable {qsort : (Int64 → Int64 → ℤ) → List Int64 → List Int64} {threshold : ℕ}
  {lo hi : ℕ} {p : Process}

/-- The halves of a range larger than the threshold. -/
private theorem half_size (hlarge : threshold < hi - lo) :
    (threshold + 1) / 2 ≤ half lo hi - lo ∧ (threshold + 1) / 2 ≤ hi - half lo hi ∧
      2 * (half lo hi - lo) ≤ hi - lo ∧ 2 * (hi - half lo hi) ≤ hi - lo + 1 ∧
      half lo hi - lo + (hi - half lo hi) = hi - lo := by
  rw [half]
  omega

/-- A call on a range that is not larger than the threshold stays alone. -/
private theorem Divided.count_small (h : Divided threshold lo hi p) (hsmall : hi - lo ≤ threshold) :
    p.count ≤ 1 := by
  cases p with
  | absent => exact Nat.zero_le 1
  | node point lo' hi' leftkid rightkid =>
    obtain ⟨-, -, -, -, hlarge, -⟩ := h
    have hnone : ¬(leftkid ≠ .absent ∨ rightkid ≠ .absent) := fun hkid =>
      absurd (hlarge hkid) (not_lt.mpr hsmall)
    rw [not_or, not_not, not_not] at hnone
    obtain ⟨rfl, rfl⟩ := hnone
    exact le_refl 1

/-- Every kid takes at least half of what is larger than the threshold. -/
private theorem Divided.count_le (h : Divided threshold lo hi p)
    (hroom : (threshold + 1) / 2 ≤ hi - lo) :
    p.count * ((threshold + 1) / 2) + (threshold + 1) / 2 ≤ 2 * (hi - lo) := by
  induction p generalizing lo hi with
  | absent =>
    rw [Process.count]
    omega
  | node point lo' hi' leftkid rightkid ihleft ihright =>
    by_cases hlarge : threshold < hi - lo
    · obtain ⟨-, -, hleft, hright, -⟩ := h
      obtain ⟨hlow, hhigh, -, -, hsum⟩ := half_size hlarge
      have hl := ihleft hleft hlow
      have hr := ihright hright hhigh
      rw [Process.count, Nat.add_mul, Nat.add_mul]
      omega
    · have hone := h.count_small (not_lt.mp hlarge)
      have hmul := Nat.mul_le_mul_right ((threshold + 1) / 2) hone
      omega

/-- A call at a depth has halved its range as often. -/
private theorem Divided.depth_lt (h : Divided threshold lo hi p) {side : Bool} {path : List Bool}
    (hpath : p.descendant (side :: path) ≠ .absent) :
    threshold * 2 ^ path.length < hi - lo := by
  induction path generalizing lo hi p side with
  | nil =>
    cases p with
    | absent => exact absurd (Process.descendant_absent _) hpath
    | node point lo' hi' leftkid rightkid =>
      obtain ⟨-, -, -, -, hlarge, -⟩ := h
      have hkid : leftkid ≠ .absent ∨ rightkid ≠ .absent := by
        cases side with
        | true => exact .inl hpath
        | false => exact .inr hpath
      simpa using hlarge hkid
  | cons side' path ih =>
    cases p with
    | absent => exact absurd (Process.descendant_absent _) hpath
    | node point lo' hi' leftkid rightkid =>
      obtain ⟨rfl, rfl, hleft, hright, hlarge, -⟩ := h
      have hdeep : threshold * 2 ^ path.length < hi' - half lo' hi' ∨
          threshold * 2 ^ path.length < half lo' hi' - lo' := by
        cases side with
        | true => exact .inr (ih hleft hpath)
        | false => exact .inl (ih hright hpath)
      rw [List.length_cons, pow_succ, ← Nat.mul_assoc]
      rw [half] at hdeep
      omega

/-- The sort forks few processes. In every run, also one in which system calls fail and signals
end processes, a call on `n` elements has a tree of at most `2 * n / m - 1` processes, where `m` is
half of the threshold, rounded up, and a process at depth `d` only if `n` is more than
`2 ^ (d - 1)` times the threshold. -/
theorem processes_bounded {lo hi : ℕ} (hle : lo ≤ hi) (hsize : hi < 2 ^ 61)
    {arr arr' : List Int64} {p : Process} {schedule : List (Action × List Bool)}
    (hrun : runFailing qsort threshold (mergeSort arr lo hi) schedule = some (arr', p)) :
    (hi - lo ≤ threshold → p.count ≤ 1) ∧
      (threshold < hi - lo →
        (p.count + 1) * ((threshold + 1) / 2) ≤ 2 * (hi - lo)) ∧
      ∀ side path, p.descendant (side :: path) ≠ .absent →
        threshold * 2 ^ path.length < hi - lo := by
  have h : Divided threshold lo hi p := runFailing_divided hle hsize (.entry lo hi) hrun
  refine ⟨h.count_small, fun hlarge => ?_, fun side path hpath => h.depth_lt hpath⟩
  have hcount := h.count_le (by omega)
  rwa [Nat.add_mul, Nat.one_mul]

theorem processes_bounded_two :
    (Process.node .forked 0 2 (.node .entry 0 1 .absent .absent) .absent).count + 1 ≤ 4 := by
  have hrun : runFailing sortBy 1 (mergeSort [2, 1] 0 2) [(.run, [])] =
      some ([2, 1], .node .forked 0 2 (.node .entry 0 1 .absent .absent) .absent) := by
    decide +kernel
  simpa using (processes_bounded (Nat.zero_le 2) (by decide) hrun).2.1 (by decide)

end CsfAssignments.Parsort
