import Mathlib.Data.Finset.Card
import Mathlib.Logic.Function.Basic

/-!
# Counting the threads at given points

Of the threads of a program finitely many are at points with a property. A move of one
thread changes that number by at most one.
-/

namespace CsfAssignments.ThreadCounting

variable {T P : Type*}

/-- Exactly `n` threads are at a point with the property. -/
def Counted (f : P → Bool) (point : T → P) (n : ℕ) : Prop :=
  ∃ W : Finset T, (∀ t, t ∈ W ↔ f (point t) = true) ∧ W.card = n

variable {f : P → Bool} {point : T → P} {n : ℕ} {t : T} {q : P}

theorem Counted.pos (h : Counted f point n) (ht : f (point t) = true) : 0 < n := by
  obtain ⟨W, hW, rfl⟩ := h
  exact Finset.card_pos.mpr ⟨t, (hW t).mpr ht⟩

variable [DecidableEq T]

private theorem Counted.leave (h : Counted f point n) (hq : f q = false) :
    Counted f (Function.update point t q) (n - (f (point t)).toNat) := by
  obtain ⟨W, hW, rfl⟩ := h
  refine ⟨W.erase t, fun u => ?_, ?_⟩
  · by_cases hu : u = t
    · simp [hu, hq]
    · rw [Function.update_of_ne hu, Finset.mem_erase, hW]
      simp [hu]
  · cases ht : f (point t) with
    | true => exact Finset.card_erase_of_mem ((hW t).mpr ht)
    | false =>
      have hnot : t ∉ W := fun hm => Bool.false_ne_true (ht.symm.trans ((hW t).mp hm))
      rw [Finset.erase_eq_of_notMem hnot]
      rfl

private theorem Counted.enter (h : Counted f point n) (hq : f q = true) :
    Counted f (Function.update point t q) (n + 1 - (f (point t)).toNat) := by
  obtain ⟨W, hW, rfl⟩ := h
  refine ⟨insert t W, fun u => ?_, ?_⟩
  · by_cases hu : u = t
    · simp [hu, hq]
    · rw [Function.update_of_ne hu, Finset.mem_insert, hW]
      simp [hu]
  · cases ht : f (point t) with
    | true =>
      rw [Finset.insert_eq_of_mem ((hW t).mpr ht)]
      rfl
    | false =>
      have hnot : t ∉ W := fun hm => Bool.false_ne_true (ht.symm.trans ((hW t).mp hm))
      rw [Finset.card_insert_of_notMem hnot]
      rfl

/-- A move counts the new point of its thread in place of the old one. -/
theorem Counted.move (h : Counted f point n) (t : T) (q : P) :
    Counted f (Function.update point t q) (n + (f q).toNat - (f (point t)).toNat) := by
  cases hq : f q with
  | true => exact h.enter hq
  | false => exact h.leave hq

end CsfAssignments.ThreadCounting
