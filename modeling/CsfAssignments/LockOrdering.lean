import Mathlib.Logic.Relation
import Mathlib.Order.Basic

/-!
# Lock ordering

Threads hold locks and want locks. If the locks have ranks and every thread wants only locks above
those it holds, no thread waits for itself along any chain of threads, and one that holds a lock
can go on.
-/

namespace CsfAssignments.LockOrdering

variable {Thread Lock Rank : Type*}

/-- A thread is blocked on a lock that another one holds. -/
def WaitsFor (wants holds : Thread → Lock → Prop) (t u : Thread) : Prop :=
  ∃ l, wants t l ∧ holds u l

/-- Every thread wants only locks above those it holds. -/
def Ordered [LT Rank] (rank : Lock → Rank) (wants holds : Thread → Lock → Prop) : Prop :=
  ∀ t l l', wants t l → holds t l' → rank l' < rank l

variable [Preorder Rank] {rank : Lock → Rank} {wants holds : Thread → Lock → Prop} {t u : Thread}

/-- The ranks do not fall along a chain of waiting threads. -/
theorem Ordered.rank_le (h : Ordered rank wants holds)
    (hchain : Relation.TransGen (WaitsFor wants holds) t u) :
    ∃ l l', wants t l ∧ holds u l' ∧ rank l ≤ rank l' := by
  induction hchain with
  | single hwait =>
    obtain ⟨l, hwants, hholds⟩ := hwait
    exact ⟨l, l, hwants, hholds, le_rfl⟩
  | @tail u v _ hwait ih =>
    obtain ⟨l, l', hwants, hholds, hle⟩ := ih
    obtain ⟨m, hwants', hholds'⟩ := hwait
    exact ⟨l, m, hwants, hholds', hle.trans (h u m l' hwants' hholds).le⟩

theorem Ordered.acyclic (h : Ordered rank wants holds) (t : Thread) :
    ¬Relation.TransGen (WaitsFor wants holds) t t := by
  intro hcycle
  obtain ⟨l, l', hwants, hholds, hle⟩ := h.rank_le hcycle
  exact (h t l l' hwants hholds).not_ge hle

/-- If the ranks are bounded and a lock is held, some thread that holds a lock wants no lock that is
held. -/
theorem Ordered.exists_unblocked {rank : Lock → ℕ} (h : Ordered rank wants holds) {bound : ℕ}
    (hbound : ∀ l, rank l ≤ bound) {l : Lock} (hholds : holds t l) :
    ∃ u m, holds u m ∧ ∀ l', wants u l' → ∀ v, ¬holds v l' := by
  induction hdist : bound - rank l using Nat.strongRecOn generalizing t l with
  | ind dist ih =>
    by_cases hblocked : ∃ l' v, wants t l' ∧ holds v l'
    · obtain ⟨l', v, hwants, hholds'⟩ := hblocked
      have hlt := h t l' l hwants hholds
      have hle := hbound l'
      exact ih (bound - rank l') (by omega) hholds' rfl
    · exact ⟨t, l, hholds, fun l' hwants v hholds' => hblocked ⟨l', v, hwants, hholds'⟩⟩

end CsfAssignments.LockOrdering
