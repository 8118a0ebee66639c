import Mathlib.Data.List.Basic

/-!
# Reorderings of actions with keys

Actions with different keys may change places and actions with the same key may not. Two sequences
are reorderings of each other exactly when they have the same actions under every key in the same
order, and steps that commute for different keys lead to the same state along both.
-/

namespace CsfAssignments.Reorderings

variable {α κ σ : Type*} {key : α → κ} {l l' : List α}

/-- Neighbours with different keys are swapped, any number of times. -/
inductive Reordered (key : α → κ) : List α → List α → Prop
  | nil : Reordered key [] []
  | cons (a : α) {l l' : List α} : Reordered key l l' → Reordered key (a :: l) (a :: l')
  | swap (a b : α) (l : List α) : key a ≠ key b → Reordered key (a :: b :: l) (b :: a :: l)
  | trans {l₁ l₂ l₃ : List α} : Reordered key l₁ l₂ → Reordered key l₂ l₃ → Reordered key l₁ l₃

theorem Reordered.refl (key : α → κ) (l : List α) : Reordered key l l := by
  induction l with
  | nil => exact .nil
  | cons a l ih => exact .cons a ih

/-- An action moves behind actions with other keys. -/
theorem Reordered.move {a : α} {u : List α} (hu : ∀ b ∈ u, key b ≠ key a) (v : List α) :
    Reordered key (a :: (u ++ v)) (u ++ a :: v) := by
  induction u with
  | nil => exact .refl key _
  | cons b u ih =>
    rw [List.forall_mem_cons] at hu
    exact .trans (.swap a b (u ++ v) hu.1.symm) (.cons b (ih hu.2))

theorem Reordered.filter_eq [DecidableEq κ] (h : Reordered key l l') (k : κ) :
    l.filter (fun a => key a = k) = l'.filter (fun a => key a = k) := by
  induction h with
  | nil => rfl
  | cons a h ih => rw [List.filter_cons, List.filter_cons, ih]
  | swap a b l hab =>
    by_cases ha : key a = k
    · have hb : key b ≠ k := fun hb => hab (ha.trans hb.symm)
      simp [ha, hb]
    · simp [List.filter_cons, ha]
  | trans h h' ih ih' => exact ih.trans ih'

/-- The same actions in the same order under every key. -/
theorem reordered_iff_filter_eq [DecidableEq κ] : Reordered key l l' ↔
    ∀ k, l.filter (fun a => key a = k) = l'.filter (fun a => key a = k) := by
  refine ⟨Reordered.filter_eq, fun h => ?_⟩
  induction l generalizing l' with
  | nil =>
    cases l' with
    | nil => exact .nil
    | cons b l' => simpa using h (key b)
  | cons a l ih =>
    -- the first action under the key of `a` is `a` in both
    have ha := h (key a)
    rw [List.filter_cons_of_pos (by simp)] at ha
    obtain ⟨u, v, rfl, hu, -, hv⟩ := List.filter_eq_cons_iff.mp ha.symm
    have hother : ∀ b ∈ u, key b ≠ key a := by simpa using hu
    refine .trans (.cons a (ih fun k => ?_)) (.move hother v)
    rw [List.filter_append]
    by_cases hk : k = key a
    · subst hk
      rw [List.filter_eq_nil_iff.mpr hu, List.nil_append, hv]
    · have hkey := h k
      rwa [List.filter_cons_of_neg (by simpa using Ne.symm hk), List.filter_append,
        List.filter_cons_of_neg (by simpa using Ne.symm hk)] at hkey

/-- Steps that commute for different keys make the same state of reordered actions. -/
theorem Reordered.foldr_eq {step : α → σ → σ}
    (hcomm : ∀ a b s, key a ≠ key b → step a (step b s) = step b (step a s))
    (h : Reordered key l l') (s : σ) : l.foldr step s = l'.foldr step s := by
  induction h with
  | nil => rfl
  | cons a h ih => rw [List.foldr_cons, List.foldr_cons, ih]
  | swap a b l hab =>
    rw [List.foldr_cons, List.foldr_cons, List.foldr_cons, List.foldr_cons, hcomm a b _ hab]
  | trans h h' ih ih' => exact ih.trans ih'

end CsfAssignments.Reorderings
