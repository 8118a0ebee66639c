import Mathlib.Data.List.Basic

/-!
# Transducers

A transducer reads a sequence of inputs and gives one output for each of them, which depends on the
inputs before it through a state.
-/

namespace CsfAssignments.Transducers

structure Transducer (σ α β : Type*) where
  start : σ
  next : σ → α → σ
  output : σ → α → β

namespace Transducer

variable {σ α β : Type*} (M : Transducer σ α β)

/-- The state after a sequence of inputs. -/
def state (inputs : List α) : σ := inputs.foldl M.next M.start

def outputsFrom : σ → List α → List β
  | _, [] => []
  | s, a :: inputs => M.output s a :: outputsFrom (M.next s a) inputs

/-- The outputs for a sequence of inputs. -/
def outputs (inputs : List α) : List β := M.outputsFrom M.start inputs

@[simp] theorem state_nil : M.state [] = M.start := rfl

@[simp] theorem outputs_nil : M.outputs [] = [] := rfl

@[simp] theorem state_concat (inputs : List α) (a : α) :
    M.state (inputs ++ [a]) = M.next (M.state inputs) a := by
  rw [state, List.foldl_append]
  rfl

theorem outputsFrom_concat (s : σ) (inputs : List α) (a : α) :
    M.outputsFrom s (inputs ++ [a]) =
      M.outputsFrom s inputs ++ [M.output (inputs.foldl M.next s) a] := by
  induction inputs generalizing s with
  | nil => rfl
  | cons b inputs ih => rw [List.cons_append, outputsFrom, ih, outputsFrom]; rfl

/-- The last output is that in the state before it. -/
@[simp] theorem outputs_concat (inputs : List α) (a : α) :
    M.outputs (inputs ++ [a]) = M.outputs inputs ++ [M.output (M.state inputs) a] :=
  M.outputsFrom_concat M.start inputs a

/-- One output for every input. -/
@[simp] theorem length_outputs (inputs : List α) : (M.outputs inputs).length = inputs.length := by
  rw [outputs]
  generalize M.start = s
  induction inputs generalizing s with
  | nil => rfl
  | cons a inputs ih => rw [outputsFrom, List.length_cons, List.length_cons, ih]

end Transducer
end CsfAssignments.Transducers
