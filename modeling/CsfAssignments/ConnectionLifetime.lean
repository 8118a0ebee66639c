import CsfAssignments.ServerDescriptors

/-!
# The lifetime of a connection

`Connection` calls `::close` in `close` and in its destructor, each time if its last operation has
not met the end of the file or an error. No flag remembers a call of `close`, so the descriptor may
be closed by both or by neither.
-/

namespace CsfAssignments.Chat

namespace Connection

/-- A call of a member function. -/
inductive Call where
  | send (msg : Message)
  | receive (msg : Message)
  | close

/-- A call as seen from outside: the outcome of an operation, or an explicit `close`. -/
inductive Use where
  | operation (result : Result)
  | close

/-- The connection behind a call. -/
def after (conn : Connection) : Call → Connection
  | .send msg => (conn.send msg).2
  | .receive msg => (conn.receive msg).2.2
  | .close => conn

def use (conn : Connection) : Call → Use
  | .send msg => .operation (conn.send msg).2.lastResult
  | .receive msg => .operation (conn.receive msg).2.2.lastResult
  | .close => .close

def uses : Connection → List Call → List Use
  | _, [] => []
  | conn, call :: calls => conn.use call :: (conn.after call).uses calls

end Connection

open Connection

/-- A connection on an open descriptor, and how often `::close` was called on it. -/
structure Lifetime where
  conn : Connection
  closes : ℕ

namespace Lifetime

def close (life : Lifetime) : Lifetime :=
  if life.conn.isOpen then { life with closes := life.closes + 1 } else life

def call (life : Lifetime) : Call → Lifetime
  | .send msg => { life with conn := (life.conn.send msg).2 }
  | .receive msg => { life with conn := (life.conn.receive msg).2.2 }
  | .close => life.close

/-- The destructor. -/
def destroy (life : Lifetime) : Lifetime := if life.conn.isOpen then life.close else life

/-- All calls, followed by the destructor. -/
def run (conn : Connection) (calls : List Call) : Lifetime :=
  (calls.foldl call ⟨conn, 0⟩).destroy

end Lifetime

section Uses

/-- The outcome of the last operation, behind one with the given outcome. -/
def latest : Result → List Use → Result
  | result, [] => result
  | _, .operation result :: uses => latest result uses
  | result, .close :: uses => latest result uses

/-- Every explicit `close` comes when the last operation has met the end of the file or an
error. -/
def Idle (result : Result) (uses : List Use) : Prop :=
  ∀ before behind, uses = before ++ .close :: behind → latest result before = .eofOrError

/-- Either every explicit `close` comes behind an end of the file or an error and the last
operation has not met one, or all but one come so and the last operation has met one. -/
def ClosesOnce (result : Result) (uses : List Use) : Prop :=
  (latest result uses ≠ .eofOrError ∧ Idle result uses) ∨
    (latest result uses = .eofOrError ∧ ∃ before behind, uses = before ++ .close :: behind ∧
      latest result before ≠ .eofOrError ∧ Idle result before ∧
      Idle (latest result before) behind)

/-- The number of explicit calls of `close` that find the connection open. -/
def openCloses : Result → List Use → ℕ
  | _, [] => 0
  | _, .operation result :: uses => openCloses result uses
  | result, .close :: uses => (if result = .eofOrError then 0 else 1) + openCloses result uses

variable {result : Result}

theorem openCloses_append (result : Result) (uses more : List Use) :
    openCloses result (uses ++ more) =
      openCloses result uses + openCloses (latest result uses) more := by
  induction uses generalizing result with
  | nil => simp [openCloses, latest]
  | cons use uses ih =>
    cases use with
    | operation outcome => exact ih outcome
    | close => rw [List.cons_append, openCloses, openCloses, ih, Nat.add_assoc, latest]

theorem openCloses_eq_zero_iff {uses : List Use} :
    openCloses result uses = 0 ↔ Idle result uses := by
  constructor
  · rintro hzero before behind rfl
    by_contra hopen
    rw [openCloses_append, openCloses, if_neg hopen] at hzero
    omega
  · intro hidle
    induction uses generalizing result with
    | nil => rfl
    | cons use uses ih =>
      cases use with
      | operation outcome =>
        exact ih fun before behind h => hidle (.operation outcome :: before) behind (by rw [h]; rfl)
      | close =>
        have hclosed : result = .eofOrError := hidle [] uses rfl
        rw [openCloses, if_pos hclosed, Nat.zero_add]
        exact ih fun before behind h => hidle (.close :: before) behind (by rw [h]; rfl)

/-- With a call that finds the connection open, there is a first one. -/
theorem openCloses_eq_one_iff {uses : List Use} :
    openCloses result uses = 1 ↔ ∃ before behind, uses = before ++ .close :: behind ∧
      latest result before ≠ .eofOrError ∧ Idle result before ∧
      Idle (latest result before) behind := by
  constructor
  · intro hone
    have hopen : ¬Idle result uses := fun hidle => by
      rw [openCloses_eq_zero_iff.mpr hidle] at hone
      cases hone
    obtain ⟨before, behind, rfl, hne⟩ : ∃ before behind, uses = before ++ .close :: behind ∧
        latest result before ≠ .eofOrError := by
      simpa [Idle] using hopen
    rw [openCloses_append, openCloses, if_neg hne] at hone
    exact ⟨before, behind, rfl, hne, openCloses_eq_zero_iff.mp (by omega),
      openCloses_eq_zero_iff.mp (by omega)⟩
  · rintro ⟨before, behind, rfl, hne, hbefore, hbehind⟩
    rw [openCloses_append, openCloses, if_neg hne, openCloses_eq_zero_iff.mpr hbefore,
      openCloses_eq_zero_iff.mpr hbehind]

end Uses

section Run

theorem isOpen_iff {conn : Connection} : conn.isOpen = true ↔ conn.lastResult ≠ .eofOrError :=
  decide_eq_true_iff

/-- Every explicit call of `close` that finds the connection open closes the descriptor. -/
theorem Lifetime.foldl_call (calls : List Call) (life : Lifetime) :
    (calls.foldl call life).closes =
        life.closes + openCloses life.conn.lastResult (life.conn.uses calls) ∧
      (calls.foldl call life).conn.lastResult =
        latest life.conn.lastResult (life.conn.uses calls) := by
  induction calls generalizing life with
  | nil => exact ⟨rfl, rfl⟩
  | cons c calls ih =>
    obtain ⟨hcloses, hlatest⟩ := ih (life.call c)
    rw [List.foldl_cons, hcloses, hlatest]
    cases c with
    | send msg => exact ⟨rfl, rfl⟩
    | receive msg => exact ⟨rfl, rfl⟩
    | close =>
      have hconn : life.close.conn = life.conn := by
        rw [Lifetime.close]
        split_ifs <;> rfl
      have hclose : life.close.closes =
          life.closes + if life.conn.lastResult = .eofOrError then 0 else 1 := by
        rw [Lifetime.close]
        by_cases hopen : life.conn.lastResult = .eofOrError <;> simp [isOpen_iff, hopen]
      rw [Lifetime.call, hconn, hclose, Nat.add_assoc]
      exact ⟨rfl, rfl⟩

theorem Lifetime.run_closes (conn : Connection) (calls : List Call) :
    (run conn calls).closes = openCloses conn.lastResult (conn.uses calls) +
      if latest conn.lastResult (conn.uses calls) = .eofOrError then 0 else 1 := by
  obtain ⟨hcloses, hlatest⟩ := Lifetime.foldl_call calls ⟨conn, 0⟩
  rw [Nat.zero_add] at hcloses
  rw [← hcloses, ← hlatest, run, Lifetime.destroy, Lifetime.close]
  by_cases hopen : (calls.foldl call ⟨conn, 0⟩).conn.lastResult = .eofOrError <;>
    simp [isOpen_iff, hopen]

/-- The destructor frees the entry of the descriptor in the table of the process exactly when it
calls `::close`. -/
theorem destroyConnection_files {p : Process} {w : Worker} {fd : ℕ} (hfd : p.fd w = some fd) :
    (p.destroyConnection w).files =
      if (Lifetime.destroy ⟨p.server.conn w, 0⟩).closes = 0 then p.files
      else Function.update p.files fd none := by
  cases hopen : (p.server.conn w).isOpen <;>
    simp [Process.destroyConnection, Process.close, Lifetime.destroy, Lifetime.close, hopen, hfd]

end Run

/-- The descriptor of a new connection is closed exactly once by calls of its member functions and
the destructor if either every explicit `close` comes behind an end of the file or an error and the
last operation has not met one, or one `close` does not come so and the last operation has. -/
theorem closed_once_iff {conn : Connection} (hnew : conn.lastResult = .success)
    (calls : List Call) :
    (Lifetime.run conn calls).closes = 1 ↔ ClosesOnce .success (conn.uses calls) := by
  rw [Lifetime.run_closes, hnew, ClosesOnce, ← openCloses_eq_zero_iff, ← openCloses_eq_one_iff]
  split_ifs with hend <;> simp [hend]

/-- A connection whose peer has closed its end. -/
def endedConnection : Connection := ⟨⟨[], []⟩, ⟨[], []⟩, .success⟩

theorem closed_once_after_send :
    (Lifetime.run endedConnection [.send ok]).closes = 1 ↔
      ClosesOnce .success (endedConnection.uses [.send ok]) :=
  closed_once_iff rfl [.send ok]

/-- A `receive` that meets the end of the file keeps the destructor from closing, and the destructor
closes again behind an explicit `close`. -/
theorem closed_never_and_twice :
    (Lifetime.run endedConnection [.receive ⟨[], []⟩]).closes = 0 ∧
      (Lifetime.run endedConnection [.close]).closes = 2 ∧
      ¬∀ (conn : Connection) (calls : List Call), conn.lastResult = .success →
        (Lifetime.run conn calls).closes = 1 :=
  ⟨by decide, by decide, fun h => absurd (h endedConnection [.close] rfl) (by decide)⟩

end CsfAssignments.Chat
