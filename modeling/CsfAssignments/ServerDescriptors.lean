import CsfAssignments.ServerMoves

/-!
# The descriptors of the server

`handle_client_requests` puts every accepted descriptor into a `Connection` and that into a
`ConnInfo`, whose destructor would delete the `Connection` and close the descriptor. The workers
delete their users only, so no descriptor of a client is ever closed.
-/

namespace CsfAssignments.Chat

/-- What an open descriptor refers to. -/
inductive File
  | other
  | client (w : Worker)
  deriving DecidableEq

/-- The server with its table of open descriptors and the `m_fd` of the connection of every
accepted client. -/
structure Process where
  server : Server
  files : ℕ → Option File
  fd : Worker → Option ℕ

/-- The objects on the heap that workers own. -/
inductive HeapObject
  | user (u : Worker)
  | connInfo (w : Worker)
  deriving DecidableEq

/-- What an operation of a worker deletes: on every way out of `worker`, the user alone. -/
def Operation.deletes (w : Worker) : Operation → List HeapObject
  | .deleteUser _ => [.user w]
  | _ => []

def Connection.isOpen (conn : Connection) : Bool := conn.lastResult ≠ .eofOrError

namespace Process

/-- `Connection::close`. -/
def close (p : Process) (w : Worker) : Process :=
  if (p.server.conn w).isOpen then
    match p.fd w with
    | some fd => { p with files := Function.update p.files fd none }
    | none => p
  else p

/-- The destructor of `Connection`. -/
def destroyConnection (p : Process) (w : Worker) : Process :=
  if (p.server.conn w).isOpen then p.close w else p

/-- The destructors. That of a user has no descriptor to close, and its memory is that of the
server. -/
def destroy (p : Process) : HeapObject → Process
  | .user _ => p
  | .connInfo w => p.destroyConnection w

/-- The server after it has bound its socket, with the files that are open by then. -/
def initial (conn : Worker → Connection) (files : ℕ → Option File) : Process where
  server := Server.initial conn
  files := files
  fd := fun _ => none

/-- A round of `handle_client_requests`. -/
def accept (p : Process) (w : Worker) (fd : ℕ) : Process :=
  { p with
    files := Function.update p.files fd (some (.client w))
    fd := Function.update p.fd w (some fd) }

/-- A move of the thread of an accepted client, with the destructors it runs. -/
def move (p : Process) (w : Worker) (choice : Choice) : Option Process :=
  if (p.fd w).isSome then
    (p.server.step w choice).map fun result =>
      ((code w (p.server.point w)).deletes w).foldl destroy { p with server := result.2 }
  else none

/-- Every descriptor of a client whose worker has returned was closed. -/
def Closed (p : Process) : Prop :=
  ∀ w fd, p.fd w = some fd → p.server.point w = .ended → p.files fd ≠ some (.client w)

end Process

/-- The states of the process. `accept` returns a descriptor that is not in use; a failure of
`pthread_create` ends the process. -/
inductive ProcessRun (conn : Worker → Connection) (files : ℕ → Option File) : Process → Prop
  | start : ProcessRun conn files (.initial conn files)
  | accept {p : Process} (w : Worker) (fd : ℕ) : ProcessRun conn files p → p.fd w = none →
      p.files fd = none → ProcessRun conn files (p.accept w fd)
  | move {p p' : Process} (w : Worker) (choice : Choice) : ProcessRun conn files p →
      p.move w choice = some p' → ProcessRun conn files p'

section Descriptors
variable {conn : Worker → Connection} {files : ℕ → Option File} {p p' : Process} {w : Worker}
  {choice : Choice}

/-- No operation deletes a `ConnInfo`, so the destructors close nothing. -/
theorem foldl_destroy_deletes (op : Operation) (p : Process) :
    (op.deletes w).foldl Process.destroy p = p := by
  cases op <;> rfl

/-- A move of a thread is a move of the server and leaves the descriptors alone. -/
theorem Process.move_eq (hmove : p.move w choice = some p') :
    ∃ es s', p.server.step w choice = some (es, s') ∧ p' = { p with server := s' } := by
  rw [Process.move] at hmove
  split_ifs at hmove
  obtain ⟨⟨es, s'⟩, hstep, rfl⟩ := Option.map_eq_some_iff.mp hmove
  exact ⟨es, s', hstep, foldl_destroy_deletes _ _⟩

/-- The server of a process runs as the server does. -/
theorem ProcessRun.run (hrun : ProcessRun conn files p) : ∃ events, Run conn events p.server := by
  induction hrun with
  | start => exact ⟨[], .start⟩
  | accept w fd _ _ _ ih => exact ih
  | move w choice _ hmove ih =>
    obtain ⟨es, s', hstep, rfl⟩ := Process.move_eq hmove
    obtain ⟨events, hevents⟩ := ih
    exact ⟨_, .step w choice hevents hstep⟩

theorem ProcessRun.moves (hrun : ProcessRun conn files p) {schedule : List (Worker × Choice)}
    (hmoves : schedule.foldlM (fun p m => Process.move p m.1 m.2) p = some p') :
    ProcessRun conn files p' := by
  induction schedule generalizing p with
  | nil =>
    cases hmoves
    exact hrun
  | cons m schedule ih =>
    rw [List.foldlM_cons, Option.bind_eq_bind, Option.bind_eq_some_iff] at hmoves
    obtain ⟨q, hmove, hrest⟩ := hmoves
    exact ih (.move m.1 m.2 hrun hmove) hrest

/-- The descriptors of accepted clients are open in every state. -/
theorem ProcessRun.files_eq (hrun : ProcessRun conn files p) {fd : ℕ} (hfd : p.fd w = some fd) :
    p.files fd = some (.client w) := by
  induction hrun with
  | start => cases hfd
  | @accept p v fd' _ _ hfree ih =>
    rw [Process.accept] at hfd ⊢
    by_cases hv : w = v
    · subst hv
      simp only [Function.update_self, Option.some.injEq] at hfd
      subst hfd
      exact Function.update_self ..
    · simp only [Function.update_of_ne hv] at hfd
      have hopen := ih hfd
      have hne : fd ≠ fd' := by
        rintro rfl
        rw [hfree] at hopen
        cases hopen
      simpa only [Function.update_of_ne hne] using hopen
  | move v choice _ hmove ih =>
    obtain ⟨es, s', -, rfl⟩ := Process.move_eq hmove
    exact ih hfd

/-- The destructor of a `ConnInfo` would close the descriptor unless the connection has seen the
end of the file or an error. -/
theorem destroy_connInfo_closes_iff {fd : ℕ} (hfd : p.fd w = some fd)
    (hopen : p.files fd = some (.client w)) :
    (p.destroy (.connInfo w)).files fd ≠ some (.client w) ↔ (p.server.conn w).isOpen = true := by
  cases hconn : (p.server.conn w).isOpen <;>
    simp [Process.destroy, Process.destroyConnection, Process.close, hconn, hfd, hopen]

end Descriptors

/-- The standard streams and the socket of the server. -/
def serverFiles (fd : ℕ) : Option File := if fd < 4 then some .other else none

/-- Clients that disconnect without a word. -/
def hangups : Worker → Connection := fun _ => ⟨⟨[], []⟩, ⟨[], []⟩, .success⟩

/-- The worker of the first client returns. -/
private theorem exists_returned : ∃ p, ProcessRun hangups serverFiles p ∧ p.fd 0 = some 4 ∧
    p.server.point 0 = .ended := by
  have hmoves : ((List.replicate 3 (0, Choice.proceed)).foldlM
      (fun p m => Process.move p m.1 m.2)
      ((Process.initial hangups serverFiles).accept 0 4)).map
        (fun p => (p.fd 0, p.server.point 0)) = some (some 4, .ended) := by decide +kernel
  obtain ⟨p, hp, hreached⟩ := Option.map_eq_some_iff.mp hmoves
  obtain ⟨hfd, hended⟩ := Prod.mk.inj hreached
  exact ⟨p, (ProcessRun.accept 0 4 .start rfl (by decide)).moves hp, hfd, hended⟩

/-- The descriptors of the workers that have returned are closed exactly in the states in which no
worker has returned. -/
theorem descriptors_closed_iff {conn : Worker → Connection} {files : ℕ → Option File}
    {p : Process} (hrun : ProcessRun conn files p) :
    p.Closed ↔ ∀ w, (p.fd w).isSome → p.server.point w ≠ .ended := by
  constructor
  · intro hclosed w haccepted hended
    obtain ⟨fd, hfd⟩ := Option.isSome_iff_exists.mp haccepted
    exact hclosed w fd hfd hended (hrun.files_eq hfd)
  · intro hnone w fd hfd hended
    exact absurd hended (hnone w (Option.isSome_iff_exists.mpr ⟨fd, hfd⟩))

theorem descriptors_closed_iff_hangup :
    ∃ p, ProcessRun hangups serverFiles p ∧ p.server.point 0 = .ended ∧
      (p.Closed ↔ ∀ w, (p.fd w).isSome → p.server.point w ≠ .ended) := by
  obtain ⟨p, hrun, -, hended⟩ := exists_returned
  exact ⟨p, hrun, hended, descriptors_closed_iff hrun⟩

/-- The descriptor of a client that has hung up stays open. -/
theorem descriptor_leak :
    ¬∀ (conn : Worker → Connection) (files : ℕ → Option File) (p : Process),
      ProcessRun conn files p → p.Closed := by
  intro hall
  obtain ⟨p, hrun, hfd, hended⟩ := exists_returned
  exact hall hangups serverFiles p hrun 0 4 hfd hended (hrun.files_eq hfd)

end CsfAssignments.Chat
