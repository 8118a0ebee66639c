import CsfAssignments.SenderAutomaton
import CsfAssignments.ServerRest
import CsfAssignments.WorkerOutput

/-!
# Conversations go on

A worker that waits for its client moves when the client has sent something. Moves of this kind,
those of the other workers and those of new clients end in every schedule, and then the server is
at rest and has read all that was sent to it.
-/

namespace CsfAssignments.Chat

section Ready
variable {conn : Worker → Connection} {events es : List Event} {s t : Server} {w : Worker}
  {choice : Choice} {n k : ℕ}

/-- A move that only waits for the other workers: no wait times out, and a worker that waits for its
client has been sent something. -/
def Ready (s : Server) (w : Worker) (choice : Choice) : Prop :=
  choice ≠ .timeout ∧ (AwaitsClient w (s.point w) → (s.conn w).fdbuf.stream ≠ [])

/-- A run of so many ready moves. -/
inductive ReadyRun (conn : Worker → Connection) : ℕ → List Event → Server → Prop
  | start : ReadyRun conn 0 [] (.initial conn)
  | step {k : ℕ} {events es : List Event} {s s' : Server} (w : Worker) (choice : Choice) :
      ReadyRun conn k events s → Ready s w choice → s.step w choice = some (es, s') →
      ReadyRun conn (k + 1) (events ++ es) s'

theorem ReadyRun.run (hready : ReadyRun conn k events s) : Run conn events s := by
  induction hready with
  | start => exact .start
  | step w choice _ _ hstep ih => exact .step w choice ih hstep

/-- The connection of a worker that has not started is as it was. -/
theorem Run.conn_of_start (hrun : Run conn events s) (hstart : s.point w = .start) :
    s.conn w = conn w :=
  hrun.told_conn (P := fun s _ p => p = .start → s.conn w = conn w) (fun _ hs _ => hs)
    (fun htold _ hconn hstart => hconn.trans (htold hstart))
    (fun _ hmove hstart => absurd hstart hmove.next_ne_start) hstart

/-- What `n` workers still have to do, with the start of those that have not started. -/
def Server.load (n : ℕ) (s : Server) : ℕ :=
  ∑ w ∈ Finset.range n, (s.share n w + if s.point w = .start then 4 else 0)

/-- A ready move lowers the load. -/
theorem step_load_lt (hrun : Run conn events s) (hn : ∀ w, s.point w ≠ .start → w < n) (hw : w < n)
    (hchoice : choice ≠ .timeout) (hstep : s.step w choice = some (es, t)) :
    t.load n < s.load n := by
  by_cases hstart : s.point w = .start
  · obtain ⟨t, next, hmove, rfl⟩ := step_move hstep
    rw [hstart, code] at hmove
    refine Finset.sum_lt_sum (fun v _ => ?_) ⟨w, Finset.mem_range.mpr hw, ?_⟩
    · by_cases hv : v = w
      · subst hv
        cases hmove
        simp [Server.share, hstart, Point.weight]
        omega
      · have hle := hmove.share_le (n := n) hv
        rw [Server.goto_point, Function.update_of_ne hv, hmove.point_eq]
        exact Nat.add_le_add_right hle _
    · cases hmove
      simp [Server.share, hstart, Point.weight]
      omega
  · have hlt := step_work_lt hw (fun r u hu => hn u (hrun.safe.started hu)) hstart hchoice hstep
    have hstarted (v : Worker) : t.point v = .start ↔ s.point v = .start :=
      not_iff_not.mp (step_started hstart hstep v)
    simp only [Server.load, Finset.sum_add_distrib, hstarted]
    exact Nat.add_lt_add_right hlt _

/-- A run of ready moves among `n` clients pays for its moves. -/
theorem ReadyRun.load_le (hn : ∀ w, n ≤ w → (conn w).fdbuf.stream = [])
    (hready : ReadyRun conn k events s) :
    k + s.load n ≤ (Server.initial conn).load n ∧ ∀ w, s.point w ≠ .start → w < n := by
  induction hready with
  | start => exact ⟨(Nat.zero_add _).le, fun w hw => absurd rfl hw⟩
  | @step k events es s s' w choice hready hmove hstep ih =>
    obtain ⟨hle, hstarted⟩ := ih
    have hw : w < n := by
      by_contra hge
      have hstart : s.point w = .start := by
        by_contra hstart
        exact hge (hstarted w hstart)
      refine hmove.2 (.inl hstart) ?_
      rw [hready.run.conn_of_start hstart]
      exact hn w (not_lt.mp hge)
    have hlt := step_load_lt hready.run hstarted hw hmove.1 hstep
    refine ⟨by omega, fun v hv => ?_⟩
    by_cases hvw : w = v
    · exact hvw ▸ hw
    · rw [step_point_of_ne hvw hstep] at hv
      exact hstarted v hv

/-- A worker that waits for its client can read from it. -/
theorem step_of_awaitsClient (hclient : AwaitsClient w (s.point w)) :
    (s.step w .proceed).isSome := by
  rcases hclient with hstart | ⟨next, hop⟩
  · rw [Server.step, hstart]
    rfl
  · rw [Server.step, hop]
    rfl

/-- When no move is ready the server is at rest and has read what was sent. -/
theorem resting_of_idle (hidle : ∀ w choice, Ready s w choice → s.step w choice = none) :
    s.Resting ∧ ∀ w, AwaitsClient w (s.point w) → (s.conn w).fdbuf.stream = [] := by
  refine ⟨fun w choice hchoice hclient => hidle w choice ⟨hchoice, fun h => absurd h hclient⟩,
    fun w hclient => ?_⟩
  by_contra hstream
  have hnone := hidle w .proceed ⟨by simp, fun _ => hstream⟩
  have hsome := step_of_awaitsClient hclient
  rw [hnone] at hsome
  cases hsome

end Ready

section Intact
variable {w : Worker} {s t : Server} {p next : Point} {es : List Event}

/-- No write to the connection can fail, and no read has failed since the login. -/
def Intact (conn : Connection) (p : Point) : Prop :=
  conn.out.outgoing = [] ∧ (p ≠ .start → p ≠ .login → conn.lastResult ≠ .eofOrError)

/-- A connection stays intact as long as the messages of its client come. -/
theorem Intact.step (hintact : Intact (s.conn w) p)
    (hreceived : ∀ result msg, .received w result msg ∈ es → result ≠ .eofOrError)
    (hmove : Move w s (code w p) es t next) : Intact (t.conn w) next := by
  obtain ⟨hout, hresult⟩ := hintact
  by_cases hstart : p = .start
  · subst hstart
    rw [code] at hmove
    cases hmove
    exact ⟨hout, fun _ h => absurd rfl h⟩
  by_cases htalks : (code w p).talks = false
  · have hlogin : p ≠ .login := by
      rintro rfl
      cases htalks
    have hconn : t.conn w = s.conn w := by
      generalize code w p = op at hmove htalks
      cases hmove <;> first | rfl | cases htalks
    rw [hconn]
    exact ⟨hout, fun _ _ => hresult hstart hlogin⟩
  · generalize code w p = op at hmove htalks
    cases hmove with
    | receive hreceive =>
      rw [Server.setConn_conn, Function.update_self]
      exact ⟨by rw [Connection.receive_out hreceive, hout],
        fun _ _ => hreceived _ _ List.mem_cons_self⟩
    | @sent msg _ _ conn hsend =>
      obtain ⟨conn', hsent, hout'⟩ := Connection.send_of_outgoing_nil msg hout
      rw [hsend] at hsent
      cases hsent
      rw [Server.setConn_conn, Function.update_self]
      exact ⟨hout', fun _ _ => by rw [Connection.send_true hsend]; decide⟩
    | @notSent msg _ _ conn hsend =>
      obtain ⟨conn', hsent, -⟩ := Connection.send_of_outgoing_nil msg hout
      rw [hsend] at hsent
      cases hsent
    | _ => exact absurd rfl htalks

end Intact

end CsfAssignments.Chat
