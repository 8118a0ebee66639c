import CsfAssignments.LoginHandshake
import CsfAssignments.WireRoundTrip
import CsfAssignments.WorkerHistory

/-!
# The output of workers

What a worker has written to its connection. As long as no write has failed it is the messages that
it has sent, whole and in order; behind a write that fails the worker writes nothing more.
-/

namespace CsfAssignments.Chat

section Told
variable {conn : Worker → Connection} {events : List Event} {s : Server}

/-- Every run is that of a schedule. -/
theorem Run.exists_exec (hrun : Run conn events s) :
    ∃ schedule, (Server.initial conn).exec schedule = some (events, s) := by
  induction hrun with
  | start => exact ⟨[], rfl⟩
  | @step events s s' es w choice hrun hstep ih =>
    obtain ⟨schedule, hexec⟩ := ih
    have hone : s.exec [(w, choice)] = some (es ++ [], s') := by
      rw [Server.exec, hstep]
      rfl
    rw [List.append_nil] at hone
    exact ⟨schedule ++ [(w, choice)], Server.exec_append hexec hone⟩

/-- A fact about the connection of a worker, its events and its program point holds in every run,
if it holds of the connection that the worker will get, and the moves of the worker keep it. -/
theorem Run.told_conn {P : Server → List Event → Point → Prop} {w : Worker}
    (hrun : Run conn events s) (hstart : ∀ s : Server, s.conn w = conn w → P s [] .start)
    (hmono : ∀ {s t : Server} {h : List Event} {p : Point}, P s h p →
      (∀ name r, s.rooms.lookup name = some r → t.rooms.lookup name = some r) →
      t.conn w = s.conn w → P t h p)
    (hstep : ∀ {s t : Server} {p next : Point} {es h : List Event}, P s h p →
      Move w s (code w p) es t next → P t (h ++ own w es) next) :
    P s (own w events) (s.point w) := by
  obtain ⟨schedule, hexec⟩ := hrun.exists_exec
  have htold : P s ([] ++ own w events) (s.point w) :=
    Server.exec_told (P := P) hmono hstep (hstart (Server.initial conn) rfl) hexec
  exact htold

end Told

section Output
variable {w : Worker} {s t : Server} {p next : Point} {es h : List Event}

/-- The points behind the last write of a worker. -/
def Point.Closing : Point → Prop
  | .removeAcquire _ | .removeErase _ | .removeRelease _ | .deleteUser | .ended => True
  | _ => False

/-- What was on the connection before, and then the messages of the worker. -/
def Written (earlier : List Char) (conn : Connection) (h : List Event) (p : Point) : Prop :=
  (p.Closing → conn.lastResult ≠ .eofOrError) →
    conn.out.sent = earlier ++ (replies h).flatMap encode

/-- A worker that closes goes on to close, and leaves its connection alone. -/
theorem Point.Closing.step (hp : p.Closing) (hmove : Move w s (code w p) es t next) :
    next.Closing ∧ t.conn w = s.conn w ∧ replies (own w es) = [] := by
  cases p with
  | ended =>
    rw [code] at hmove
    cases hmove
  | removeErase r =>
    rw [code] at hmove
    cases hmove
    exact ⟨trivial, rfl, by rw [own_of_worker rfl]; rfl⟩
  | removeAcquire r | removeRelease r | deleteUser =>
    rw [code] at hmove
    cases hmove
    exact ⟨trivial, rfl, rfl⟩
  | _ => exact hp.elim

/-- A write that fails is the last one. -/
theorem closing_of_send {msg : Message} {sent failed : Point}
    (hop : code w p = .send msg sent failed) : failed.Closing ∧ ¬p.Closing := by
  cases p <;> first | (cases hop; exact ⟨trivial, id⟩) | cases hop

theorem Written.step {earlier : List Char} (hwritten : Written earlier (s.conn w) h p)
    (hmove : Move w s (code w p) es t next) :
    Written earlier (t.conn w) (h ++ own w es) next := by
  intro hintact
  rw [replies_append]
  by_cases hp : p.Closing
  · obtain ⟨hnext, hconn, hreplies⟩ := hp.step hmove
    rw [hconn] at hintact ⊢
    rw [hreplies, List.append_nil]
    exact hwritten fun _ => hintact hnext
  have hsent := hwritten fun hclosing => absurd hclosing hp
  generalize hop : code w p = op at hmove
  cases hmove with
  | receive hreceive =>
    rw [own_of_worker rfl, Server.setConn_conn, Function.update_self,
      Connection.receive_out hreceive, hsent]
    exact congrArg _ (congrArg _ (List.append_nil _).symm)
  | @sent msg _ _ conn hsend =>
    have hgrows : conn.out.sent = (s.conn w).out.sent ++ encode msg := by
      have hgrows : ((s.conn w).send msg).2.out.sent = (s.conn w).out.sent ++ encode msg :=
        send_sent (by rw [hsend])
      rwa [hsend] at hgrows
    rw [own_of_worker rfl, Server.setConn_conn, Function.update_self, hgrows, hsent,
      List.flatMap_append, List.append_assoc]
    congr 2
    exact (List.flatMap_singleton encode msg).symm
  | notSent hsend =>
    rw [Server.setConn_conn, Function.update_self] at hintact
    exact absurd (Connection.send_false hsend) (hintact (closing_of_send hop).1)
  | _ => simp_all [own, replies, Event.worker, Event.reply]

/-- As long as no write has failed a worker has written its messages. -/
theorem Run.written {conn : Worker → Connection} {events : List Event} (hrun : Run conn events s)
    (w : Worker) : Written (conn w).out.sent (s.conn w) (own w events) (s.point w) :=
  hrun.told_conn (P := fun s h p => Written (conn w).out.sent (s.conn w) h p)
    (fun s hs _ => by rw [hs]; exact (List.append_nil _).symm)
    (fun hwritten _ hconn => hconn ▸ hwritten) (fun hwritten hmove => hwritten.step hmove)

end Output

end CsfAssignments.Chat
