import CsfAssignments.ServerModel

/-!
# Moves of the server

What the operation of a worker can do to the shared state, one case for each outcome of an
operation. The invariants of the server are proved from these cases.
-/

namespace CsfAssignments.Chat

theorem Connection.send_true {conn conn' : Connection} {msg : Message}
    (h : conn.send msg = (true, conn')) : conn'.lastResult = .success := by
  rw [Connection.send] at h
  split at h <;> cases h
  rfl

theorem Connection.send_false {conn conn' : Connection} {msg : Message}
    (h : conn.send msg = (false, conn')) : conn'.lastResult = .eofOrError := by
  rw [Connection.send] at h
  split at h <;> cases h
  rfl

theorem Connection.send_fdbuf {conn conn' : Connection} {msg : Message} {sent : Bool}
    (h : conn.send msg = (sent, conn')) : conn'.fdbuf = conn.fdbuf := by
  rw [Connection.send] at h
  split at h <;> cases h <;> rfl

/-- The events of an operation of a worker, the state without the new program point, and that
point. -/
inductive Move (w : Worker) (s : Server) : Operation → List Event → Server → Point → Prop
  | newUser {next : Point} : Move w s (.newUser next) [] (s.setUser w ⟨true, ⟨0, []⟩⟩) next
  | deleteUser {next : Point} :
      Move w s (.deleteUser next) [] (s.setUser w { s.user w with alive := false }) next
  | receive {next : Result → Message → Point} {received : Bool} {msg : Message}
      {conn : Connection} : (s.conn w).receive ⟨[], []⟩ = (received, msg, conn) →
      Move w s (.receive next) [.received w conn.lastResult msg] (s.setConn w conn)
        (next conn.lastResult msg)
  | sent {msg : Message} {sent failed : Point} {conn : Connection} :
      (s.conn w).send msg = (true, conn) →
      Move w s (.send msg sent failed) [.sent w msg] (s.setConn w conn) sent
  | notSent {msg : Message} {sent failed : Point} {conn : Connection} :
      (s.conn w).send msg = (false, conn) →
      Move w s (.send msg sent failed) [] (s.setConn w conn) failed
  | acquire {l : Lock} {next : Point} : s.owner l = none →
      Move w s (.acquire l none next) [] (s.setOwner l (some w)) next
  | broadcast {l : Lock} {b : Broadcast} {next : Point} : s.owner l = none →
      Move w s (.acquire l (some b) next) [.locked w b (s.delivery b)] (s.setOwner l (some w)) next
  | release {l : Lock} {next : Point} : Move w s (.release l next) [] (s.setOwner l none) next
  | findRoom {name : List Char} {next : RoomId → Point} {r : RoomId} :
      s.rooms.lookup name = some r → Move w s (.findRoom name next) [] s (next r)
  | createRoom {name : List Char} {next : RoomId → Point} : s.rooms.lookup name = none →
      Move w s (.findRoom name next) [] (s.createRoom name) (next s.rooms.length)
  | insertMember {r : RoomId} {next : Point} :
      Move w s (.insertMember r next) [.joined w r]
        (s.setMembers r ((s.room r).members.insert w)) next
  | eraseMember {r : RoomId} {next : Point} :
      Move w s (.eraseMember r next) [.left w r]
        (s.setMembers r ((s.room r).members.erase w)) next
  | nextMember {r : RoomId} {visited : List Worker} {next : Worker → Point} {last : Point}
      {u : Worker} : u ∈ (s.room r).members → u ∉ visited →
      Move w s (.nextMember r visited next last) [] s (next u)
  | lastMember {r : RoomId} {visited : List Worker} {next : Worker → Point} {last : Point} :
      (∀ u ∈ (s.room r).members, u ∈ visited) →
      Move w s (.nextMember r visited next last) [] s last
  | pushBack {u : Worker} {b : Broadcast} {next : Point} :
      Move w s (.pushBack u b next) [.enqueued u (s.delivery b)]
        (s.setQueue u { (s.user u).mqueue with
          messages := (s.user u).mqueue.messages ++ [s.delivery b] }) next
  | semPost {u : Worker} {next : Point} :
      Move w s (.semPost u next) []
        (s.setQueue u { (s.user u).mqueue with avail := (s.user u).mqueue.avail + 1 }) next
  | semWait {next : Point} {timeout : Result → Point} : 0 < (s.user w).mqueue.avail →
      Move w s (.semTimedwait next timeout) []
        (s.setQueue w { (s.user w).mqueue with avail := (s.user w).mqueue.avail - 1 }) next
  | timeout {next : Point} {timeout : Result → Point} :
      Move w s (.semTimedwait next timeout) [] s (timeout (s.conn w).lastResult)
  | popFront {next : Message → Point} {msg : Message} {messages : List Message} :
      (s.user w).mqueue.messages = msg :: messages →
      Move w s (.popFront next) [.dequeued w msg]
        (s.setQueue w { (s.user w).mqueue with messages := messages }) (next msg)

/-- A move does the operation at the program point of its worker. -/
theorem step_move {s s' : Server} {w : Worker} {choice : Choice} {es : List Event}
    (hstep : s.step w choice = some (es, s')) :
    ∃ t next, Move w s (code w (s.point w)) es t next ∧ s' = t.goto w next := by
  rw [Server.step] at hstep
  cases hop : code w (s.point w) with
  | newUser next =>
    rw [hop] at hstep
    cases hstep
    exact ⟨_, _, .newUser, rfl⟩
  | deleteUser next =>
    rw [hop] at hstep
    cases hstep
    exact ⟨_, _, .deleteUser, rfl⟩
  | receive next =>
    rw [hop] at hstep
    cases hstep
    exact ⟨_, _, .receive rfl, rfl⟩
  | send msg sent failed =>
    rw [hop] at hstep
    cases hsend : (s.conn w).send msg with
    | mk written conn =>
      simp only [Server.execute, hsend, Option.some.injEq, Prod.mk.injEq] at hstep
      obtain ⟨rfl, rfl⟩ := hstep
      cases written with
      | true =>
        rw [if_pos rfl, if_neg (by simp [Connection.send_true hsend])]
        exact ⟨_, _, .sent hsend, rfl⟩
      | false =>
        rw [if_neg Bool.false_ne_true, if_pos (Connection.send_false hsend)]
        exact ⟨_, _, .notSent hsend, rfl⟩
  | acquire l b next =>
    rw [hop, Server.execute] at hstep
    split_ifs at hstep with hfree
    cases hstep
    cases b with
    | none => exact ⟨_, _, .acquire hfree, rfl⟩
    | some b => exact ⟨_, _, .broadcast hfree, rfl⟩
  | release l next =>
    rw [hop] at hstep
    cases hstep
    exact ⟨_, _, .release, rfl⟩
  | findRoom name next =>
    simp only [hop, Server.execute, Server.findOrCreateRoom, Option.some.injEq,
      Prod.mk.injEq] at hstep
    cases hlookup : s.rooms.lookup name with
    | none =>
      simp only [hlookup] at hstep
      obtain ⟨rfl, rfl⟩ := hstep
      exact ⟨_, _, .createRoom hlookup, rfl⟩
    | some r =>
      simp only [hlookup] at hstep
      obtain ⟨rfl, rfl⟩ := hstep
      exact ⟨_, _, .findRoom hlookup, rfl⟩
  | insertMember r next =>
    rw [hop] at hstep
    cases hstep
    exact ⟨_, _, .insertMember, rfl⟩
  | eraseMember r next =>
    rw [hop] at hstep
    cases hstep
    exact ⟨_, _, .eraseMember, rfl⟩
  | nextMember r visited next last =>
    rw [hop] at hstep
    cases choice with
    | member u =>
      simp only [Server.execute] at hstep
      split_ifs at hstep with hmember
      cases hstep
      exact ⟨_, _, .nextMember hmember.1 hmember.2, rfl⟩
    | proceed | timeout =>
      simp only [Server.execute] at hstep
      split_ifs at hstep with hlast
      cases hstep
      exact ⟨_, _, .lastMember hlast, rfl⟩
  | pushBack u b next =>
    rw [hop] at hstep
    cases hstep
    exact ⟨_, _, .pushBack, rfl⟩
  | semPost u next =>
    rw [hop] at hstep
    cases hstep
    exact ⟨_, _, .semPost, rfl⟩
  | semTimedwait next timeout =>
    rw [hop] at hstep
    cases choice with
    | timeout =>
      cases hstep
      exact ⟨_, _, .timeout, rfl⟩
    | proceed | member u =>
      simp only [Server.execute] at hstep
      split_ifs at hstep with havail
      cases hstep
      exact ⟨_, _, .semWait havail, rfl⟩
  | popFront next =>
    rw [hop] at hstep
    cases hmessages : (s.user w).mqueue.messages with
    | nil => simp [Server.execute, hmessages] at hstep
    | cons msg messages =>
      simp only [Server.execute, hmessages, Option.some.injEq, Prod.mk.injEq] at hstep
      obtain ⟨rfl, rfl⟩ := hstep
      exact ⟨_, _, .popFront hmessages, rfl⟩
  | halt =>
    rw [hop] at hstep
    cases hstep

/-- No operation moves a program point by itself. -/
theorem Move.point_eq {w : Worker} {s t : Server} {op : Operation} {es : List Event}
    {next : Point} (h : Move w s op es t next) : t.point = s.point := by
  cases h <;> rfl

theorem start_of_newUser {w : Worker} {p next : Point} (h : code w p = .newUser next) :
    p = .start := by
  cases p <;> first | rfl | cases h

/-- A worker moves only its own program point. -/
theorem step_point_of_ne {s s' : Server} {v w : Worker} {choice : Choice} {es : List Event}
    (hvw : v ≠ w) (hstep : s.step v choice = some (es, s')) : s'.point w = s.point w := by
  obtain ⟨t, next, hmove, rfl⟩ := step_move hstep
  rw [Server.goto_point, Function.update_of_ne hvw.symm, hmove.point_eq]

/-- A worker that is not scheduled stays where it is. -/
theorem Server.exec_point {s s' : Server} {w : Worker} {schedule : List (Worker × Choice)}
    {events : List Event} (hw : ∀ move ∈ schedule, move.1 ≠ w)
    (hexec : s.exec schedule = some (events, s')) : s'.point w = s.point w := by
  induction schedule generalizing s events with
  | nil =>
    cases hexec
    rfl
  | cons move schedule ih =>
    obtain ⟨v, choice⟩ := move
    obtain ⟨hv, hrest⟩ := List.forall_mem_cons.mp hw
    obtain ⟨es, s₁, more, hstep, hmore, rfl⟩ := Server.exec_cons hexec
    rw [ih hrest hmore, step_point_of_ne hv hstep]

end CsfAssignments.Chat
