import CsfAssignments.ClientPrograms
import CsfAssignments.RoomDelivery
import CsfAssignments.StreamCuts

/-!
# The network between the programs

How the network cuts the streams into reads and writes, and how often it interrupts them, does not
matter to the chat programs: two servers whose clients send the same bytes make the same moves in
every schedule, and so do two clients whose servers send the same bytes.
-/

namespace CsfAssignments.Chat
open RobustIO

section Connections
variable {conn conn' : Connection}

/-- The same bytes come in on both connections, the same bytes went out, and no system call fails on
them. -/
structure Connection.Alike (conn conn' : Connection) : Prop where
  stream : conn.fdbuf.stream = conn'.fdbuf.stream
  unbroken : Unbroken conn.fdbuf.incoming ∧ Unbroken conn'.fdbuf.incoming
  sent : conn.out.sent = conn'.out.sent
  unfailing : .failed ∉ conn.out.outgoing ∧ .failed ∉ conn'.out.outgoing
  lastResult : conn.lastResult = conn'.lastResult

theorem Connection.Alike.symm (h : conn.Alike conn') : conn'.Alike conn :=
  ⟨h.stream.symm, h.unbroken.symm, h.sent.symm, h.unfailing.symm, h.lastResult.symm⟩

/-- The same line is received on both connections. -/
theorem Connection.Alike.receive (h : conn.Alike conn') (m : Message) :
    ∃ received msg next next', conn.receive m = (received, msg, next) ∧
      conn'.receive m = (received, msg, next') ∧ next.Alike next' := by
  have hrounds : (CIntegers.toInt maxLen - 1).toNat = 254 := by decide
  obtain ⟨rp, hread, hstream, hunbroken⟩ := rioReadlineb_unbroken hrounds h.unbroken.1
  obtain ⟨rp', hread', hstream', hunbroken'⟩ := rioReadlineb_unbroken hrounds h.unbroken.2
  rw [← h.stream] at hread' hstream'
  generalize (takeLine 254 conn.fdbuf.stream).1 = line at hread hread'
  have halike (result : Result) :
      (Connection.mk rp conn.out result).Alike ⟨rp', conn'.out, result⟩ :=
    ⟨hstream.trans hstream'.symm, ⟨hunbroken, hunbroken'⟩, h.sent, h.unfailing, rfl⟩
  rw [Connection.receive, Connection.receive, hread, hread']
  cases line with
  | nil => exact ⟨_, _, _, _, rfl, rfl, halike _⟩
  | cons c line =>
    dsimp only
    split_ifs <;> exact ⟨_, _, _, _, rfl, rfl, halike _⟩

/-- A message is sent on both connections. -/
theorem Connection.Alike.send (h : conn.Alike conn') (msg : Message) :
    ∃ next next', conn.send msg = (true, next) ∧ conn'.send msg = (true, next') ∧
      next.Alike next' := by
  obtain ⟨w, hwrite, hsent, hrest⟩ := rioWriten_unfailing h.unfailing.1 (encode msg)
  obtain ⟨w', hwrite', hsent', hrest'⟩ := rioWriten_unfailing h.unfailing.2 (encode msg)
  rw [Connection.send, Connection.send, hwrite, hwrite']
  exact ⟨_, _, rfl, rfl, h.stream, h.unbroken, by rw [hsent, hsent', h.sent], ⟨hrest, hrest'⟩, rfl⟩

end Connections

section Servers
variable {s s' t : Server} {w : Worker} {choice : Choice} {op : Operation} {es : List Event}

/-- The servers differ in nothing but the cuts of their connections. -/
structure Server.Alike (s s' : Server) : Prop where
  shared : s' = { s with conn := s'.conn }
  conn : ∀ w, (s.conn w).Alike (s'.conn w)

theorem Server.Alike.symm (h : s.Alike s') : s'.Alike s := by
  refine ⟨?_, fun w => (h.conn w).symm⟩
  rw [h.shared]

/-- Alike servers go on alike when a worker has used its connection. -/
private theorem alike_setConn {conn : Worker → Connection} {c c' : Connection} {next : Point}
    (hconn : ∀ w, (s.conn w).Alike (conn w)) (hc : c.Alike c') :
    ((s.setConn w c).goto w next).Alike (({ s with conn := conn }.setConn w c').goto w next) := by
  refine ⟨rfl, fun v => ?_⟩
  show (Function.update s.conn w c v).Alike (Function.update conn w c' v)
  by_cases hv : v = w
  · subst hv
    rwa [Function.update_self, Function.update_self]
  · rw [Function.update_of_ne hv, Function.update_of_ne hv]
    exact hconn v

/-- An operation does the same on alike servers. -/
theorem Server.Alike.execute (h : s.Alike s') (hexec : s.execute w choice op = some (es, t)) :
    ∃ t', s'.execute w choice op = some (es, t') ∧ t.Alike t' := by
  obtain ⟨hshared, hconn⟩ := h
  generalize s'.conn = conn at hshared hconn
  subst hshared
  cases op with
  | receive next =>
    obtain ⟨received, msg, c, c', hreceive, hreceive', hc⟩ := (hconn w).receive ⟨[], []⟩
    rw [Server.execute, hreceive] at hexec
    cases hexec
    refine ⟨_, ?_, alike_setConn hconn hc⟩
    rw [Server.execute]
    dsimp only
    rw [hreceive', hc.lastResult]
  | send msg sent failed =>
    obtain ⟨c, c', hsend, hsend', hc⟩ := (hconn w).send msg
    rw [Server.execute, hsend] at hexec
    cases hexec
    refine ⟨_, ?_, alike_setConn hconn hc⟩
    rw [Server.execute]
    dsimp only
    rw [hsend', hc.lastResult]
  | acquire l b next =>
    simp only [Server.execute] at hexec ⊢
    split_ifs at hexec with hfree
    cases hexec
    exact ⟨_, if_pos hfree, rfl, hconn⟩
  | findRoom name next =>
    simp only [Server.execute, Server.findOrCreateRoom] at hexec ⊢
    cases hlookup : s.rooms.lookup name <;> rw [hlookup] at hexec <;> cases hexec <;>
      exact ⟨_, rfl, rfl, hconn⟩
  | nextMember r visited next last =>
    simp only [Server.execute] at hexec ⊢
    cases choice with
    | member u =>
      dsimp only at hexec ⊢
      split_ifs at hexec with hu
      cases hexec
      exact ⟨_, if_pos hu, rfl, hconn⟩
    | proceed | timeout =>
      dsimp only at hexec ⊢
      split_ifs at hexec with hall
      cases hexec
      exact ⟨_, if_pos hall, rfl, hconn⟩
  | semTimedwait next timeout =>
    simp only [Server.execute] at hexec ⊢
    cases choice with
    | timeout =>
      cases hexec
      rw [(hconn w).lastResult]
      exact ⟨_, rfl, rfl, hconn⟩
    | proceed | member u =>
      dsimp only at hexec ⊢
      split_ifs at hexec with havail
      cases hexec
      exact ⟨_, if_pos havail, rfl, hconn⟩
  | popFront next =>
    simp only [Server.execute] at hexec ⊢
    cases hmessages : (s.user w).mqueue.messages <;> rw [hmessages] at hexec <;> cases hexec
    exact ⟨_, rfl, rfl, hconn⟩
  | halt => cases hexec
  | _ =>
    cases hexec
    exact ⟨_, rfl, rfl, hconn⟩

theorem Server.Alike.exec (h : s.Alike s') {schedule : List (Worker × Choice)}
    (hexec : s.exec schedule = some (es, t)) :
    ∃ t', s'.exec schedule = some (es, t') ∧ t.Alike t' := by
  induction schedule generalizing s s' es with
  | nil =>
    cases hexec
    exact ⟨s', rfl, h⟩
  | cons move schedule ih =>
    obtain ⟨w, choice⟩ := move
    obtain ⟨es₁, s₁, more, hstep, hmore, rfl⟩ := Server.exec_cons hexec
    have hpoint : s'.point w = s.point w := by rw [h.shared]
    obtain ⟨s₁', hstep', hnext⟩ := h.execute hstep
    obtain ⟨t', hmore', hend⟩ := ih hnext hmore
    refine ⟨t', ?_, hend⟩
    rw [Server.exec, Server.step, hpoint, hstep', Option.bind_some, hmore']
    rfl

end Servers

section Clients
variable {conn conn' : Connection}

/-- The programs end before their loops with the same complaint, or go on alike. -/
inductive GoesOn : Except Exit Connection → Except Exit Connection → Prop
  | ended (exit : Exit) : GoesOn (.error exit) (.error exit)
  | connected {conn conn' : Connection} : conn.Alike conn' → GoesOn (.ok conn) (.ok conn')

theorem GoesOn.bind_eq {α : Type} {r r' : Except Exit Connection} (h : GoesOn r r')
    {f f' : Connection → Except Exit α}
    (hf : ∀ {conn conn' : Connection}, conn.Alike conn' → f conn = f' conn') :
    r >>= f = r' >>= f' := by
  cases h with
  | ended exit => rfl
  | connected halike => exact hf halike

namespace Receiver

theorem goesOn_request (h : conn.Alike conn') (msg : Message) (abnormal : String) :
    GoesOn (request msg abnormal conn) (request msg abnormal conn') := by
  obtain ⟨c, c', hsend, hsend', hc⟩ := h.send msg
  obtain ⟨received, response, next, next', hreceive, hreceive', hnext⟩ := hc.receive ⟨[], []⟩
  rw [request, request, hsend, hsend']
  dsimp only
  rw [hreceive, hreceive']
  dsimp only
  split_ifs
  · exact .ended _
  · exact .ended _
  · exact .connected hnext

theorem round_alike (h : conn.Alike conn') (roomName : List Char) :
    (round roomName conn).1 = (round roomName conn').1 ∧
      (round roomName conn).2.Alike (round roomName conn').2 := by
  obtain ⟨received, response, next, next', hreceive, hreceive', hnext⟩ := h.receive ⟨[], []⟩
  rw [round, round, hreceive, hreceive']
  cases received with
  | true => exact ⟨rfl, hnext⟩
  | false =>
    dsimp only
    exact ⟨by rw [hnext.lastResult], hnext⟩

theorem deliveries_alike (h : conn.Alike conn') (roomName : List Char) (rounds : ℕ) :
    deliveries roomName rounds conn = deliveries roomName rounds conn' := by
  induction rounds generalizing conn conn' with
  | zero => rfl
  | succ rounds ih =>
    obtain ⟨hwritten, hnext⟩ := round_alike h roomName
    rw [deliveries, deliveries, hwritten, ih hnext]

theorem main_alike (h : conn.Alike conn') (username roomName : List Char) (rounds : ℕ) :
    main username roomName rounds conn = main username roomName rounds conn' := by
  rw [main, main]
  refine (goesOn_request h _ _).bind_eq fun hlogin => ?_
  refine (goesOn_request hlogin _ _).bind_eq fun hjoin => ?_
  rw [deliveries_alike hjoin]

end Receiver

namespace Sender

/-- What can be seen of the rounds of a sender program. -/
def shown (outcome : Bool × List (List Char × Effect)) :
    Bool × List (List Char × List Message × List String) :=
  (outcome.1, outcome.2.map fun round => (round.1, round.2.sent, round.2.complaints))

/-- Two rounds have done the same so far. -/
structure Effect.Alike (effect effect' : Effect) : Prop where
  sent : effect.sent = effect'.sent
  complaints : effect.complaints = effect'.complaints
  conn : effect.conn.Alike effect'.conn

variable {effect effect' : Effect}

theorem exchange_alike (h : effect.Alike effect') (sentmessage : Message) :
    (exchange sentmessage effect).1 = (exchange sentmessage effect').1 ∧
      (exchange sentmessage effect).2.Alike (exchange sentmessage effect').2 := by
  obtain ⟨c, c', hsend, hsend', hc⟩ := h.conn.send sentmessage
  obtain ⟨received, response, next, next', hreceive, hreceive', hnext⟩ := hc.receive ⟨[], []⟩
  rw [exchange, exchange, hsend, hsend']
  dsimp only
  rw [hreceive, hreceive']
  exact ⟨rfl, by rw [h.sent], h.complaints, hnext⟩

theorem command_alike (h : effect.Alike effect') (inputGotten : List Char) :
    (command inputGotten effect).1 = (command inputGotten effect').1 ∧
      (command inputGotten effect).2.1 = (command inputGotten effect').2.1 ∧
      (command inputGotten effect).2.2.Alike (command inputGotten effect').2.2 := by
  unfold command
  split_ifs
  · exact ⟨rfl, rfl, h⟩
  · exact ⟨rfl, rfl, h⟩
  · obtain ⟨hreceived, hnext⟩ := exchange_alike h ⟨tagQuit, []⟩
    exact ⟨hreceived, rfl, hnext⟩
  · exact ⟨rfl, rfl, h.sent, by rw [h.complaints], h.conn⟩
  · exact ⟨rfl, rfl, h⟩

theorem round_alike (h : conn.Alike conn') (inputGotten : List Char) :
    (round inputGotten conn).1 = (round inputGotten conn').1 ∧
      (round inputGotten conn).2.Alike (round inputGotten conn').2 := by
  have hstart : Effect.Alike ⟨[], [], conn⟩ ⟨[], [], conn'⟩ := ⟨rfl, rfl, h⟩
  obtain ⟨hreturns, hmessage, hnext⟩ := command_alike hstart inputGotten
  rw [round, round]
  generalize command inputGotten ⟨[], [], conn⟩ = outcome at hreturns hmessage hnext
  generalize command inputGotten ⟨[], [], conn'⟩ = outcome' at hreturns hmessage hnext
  obtain ⟨returns, sentmessage, effect⟩ := outcome
  obtain ⟨returns', sentmessage', effect'⟩ := outcome'
  cases hreturns
  cases hmessage
  cases returns with
  | true => exact ⟨rfl, hnext⟩
  | false =>
    dsimp only
    split_ifs
    · exact ⟨rfl, (exchange_alike hnext sentmessage).2⟩
    · exact ⟨rfl, hnext⟩

theorem sendHelper_alike (h : conn.Alike conn') (input : List (List Char)) (rounds : ℕ) :
    shown (sendHelper rounds input conn) = shown (sendHelper rounds input conn') := by
  induction rounds generalizing input conn conn' with
  | zero => rfl
  | succ rounds ih =>
    obtain ⟨hreturns, hnext⟩ := round_alike h (getline input).1
    have hrest := ih hnext.conn (getline input).2
    rw [sendHelper_succ, sendHelper_succ, hreturns]
    split_ifs
    · simp only [shown, List.map_cons, List.map_nil, hnext.sent, hnext.complaints]
    · simp only [shown, Prod.mk.injEq] at hrest
      simp only [shown, List.map_cons, hnext.sent, hnext.complaints, hrest.1, hrest.2]

theorem goesOn_logIn (h : conn.Alike conn') (username : List Char) :
    GoesOn (logIn username conn) (logIn username conn') := by
  obtain ⟨c, c', hsend, hsend', hc⟩ := h.send ⟨tagSlogin, username⟩
  obtain ⟨received, response, next, next', hreceive, hreceive', hnext⟩ := hc.receive ⟨[], []⟩
  rw [logIn, logIn, hsend, hsend']
  dsimp only
  rw [hreceive, hreceive']
  cases received with
  | false => exact .ended _
  | true =>
    dsimp only
    split_ifs
    · exact .ended _
    · exact .ended _
    · exact .connected hnext

theorem main_alike (h : conn.Alike conn') (username : List Char) (input : List (List Char))
    (rounds : ℕ) :
    (main username input rounds conn).map shown = (main username input rounds conn').map shown := by
  rw [main, main]
  have hlogin := goesOn_logIn h username
  generalize logIn username conn = r at hlogin
  generalize logIn username conn' = r' at hlogin
  cases hlogin with
  | ended exit => rfl
  | connected hc => exact congrArg Except.ok (sendHelper_alike hc input rounds)

end Sender
end Clients

/-- Every byte is a read of its own, behind an interrupted one, and the first write is cut. -/
def choppedConnection (bytes : List Char) : Connection :=
  ⟨⟨[], bytes.flatMap fun c => [.interrupted, .data [c]]⟩, ⟨[.interrupted, .accepted 1], []⟩,
    .success⟩

theorem alike_choppedConnection {incoming : List ReadResult} (h : Unbroken incoming) :
    (Connection.mk ⟨[], incoming⟩ ⟨[], []⟩ .success).Alike
      (choppedConnection (arriving incoming)) := by
  have hstream (bytes : List Char) : (choppedConnection bytes).fdbuf.stream = bytes := by
    induction bytes with
    | nil => rfl
    | cons c bytes ih => exact congrArg (List.cons c) ih
  have hunbroken (bytes : List Char) : Unbroken (choppedConnection bytes).fdbuf.incoming := by
    intro result hresult
    obtain ⟨c, -, hc⟩ := List.mem_flatMap.mp hresult
    rcases List.mem_pair.mp hc with rfl | rfl <;> simp
  refine ⟨(hstream _).symm, ⟨h, hunbroken _⟩, rfl, ⟨List.not_mem_nil, ?_⟩, rfl⟩
  simp [choppedConnection]

section Network
variable {conn conn' : Worker → Connection} {client client' : Connection}

/-- The cuts do not matter. If the clients of two servers send the same bytes and no system call
fails, then in every schedule, however the streams are cut, the servers block at the same point or
make the same moves: they go through the same events to the same program points, rooms, queues and
locks, and have written the same bytes. And if the servers of two programs send the same bytes, the
programs print the same or send the same messages. -/
theorem cuts_irrelevant (h : ∀ w, (conn w).Alike (conn' w)) (hclient : client.Alike client') :
    (∀ schedule, (Server.initial conn).exec schedule = none ↔
        (Server.initial conn').exec schedule = none) ∧
      (∀ schedule events s, (Server.initial conn).exec schedule = some (events, s) →
        ∃ s', (Server.initial conn').exec schedule = some (events, s') ∧
          s' = { s with conn := s'.conn } ∧
          ∀ w, (s'.conn w).out.sent = (s.conn w).out.sent ∧
            (s'.conn w).fdbuf.stream = (s.conn w).fdbuf.stream ∧
            (s'.conn w).lastResult = (s.conn w).lastResult) ∧
      (∀ username roomName rounds, Receiver.main username roomName rounds client =
        Receiver.main username roomName rounds client') ∧
      ∀ username input rounds, (Sender.main username input rounds client).map Sender.shown =
        (Sender.main username input rounds client').map Sender.shown := by
  have hinitial : (Server.initial conn).Alike (Server.initial conn') := ⟨rfl, h⟩
  have hnone {s s' : Server} (hs : s.Alike s') {schedule : List (Worker × Choice)}
      (hexec : s.exec schedule = none) : s'.exec schedule = none := by
    by_contra hsome
    obtain ⟨⟨events, t'⟩, ht'⟩ := Option.ne_none_iff_exists'.mp hsome
    obtain ⟨t, ht, -⟩ := hs.symm.exec ht'
    rw [hexec] at ht
    cases ht
  refine ⟨fun schedule => ⟨hnone hinitial, hnone hinitial.symm⟩, ?_,
    Receiver.main_alike hclient, Sender.main_alike hclient⟩
  intro schedule events s hexec
  obtain ⟨s', hexec', hs⟩ := hinitial.exec hexec
  refine ⟨s', hexec', hs.shared, fun w => ?_⟩
  exact ⟨(hs.conn w).sent.symm, (hs.conn w).stream.symm, (hs.conn w).lastResult.symm⟩

end Network

theorem cuts_irrelevant_delivered : ∃ events s s',
    (Server.initial twoClients).exec deliverToReceiver = some (events, s) ∧
    (Server.initial fun w => choppedConnection (arriving (twoClients w).fdbuf.incoming)).exec
      deliverToReceiver = some (events, s') ∧
    written (own 0 events) = [ok, lobbyDelivery] ∧
    (s'.conn 0).out.sent = (s.conn 0).out.sent := by
  have halike (w : Worker) : (twoClients w).Alike
      (choppedConnection (arriving (twoClients w).fdbuf.incoming)) := by
    unfold twoClients
    split <;> exact alike_choppedConnection (by simp [Unbroken])
  have hexec : ((Server.initial twoClients).exec deliverToReceiver).map
      (fun moves => decide (written (own 0 moves.1) = [ok, lobbyDelivery])) = some true := by
    decide +kernel
  obtain ⟨⟨events, s⟩, hs, hwritten⟩ := Option.map_eq_some_iff.mp hexec
  obtain ⟨s', hs', -, hconn⟩ :=
    (cuts_irrelevant halike (halike 0)).2.1 deliverToReceiver events s hs
  exact ⟨events, s, s', hs, hs', of_decide_eq_true hwritten, (hconn 0).1⟩

end CsfAssignments.Chat
