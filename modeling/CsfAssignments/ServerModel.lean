import CsfAssignments.ConnectionModel
import Mathlib.Data.List.DropRight
import Mathlib.Logic.Function.Basic
import Mathlib.Tactic.Simps.Basic

/-!
# The chat server

Definitions of `server.cpp`, `room.cpp` and `message_queue.cpp`. A worker thread is at a
program point, and its code gives for every point the next operation on its connection or on
the shared state. The operations of all workers interleave. The user of a worker and its queue
have the number of the worker.
-/

namespace CsfAssignments.Chat
open RobustIO

abbrev Worker := ℕ

/-- A pointer to a `Room`: rooms are numbered as they are allocated. -/
abbrev RoomId := ℕ

def alphabet : List Char :=
  "abcdefghijklmnopqrstuvwxyzABCDEFGHIJKLMNOPQRSTUVWXYZ1234567890".toList

/-- The characters `right_trim` removes: newline, carriage return, tab, form feed and
vertical tab. -/
def trimmed : List Char := ['\n', '\r', '\t', Char.ofNat 12, Char.ofNat 11]

def rightTrim (s : List Char) : List Char := s.rdropWhile (fun c => c ∈ trimmed)

/-- `std::string::find_first_not_of`. -/
def findFirstNotOf (s chars : List Char) : ℕ := (s.findIdx? (fun c => c ∉ chars)).getD npos

/-- `find` of a newline is not `npos`. -/
def hasNewline (s : List Char) : Prop := find s '\n' ≠ npos

instance (s : List Char) : Decidable (hasNewline s) := inferInstanceAs (Decidable (_ ≠ _))

def err (text : String) : Message := ⟨tagErr, text.toList⟩

def ok : Message := ⟨tagOk, []⟩

/-- What `worker` does after its first `receive`: replies, one after the other, and then the
exception or a session. A failed reply throws. -/
inductive Login
  | reply (msg : Message) (next : Login)
  | throw
  | sender (username : List Char)
  | receiver (username : List Char)
  deriving DecidableEq

/-- The choice of the session by the tag of the login message. -/
def chooseSession (loginMes : Message) : Login :=
  if loginMes.tag = tagSlogin then .sender (rightTrim loginMes.data)
  else if loginMes.tag = tagRlogin then .receiver (rightTrim loginMes.data)
  else .reply (err "wrong tag") .throw

/-- The checks of the payload. -/
def checkLogin (loginMes : Message) : Login :=
  if ¬hasNewline loginMes.data then .reply (err "wrong format") .throw
  else if loginMes.data.length ≤ 1 ∨ findFirstNotOf (rightTrim loginMes.data) alphabet ≠ npos then
    .reply (err "wrong tag") .throw
  else .reply ok (chooseSession loginMes)

/-- The reply to an invalid message is not followed by an exception. -/
def login (result : Result) (loginMes : Message) : Login :=
  if result = .invalidMsg then .reply (err "wrong format") (checkLogin loginMes)
  else checkLogin loginMes

/-- A call of `broadcast_message`. -/
structure Broadcast where
  username : List Char
  room : RoomId
  text : List Char
  deriving DecidableEq

/-- Who called `find_or_create_room`. -/
inductive Caller
  | sender (username : List Char)
  | receiver
  deriving DecidableEq

inductive Lock
  | server
  | room (r : RoomId)
  | queue (u : Worker)
  deriving DecidableEq

/-- The points of `worker` and of the functions it calls. A lock is taken between `Acquire`
and the point behind it. -/
inductive Point
  | start
  | login
  | handshake (msg : Message) (next : Login)
  | senderLoop (username : List Char) (current : Option RoomId)
  | senderReply (msg : Message) (username : List Char) (current : Option RoomId)
  | senderQuit
  | findAcquire (caller : Caller) (name : List Char)
  | findBody (caller : Caller) (name : List Char)
  | findRelease (caller : Caller) (room : RoomId)
  | broadcastAcquire (b : Broadcast)
  | broadcasting (b : Broadcast) (visited : List Worker)
  | enqueueAcquire (b : Broadcast) (visited : List Worker) (u : Worker)
  | enqueuePush (b : Broadcast) (visited : List Worker) (u : Worker)
  | enqueuePost (b : Broadcast) (visited : List Worker) (u : Worker)
  | enqueueRelease (b : Broadcast) (visited : List Worker) (u : Worker)
  | broadcastRelease (b : Broadcast)
  | receiverJoin
  | receiverRefuse (msg : Message)
  | addAcquire (room : RoomId)
  | addInsert (room : RoomId)
  | addRelease (room : RoomId)
  | joinReply (room : RoomId)
  | dequeueWait (room : RoomId)
  | dequeueAcquire (room : RoomId)
  | dequeuePop (room : RoomId)
  | dequeueRelease (room : RoomId) (msg : Message)
  | deliver (room : RoomId) (msg : Message)
  | removeAcquire (room : RoomId)
  | removeErase (room : RoomId)
  | removeRelease (room : RoomId)
  | deleteUser
  | ended
  deriving DecidableEq

/-- The operations, with the points they lead to. -/
inductive Operation
  | newUser (next : Point)
  | deleteUser (next : Point)
  | receive (next : Result → Message → Point)
  | send (msg : Message) (sent failed : Point)
  /-- Taking a lock, for `broadcast_message` with the broadcast. -/
  | acquire (l : Lock) (b : Option Broadcast) (next : Point)
  | release (l : Lock) (next : Point)
  | findRoom (name : List Char) (next : RoomId → Point)
  | insertMember (room : RoomId) (next : Point)
  | eraseMember (room : RoomId) (next : Point)
  /-- The next member of the set, in an order that depends on the addresses. -/
  | nextMember (room : RoomId) (visited : List Worker) (next : Worker → Point) (last : Point)
  | pushBack (u : Worker) (b : Broadcast) (next : Point)
  | semPost (u : Worker) (next : Point)
  | semTimedwait (next : Point) (timeout : Result → Point)
  | popFront (next : Message → Point)
  | halt

/-- The exception is caught in `worker`, which deletes the user. -/
def Login.point : Login → Point
  | .reply msg next => .handshake msg next
  | .throw => .deleteUser
  | .sender username => .senderLoop username none
  | .receiver _ => .receiverJoin

/-- The body of the loop of `chat_with_sender` after `receive`. -/
def senderRequest (username : List Char) (current : Option RoomId) (result : Result)
    (currMes : Message) : Point :=
  if result = .eofOrError then .deleteUser
  else if result = .invalidMsg then .senderReply (err "wrong message") username current
  else if currMes.tag = tagJoin then
    if hasNewline currMes.data then .findAcquire (.sender username) (rightTrim currMes.data)
    else .senderReply (err "wrong room format") username current
  else if currMes.tag = tagLeave then
    if current = none then .senderReply (err "wrong") username current
    else .senderReply ok username none
  else if currMes.tag = tagSendall then
    match current with
    | none => .senderReply (err "don't join a room") username current
    | some r =>
        if ¬hasNewline currMes.data then .senderReply (err "wrong formate") username current
        else .broadcastAcquire ⟨username, r, rightTrim currMes.data⟩
  else if currMes.tag = tagQuit then .senderQuit
  else .senderReply (err "wrong tag pops up") username current

/-- `chat_with_receiver` after its first `receive`. -/
def receiverRequest (result : Result) (joinMeg : Message) : Point :=
  if result ≠ .success then .receiverRefuse (err "something went wrong")
  else if joinMeg.tag ≠ tagJoin ∨ ¬hasNewline joinMeg.data then .receiverRefuse (err "wrong format")
  else .findAcquire .receiver (rightTrim joinMeg.data)

def Caller.found : Caller → RoomId → Point
  | .sender username, r => .senderReply ok username (some r)
  | .receiver, r => .addAcquire r

/-- The operation at a point of the code of a worker. -/
def code (w : Worker) : Point → Operation
  | .start => .newUser .login
  | .login => .receive fun result msg =>
      if result = .eofOrError then .deleteUser else (login result msg).point
  | .handshake msg next => .send msg next.point .deleteUser
  | .senderLoop username current => .receive (senderRequest username current)
  | .senderReply msg username current => .send msg (.senderLoop username current) .deleteUser
  | .senderQuit => .send ok .deleteUser .deleteUser
  | .findAcquire caller name => .acquire .server none (.findBody caller name)
  | .findBody caller name => .findRoom name (.findRelease caller)
  | .findRelease caller r => .release .server (caller.found r)
  | .broadcastAcquire b => .acquire (.room b.room) (some b) (.broadcasting b [])
  | .broadcasting b visited =>
      .nextMember b.room visited (.enqueueAcquire b visited) (.broadcastRelease b)
  | .enqueueAcquire b visited u => .acquire (.queue u) none (.enqueuePush b visited u)
  | .enqueuePush b visited u => .pushBack u b (.enqueuePost b visited u)
  | .enqueuePost b visited u => .semPost u (.enqueueRelease b visited u)
  | .enqueueRelease b visited u => .release (.queue u) (.broadcasting b (u :: visited))
  | .broadcastRelease b => .release (.room b.room) (.senderReply ok b.username (some b.room))
  | .receiverJoin => .receive receiverRequest
  | .receiverRefuse msg => .send msg .deleteUser .deleteUser
  | .addAcquire r => .acquire (.room r) none (.addInsert r)
  | .addInsert r => .insertMember r (.addRelease r)
  | .addRelease r => .release (.room r) (.joinReply r)
  | .joinReply r => .send ok (.dequeueWait r) (.removeAcquire r)
  | .dequeueWait r => .semTimedwait (.dequeueAcquire r) fun result =>
      if result = .eofOrError then .removeAcquire r else .dequeueWait r
  | .dequeueAcquire r => .acquire (.queue w) none (.dequeuePop r)
  | .dequeuePop r => .popFront (.dequeueRelease r)
  | .dequeueRelease r msg => .release (.queue w) (.deliver r msg)
  | .deliver r msg => .send msg (.dequeueWait r) (.removeAcquire r)
  | .removeAcquire r => .acquire (.room r) none (.removeErase r)
  | .removeErase r => .eraseMember r (.removeRelease r)
  | .removeRelease r => .release (.room r) .deleteUser
  | .deleteUser => .deleteUser .ended
  | .ended => .halt

structure Room where
  roomName : List Char
  members : List Worker

structure MessageQueue where
  avail : ℕ
  messages : List Message

/-- `alive` holds between `new` and `delete`. -/
structure User where
  alive : Bool
  mqueue : MessageQueue

/-- The state of the server and of all its workers. -/
structure Server where
  rooms : List (List Char × RoomId)
  room : RoomId → Room
  user : Worker → User
  owner : Lock → Option Worker
  conn : Worker → Connection
  point : Worker → Point

/-- What a move shows. -/
inductive Event
  | received (w : Worker) (result : Result) (msg : Message)
  | sent (w : Worker) (msg : Message)
  /-- A broadcast took the lock of its room. -/
  | locked (w : Worker) (b : Broadcast) (msg : Message)
  | joined (u : Worker) (room : RoomId)
  | left (u : Worker) (room : RoomId)
  | enqueued (u : Worker) (msg : Message)
  | dequeued (u : Worker) (msg : Message)
  deriving DecidableEq

/-- What the scheduler decides: which member comes next, or that a wait times out. -/
inductive Choice
  | proceed
  | member (u : Worker)
  | timeout
  deriving DecidableEq

namespace Server

@[simps] def goto (s : Server) (w : Worker) (p : Point) : Server :=
  { s with point := Function.update s.point w p }

@[simps] def setUser (s : Server) (u : Worker) (user : User) : Server :=
  { s with user := Function.update s.user u user }

@[simps] def setQueue (s : Server) (u : Worker) (mqueue : MessageQueue) : Server :=
  { s with user := Function.update s.user u { s.user u with mqueue := mqueue } }

@[simps] def setMembers (s : Server) (r : RoomId) (members : List Worker) : Server :=
  { s with room := Function.update s.room r { s.room r with members := members } }

@[simps] def setConn (s : Server) (w : Worker) (conn : Connection) : Server :=
  { s with conn := Function.update s.conn w conn }

@[simps] def setOwner (s : Server) (l : Lock) (owner : Option Worker) : Server :=
  { s with owner := Function.update s.owner l owner }

/-- The delivery that `broadcast_message` makes of its arguments. -/
def delivery (s : Server) (b : Broadcast) : Message :=
  ⟨tagDelivery, (s.room b.room).roomName ++ ':' :: b.username ++ ':' :: b.text⟩

@[simps] def createRoom (s : Server) (name : List Char) : Server :=
  { s with
    rooms := s.rooms ++ [(name, s.rooms.length)]
    room := Function.update s.room s.rooms.length ⟨name, []⟩ }

/-- `find_or_create_room` under the lock: the room and the state behind it. -/
def findOrCreateRoom (s : Server) (name : List Char) : RoomId × Server :=
  match s.rooms.lookup name with
  | some r => (r, s)
  | none => (s.rooms.length, s.createRoom name)

/-- An operation of a worker. A blocked operation has no result, and neither has the front of
an empty queue. -/
def execute (w : Worker) (choice : Choice) (s : Server) : Operation → Option (List Event × Server)
  | .newUser next => some ([], (s.setUser w ⟨true, ⟨0, []⟩⟩).goto w next)
  | .deleteUser next => some ([], (s.setUser w { s.user w with alive := false }).goto w next)
  | .receive next =>
      let (_, msg, conn) := (s.conn w).receive ⟨[], []⟩
      some ([.received w conn.lastResult msg],
        (s.setConn w conn).goto w (next conn.lastResult msg))
  | .send msg sent failed =>
      let (written, conn) := (s.conn w).send msg
      some (if written then [.sent w msg] else [],
        (s.setConn w conn).goto w (if conn.lastResult = .eofOrError then failed else sent))
  | .acquire l b next =>
      if s.owner l = none then
        some ((b.map fun b => .locked w b (s.delivery b)).toList,
          (s.setOwner l (some w)).goto w next)
      else none
  | .release l next => some ([], (s.setOwner l none).goto w next)
  | .findRoom name next =>
      let (r, s) := s.findOrCreateRoom name
      some ([], s.goto w (next r))
  | .insertMember r next =>
      some ([.joined w r], (s.setMembers r ((s.room r).members.insert w)).goto w next)
  | .eraseMember r next =>
      some ([.left w r], (s.setMembers r ((s.room r).members.erase w)).goto w next)
  | .nextMember r visited next last =>
      match choice with
      | .member u =>
          if u ∈ (s.room r).members ∧ u ∉ visited then some ([], s.goto w (next u)) else none
      | _ => if ∀ u ∈ (s.room r).members, u ∈ visited then some ([], s.goto w last) else none
  | .pushBack u b next =>
      let queue := (s.user u).mqueue
      some ([.enqueued u (s.delivery b)],
        (s.setQueue u { queue with messages := queue.messages ++ [s.delivery b] }).goto w next)
  | .semPost u next =>
      let queue := (s.user u).mqueue
      some ([], (s.setQueue u { queue with avail := queue.avail + 1 }).goto w next)
  | .semTimedwait next timeout =>
      let queue := (s.user w).mqueue
      match choice with
      | .timeout => some ([], s.goto w (timeout (s.conn w).lastResult))
      | _ =>
          if 0 < queue.avail then
            some ([], (s.setQueue w { queue with avail := queue.avail - 1 }).goto w next)
          else none
  | .popFront next =>
      let queue := (s.user w).mqueue
      match queue.messages with
      | [] => none
      | msg :: messages =>
          some ([.dequeued w msg],
            (s.setQueue w { queue with messages := messages }).goto w (next msg))
  | .halt => none

/-- A move of a worker. -/
def step (s : Server) (w : Worker) (choice : Choice) : Option (List Event × Server) :=
  s.execute w choice (code w (s.point w))

/-- The moves of a schedule, one after the other. -/
def exec (s : Server) : List (Worker × Choice) → Option (List Event × Server)
  | [] => some ([], s)
  | (w, choice) :: schedule =>
      (s.step w choice).bind fun move =>
        (move.2.exec schedule).map fun moves => (move.1 ++ moves.1, moves.2)

/-- The server before any client, with the connections that its workers will get. A worker at
its start has no thread yet. -/
def initial (conn : Worker → Connection) : Server where
  rooms := []
  room := fun _ => ⟨[], []⟩
  user := fun _ => ⟨false, ⟨0, []⟩⟩
  owner := fun _ => none
  conn := conn
  point := fun _ => .start

end Server

/-- A run of the server: its events and the state it has reached. -/
inductive Run (conn : Worker → Connection) : List Event → Server → Prop
  | start : Run conn [] (Server.initial conn)
  | step {events : List Event} {s s' : Server} {es : List Event} (w : Worker) (choice : Choice) :
      Run conn events s → s.step w choice = some (es, s') → Run conn (events ++ es) s'

/-- A schedule makes its first move and then the others. -/
theorem Server.exec_cons {s s' : Server} {w : Worker} {choice : Choice}
    {schedule : List (Worker × Choice)} {events : List Event}
    (hexec : s.exec ((w, choice) :: schedule) = some (events, s')) :
    ∃ es s₁ more, s.step w choice = some (es, s₁) ∧ s₁.exec schedule = some (more, s') ∧
      events = es ++ more := by
  simp only [Server.exec, Option.bind_eq_some_iff, Option.map_eq_some_iff, Prod.mk.injEq] at hexec
  obtain ⟨⟨es, s₁⟩, hstep, ⟨more, s₂⟩, hmore, rfl, rfl⟩ := hexec
  exact ⟨es, s₁, more, hstep, hmore, rfl⟩

theorem Server.exec_append {s s₁ s₂ : Server} {schedule more : List (Worker × Choice)}
    {events es : List Event} (hexec : s.exec schedule = some (events, s₁))
    (hmore : s₁.exec more = some (es, s₂)) :
    s.exec (schedule ++ more) = some (events ++ es, s₂) := by
  induction schedule generalizing s events with
  | nil =>
    cases hexec
    exact hmore
  | cons move schedule ih =>
    obtain ⟨w, choice⟩ := move
    obtain ⟨es₁, s₁', es₂, hstep, hrest, rfl⟩ := Server.exec_cons hexec
    rw [List.cons_append, Server.exec, hstep, Option.bind_some, ih hrest, Option.map_some,
      List.append_assoc]

theorem Run.exec {conn : Worker → Connection} {events es : List Event} {s s' : Server}
    {schedule : List (Worker × Choice)} (hrun : Run conn events s)
    (hexec : s.exec schedule = some (es, s')) : Run conn (events ++ es) s' := by
  induction schedule generalizing events es s with
  | nil =>
    obtain ⟨rfl, rfl⟩ : es = [] ∧ s' = s := by simpa [Server.exec, eq_comm] using hexec
    simpa using hrun
  | cons move schedule ih =>
    obtain ⟨w, choice⟩ := move
    obtain ⟨es₁, s₁, es₂, hstep, hrest, rfl⟩ := Server.exec_cons hexec
    rw [← List.append_assoc]
    exact ih (.step w choice hrun hstep) hrest

end CsfAssignments.Chat
