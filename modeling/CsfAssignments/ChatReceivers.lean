import CsfAssignments.ClientPrograms
import CsfAssignments.DeliveryPrinting
import CsfAssignments.DeliverySizes
import CsfAssignments.ServerRest
import CsfAssignments.WorkerOutput

/-!
# Receiver programs at the server

A worker whose client is the receiver program, and what the program prints. The program asks for a
session and for a room and then only reads, so everything that it prints is decided by what its
worker has written.
-/

namespace CsfAssignments.Chat
open TopicFeeds

section Login

/-- A username that the server accepts, on a login line that fits its buffer. -/
structure Username (username : List Char) : Prop where
  nonempty : username ≠ []
  chars : ∀ c ∈ username, c ∈ alphabet
  length_lt : username.length + 8 < maxLen

/-- A name that stays as it is on its way to the server and through the deliveries. -/
structure RoomName (roomName : List Char) : Prop where
  colon_notMem : ':' ∉ roomName
  newline_notMem : '\n' ∉ roomName
  nul_notMem : Char.ofNat 0 ∉ roomName
  trimmed : rightTrim roomName = roomName
  length_lt : roomName.length + 6 < maxLen

variable {username roomName tag : List Char}

/-- Whether the characters are in the alphabet can be computed. -/
theorem chars_of_all (hall : username.all (fun c => c ∈ alphabet) = true) :
    ∀ c ∈ username, c ∈ alphabet :=
  fun c hc => of_decide_eq_true (List.all_eq_true.mp hall c hc)

theorem Username.plain (hname : Username username) :
    '\n' ∉ username ∧ Char.ofNat 0 ∉ username := by
  have hplain : '\n' ∉ alphabet ∧ Char.ofNat 0 ∉ alphabet := by decide
  exact ⟨fun h => hplain.1 (hname.chars _ h), fun h => hplain.2 (hname.chars _ h)⟩

/-- Nothing is trimmed off a name but its newline. -/
theorem Username.rightTrim_eq (hname : Username username) :
    rightTrim (username ++ ['\n']) = username := by
  rw [Sender.rightTrim_newline]
  refine List.rdropWhile_eq_self_iff.mpr fun hne htrimmed => ?_
  have hchar : username.getLast hne ∈ alphabet := hname.chars _ (List.getLast_mem hne)
  have hnone : alphabet.all (fun c => c ∉ trimmed) = true := by decide
  exact of_decide_eq_true (List.all_eq_true.mp hnone _ hchar) (of_decide_eq_true htrimmed)

/-- The login of a username is answered with `ok`. -/
theorem Username.login_eq (hname : Username username) (tag : List Char) :
    login .success ⟨tag, username ++ ['\n']⟩ =
      .reply ok (chooseSession ⟨tag, username ++ ['\n']⟩) := by
  have hlen := hname.length_lt
  have hlimit : maxLen < npos := by decide
  have hnewline : hasNewline (username ++ ['\n']) := by
    show find (username ++ ['\n']) '\n' ≠ npos
    rw [find_append hname.plain.1]
    omega
  have hpos : 0 < username.length := List.length_pos_iff.mpr hname.nonempty
  have hall : findFirstNotOf username alphabet = npos := by
    have hnone : username.findIdx? (fun c => c ∉ alphabet) = none :=
      List.findIdx?_eq_none_iff.mpr fun c hc => by simpa using hname.chars c hc
    rw [findFirstNotOf, hnone]
    rfl
  have hresult : ¬Result.success = .invalidMsg := by decide
  have hvalid : ¬((username ++ ['\n']).length ≤ 1 ∨
      findFirstNotOf (rightTrim (username ++ ['\n'])) alphabet ≠ npos) := by
    rw [hname.rightTrim_eq, hall, List.length_append, List.length_singleton]
    omega
  rw [login, if_neg hresult, checkLogin, if_neg (not_not_intro hnewline), if_neg hvalid]

/-- A receiver is answered with `ok`. -/
theorem Username.login_receiver (hname : Username username) :
    login .success ⟨tagRlogin, username ++ ['\n']⟩ = .reply ok (.receiver username) := by
  rw [hname.login_eq, chooseSession, if_neg (show tagRlogin ≠ tagSlogin by decide), if_pos rfl,
    hname.rightTrim_eq]

theorem Username.readable (hname : Username username) (htag : tag ∈ knownTags)
    (hlen : tag.length = 6) : Message.Readable ⟨tag, username⟩ := by
  have hsize := hname.length_lt
  have hencode : (encode ⟨tag, username⟩).length = username.length + 8 := by
    rw [length_encode htag hname.plain.2]
    show tag.length + username.length + 2 = _
    omega
  exact ⟨⟨htag, hname.plain.1, hname.plain.2, by omega⟩, by omega⟩

theorem RoomName.readable (hroom : RoomName roomName) :
    Message.Readable (Receiver.messageJoined roomName) := by
  have hsize := hroom.length_lt
  have hknown : tagJoin ∈ knownTags := by decide
  have htag : tagJoin.length = 4 := rfl
  have hencode : (encode (Receiver.messageJoined roomName)).length = roomName.length + 6 := by
    rw [length_encode hknown hroom.nul_notMem]
    show tagJoin.length + roomName.length + 2 = _
    omega
  exact ⟨⟨hknown, hroom.newline_notMem, hroom.nul_notMem, by omega⟩, by omega⟩

/-- A request for the room is understood. -/
theorem RoomName.request_eq (hroom : RoomName roomName) :
    receiverRequest .success ⟨tagJoin, roomName ++ ['\n']⟩ = .findAcquire .receiver roomName := by
  have hlen := hroom.length_lt
  have hlimit : maxLen < npos := by decide
  have hnewline : hasNewline (roomName ++ ['\n']) := by
    show find (roomName ++ ['\n']) '\n' ≠ npos
    rw [find_append hroom.newline_notMem]
    omega
  rw [receiverRequest, if_neg (by decide), if_neg (by simp [hnewline]), Sender.rightTrim_newline,
    hroom.trimmed]

end Login

section Served

/-- The client of the worker is the receiver program: it has sent its two requests on a connection
on which nothing was written before. -/
structure Receives (conn : Connection) (username roomName : List Char) : Prop where
  stream : ∃ rest, conn.fdbuf.stream = encode ⟨tagRlogin, username⟩ ++
    (encode (Receiver.messageJoined roomName) ++ rest)
  sent : conn.out.sent = []

/-- The connection and the events of the worker of a receiver program at its program point. Behind
a failed write it only closes. -/
def ReceiverServed (u : Worker) (username roomName rest : List Char) (s : Server)
    (h : List Event) : Point → Prop
  | .start | .login => replies h = [] ∧ joins h = [] ∧
      (s.conn u).fdbuf.stream = encode ⟨tagRlogin, username⟩ ++
        (encode (Receiver.messageJoined roomName) ++ rest)
  | .handshake msg next => replies h = [] ∧ joins h = [] ∧ msg = ok ∧ next = .receiver username ∧
      (s.conn u).fdbuf.stream = encode (Receiver.messageJoined roomName) ++ rest
  | .receiverJoin => replies h = [ok] ∧ joins h = [] ∧
      (s.conn u).fdbuf.stream = encode (Receiver.messageJoined roomName) ++ rest
  | .findAcquire .receiver name | .findBody .receiver name =>
      replies h = [ok] ∧ joins h = [] ∧ name = roomName
  | .findRelease .receiver r | .addAcquire r | .addInsert r =>
      replies h = [ok] ∧ joins h = [] ∧ s.rooms.lookup roomName = some r
  | .addRelease r | .joinReply r | .dequeueWait r | .dequeueAcquire r | .dequeuePop r
  | .dequeueRelease r _ | .deliver r _ =>
      replies h = ok :: written h ∧ joins h = [r] ∧ s.rooms.lookup roomName = some r
  | .removeAcquire _ | .removeErase _ | .removeRelease _ | .deleteUser | .ended =>
      (s.conn u).lastResult = .eofOrError
  | _ => False

variable {u : Worker} {username roomName rest : List Char} {s t : Server} {p next : Point}
  {es h : List Event}

/-- The other workers leave the connection alone, and no room is renamed. -/
theorem ReceiverServed.mono (hserved : ReceiverServed u username roomName rest s h p)
    (hlookup : ∀ name r, s.rooms.lookup name = some r → t.rooms.lookup name = some r)
    (hconn : t.conn u = s.conn u) : ReceiverServed u username roomName rest t h p := by
  cases p with
  | start | login | handshake msg next | receiverJoin | removeAcquire r | removeErase r
  | removeRelease r | deleteUser | ended =>
    simp only [ReceiverServed, hconn]
    exact hserved
  | findAcquire caller name | findBody caller name => cases caller <;> exact hserved
  | findRelease caller r =>
    cases caller with
    | sender username => exact hserved
    | receiver => exact ⟨hserved.1, hserved.2.1, hlookup _ _ hserved.2.2⟩
  | addAcquire r | addInsert r | addRelease r | joinReply r | dequeueWait r | dequeueAcquire r
  | dequeuePop r | dequeueRelease r msg | deliver r msg =>
    exact ⟨hserved.1, hserved.2.1, hlookup _ _ hserved.2.2⟩
  | _ => exact hserved

/-- A join and what is written behind it. -/
private theorem written_joined (hreplies : replies h = [ok]) (hjoins : joins h = []) (r : RoomId) :
    replies (h ++ [.joined u r]) = ok :: written (h ++ [.joined u r]) ∧
      joins (h ++ [.joined u r]) = [r] := by
  rw [replies_append, written_append_of_joins_nil _ hjoins, joins_append, hreplies, hjoins]
  exact ⟨rfl, rfl⟩

/-- Behind the join everything that is sent is written, and nothing is joined. -/
private theorem written_behind {r : RoomId} (hreplies : replies h = ok :: written h)
    (hjoins : joins h = [r]) (hes : joins es = []) :
    replies (h ++ es) = ok :: written (h ++ es) ∧ joins (h ++ es) = [r] := by
  rw [replies_append, written_append _ (by rw [hjoins]; exact List.cons_ne_nil _ _), hreplies,
    joins_append, hjoins, hes]
  exact ⟨rfl, rfl⟩

/-- What a move without replies and joins adds. -/
private theorem told_quiet {l : List Message} {l' : List RoomId} (hreplies : replies h = l)
    (hjoins : joins h = l') (hes : replies es = []) (hes' : joins es = []) :
    replies (h ++ es) = l ∧ joins (h ++ es) = l' := by
  rw [replies_append, joins_append, hreplies, hjoins, hes, hes', List.append_nil, List.append_nil]
  exact ⟨rfl, rfl⟩

/-- A failed write is kept in the connection. -/
private theorem lastResult_notSent {msg : Message} {conn : Connection}
    (hsend : (s.conn u).send msg = (false, conn)) :
    ((s.setConn u conn).conn u).lastResult = .eofOrError := by
  rw [Server.setConn_conn, Function.update_self]
  exact Connection.send_false hsend

/-- The worker reads the login. -/
private theorem ReceiverServed.step_login (hname : Username username)
    (hserved : ReceiverServed u username roomName rest s h .login)
    (hmove : Move u s (code u .login) es t next) :
    ReceiverServed u username roomName rest t (h ++ own u es) next := by
  obtain ⟨hreplies, hjoins, hstream⟩ := hserved
  rw [code] at hmove
  cases hmove with
  | @receive _ received msg conn hreceive =>
    obtain ⟨conn', hwhole, hbehind⟩ :=
      (hname.readable (show tagRlogin ∈ knownTags by decide) rfl).receive hstream
    rw [hreceive] at hwhole
    cases hwhole
    rw [own_of_worker rfl]
    dsimp only
    rw [Connection.receive_true hreceive, if_neg (by decide), hname.login_receiver]
    obtain ⟨htold, hjoined⟩ :=
      told_quiet hreplies hjoins (show replies [.received u .success _] = [] from rfl) rfl
    refine ⟨htold, hjoined, rfl, rfl, ?_⟩
    rw [Server.setConn_conn, Function.update_self]
    exact hbehind

/-- The worker replies to the login. -/
private theorem ReceiverServed.step_handshake {msg : Message} {session : Login}
    (hserved : ReceiverServed u username roomName rest s h (.handshake msg session))
    (hmove : Move u s (code u (.handshake msg session)) es t next) :
    ReceiverServed u username roomName rest t (h ++ own u es) next := by
  obtain ⟨hreplies, hjoins, rfl, rfl, hstream⟩ := hserved
  rw [code] at hmove
  cases hmove with
  | sent hsend =>
    rw [own_of_worker rfl]
    refine ⟨?_, ?_, ?_⟩
    · rw [replies_append, hreplies]
      rfl
    · rw [joins_append, hjoins]
      rfl
    · rw [Server.setConn_conn, Function.update_self, Connection.send_fdbuf hsend]
      exact hstream
  | notSent hsend => exact lastResult_notSent hsend

/-- The worker reads the name of the room. -/
private theorem ReceiverServed.step_receiverJoin (hroom : RoomName roomName)
    (hserved : ReceiverServed u username roomName rest s h .receiverJoin)
    (hmove : Move u s (code u .receiverJoin) es t next) :
    ReceiverServed u username roomName rest t (h ++ own u es) next := by
  obtain ⟨hreplies, hjoins, hstream⟩ := hserved
  rw [code] at hmove
  cases hmove with
  | @receive _ received msg conn hreceive =>
    obtain ⟨conn', hwhole, -⟩ := hroom.readable.receive hstream
    rw [hreceive] at hwhole
    cases hwhole
    rw [own_of_worker rfl, Connection.receive_true hreceive]
    show ReceiverServed _ _ _ _ _ _ (receiverRequest _ ⟨tagJoin, roomName ++ ['\n']⟩)
    rw [hroom.request_eq]
    obtain ⟨htold, hjoined⟩ :=
      told_quiet hreplies hjoins (show replies [.received u .success _] = [] from rfl) rfl
    exact ⟨htold, hjoined, rfl⟩

/-- The worker finds the room of the name or creates it. -/
private theorem ReceiverServed.step_findBody {name : List Char}
    (hserved : ReceiverServed u username roomName rest s h (.findBody .receiver name))
    (hmove : Move u s (code u (.findBody .receiver name)) es t next) :
    ReceiverServed u username roomName rest t (h ++ own u es) next := by
  obtain ⟨hreplies, hjoins, rfl⟩ := hserved
  rw [code] at hmove
  cases hmove with
  | findRoom hr => exact (List.append_nil h).symm ▸ ⟨hreplies, hjoins, hr⟩
  | createRoom hr =>
    refine (List.append_nil h).symm ▸ ⟨hreplies, hjoins, ?_⟩
    rw [lookup_createRoom, hr, if_pos rfl]
    rfl

/-- The worker writes behind its join. -/
private theorem ReceiverServed.step_send {r : RoomId} {msg : Message}
    (hreplies : replies h = ok :: written h) (hjoins : joins h = [r])
    (hr : s.rooms.lookup roomName = some r)
    (hmove : Move u s (.send msg (.dequeueWait r) (.removeAcquire r)) es t next) :
    ReceiverServed u username roomName rest t (h ++ own u es) next := by
  cases hmove with
  | sent hsend =>
    rw [own_of_worker rfl]
    obtain ⟨hwritten, hjoined⟩ :=
      written_behind hreplies hjoins (show joins [.sent u _] = [] from rfl)
    exact ⟨hwritten, hjoined, hr⟩
  | notSent hsend => exact lastResult_notSent hsend

/-- A move of the worker goes on with the login, the join and the deliveries, or a write fails. -/
theorem ReceiverServed.step (hname : Username username) (hroom : RoomName roomName)
    (hserved : ReceiverServed u username roomName rest s h p)
    (hmove : Move u s (code u p) es t next) :
    ReceiverServed u username roomName rest t (h ++ own u es) next := by
  cases p with
  | login => exact hserved.step_login hname hmove
  | handshake msg session => exact hserved.step_handshake hmove
  | receiverJoin => exact hserved.step_receiverJoin hroom hmove
  | findAcquire caller name | findRelease caller r =>
    cases caller with
    | sender username => exact hserved.elim
    | receiver =>
      rw [code] at hmove
      cases hmove
      exact (List.append_nil h).symm ▸ hserved
  | findBody caller name =>
    cases caller with
    | sender username => exact hserved.elim
    | receiver => exact hserved.step_findBody hmove
  | addInsert r =>
    obtain ⟨hreplies, hjoins, hr⟩ := hserved
    rw [code] at hmove
    cases hmove
    rw [own_of_worker rfl]
    obtain ⟨hwritten, hjoined⟩ := written_joined (u := u) hreplies hjoins r
    exact ⟨hwritten, hjoined, hr⟩
  | joinReply r | deliver r msg =>
    obtain ⟨hreplies, hjoins, hr⟩ := hserved
    exact ReceiverServed.step_send hreplies hjoins hr hmove
  | dequeueWait r =>
    rw [code] at hmove
    cases hmove with
    | semWait _ => exact (List.append_nil h).symm ▸ hserved
    | timeout =>
      dsimp only
      split_ifs with hresult
      · exact hresult
      · exact (List.append_nil h).symm ▸ hserved
  | dequeuePop r =>
    obtain ⟨hreplies, hjoins, hr⟩ := hserved
    rw [code] at hmove
    cases hmove
    rw [own_of_worker rfl]
    obtain ⟨hwritten, hjoined⟩ :=
      written_behind hreplies hjoins (show joins [.dequeued u _] = [] from rfl)
    exact ⟨hwritten, hjoined, hr⟩
  | start | addAcquire r | addRelease r | dequeueAcquire r | dequeueRelease r msg =>
    rw [code] at hmove
    cases hmove
    exact (List.append_nil h).symm ▸ hserved
  | removeAcquire r | removeErase r | removeRelease r | deleteUser =>
    rw [code] at hmove
    cases hmove
    exact hserved
  | ended =>
    rw [code] at hmove
    cases hmove
  | _ => exact hserved.elim

theorem Run.receiverServed {conn : Worker → Connection} {events : List Event}
    (hrun : Run conn events s) (hname : Username username) (hroom : RoomName roomName)
    (hstream : (conn u).fdbuf.stream = encode ⟨tagRlogin, username⟩ ++
      (encode (Receiver.messageJoined roomName) ++ rest)) :
    ReceiverServed u username roomName rest s (own u events) (s.point u) :=
  hrun.told_conn (fun s hs => ⟨rfl, rfl, by rw [hs]; exact hstream⟩)
    (fun hserved hlookup hconn => hserved.mono hlookup hconn)
    (fun hserved hmove => hserved.step hname hroom hmove)

/-- As long as no write fails a user stays in the room that it has joined. -/
theorem ReceiverServed.joined (hserved : ReceiverServed u username roomName rest s h p)
    (hintact : (s.conn u).lastResult ≠ .eofOrError) (hjoins : joins h ≠ []) :
    ∃ r, joins h = [r] ∧ replies h = ok :: written h ∧ s.rooms.lookup roomName = some r ∧
      (stage u p).member = some r ∧ ¬p.Closing := by
  cases p with
  | addRelease r | joinReply r | dequeueWait r | dequeueAcquire r | dequeuePop r
  | dequeueRelease r msg | deliver r msg =>
    exact ⟨r, hserved.2.1, hserved.1, hserved.2.2, rfl, id⟩
  | removeAcquire r | removeErase r | removeRelease r | deleteUser | ended =>
    exact absurd hserved hintact
  | findAcquire caller name | findBody caller name | findRelease caller r =>
    cases caller with
    | sender username => exact hserved.elim
    | receiver => exact absurd hserved.2.1 hjoins
  | start | login | handshake msg next | receiverJoin | addAcquire r | addInsert r =>
    exact absurd hserved.2.1 hjoins
  | _ => exact hserved.elim

end Served

section Printing
variable {conn : Worker → Connection} {events : List Event} {s : Server} {u : Worker}
  {username roomName : List Char} {client : Connection} {r : RoomId} {before after : List Event}

/-- The log of a room in any part of a run. -/
theorem topicLog_notices {es : List Event}
    (hes : ∀ w b msg, .locked w b msg ∈ es → msg = s.delivery b) (r : RoomId) :
    topicLog r (notices es) = (roomLog r es).map s.delivery := by
  induction es with
  | nil => rfl
  | cons e es ih =>
    have hrest := ih fun w b msg he => hes w b msg (List.mem_cons_of_mem e he)
    cases e with
    | locked w b msg =>
      have hmsg := hes w b msg List.mem_cons_self
      have hnotices : notices (.locked w b msg :: es) = .publish b.room msg :: notices es := rfl
      have hlog : roomLog r (.locked w b msg :: es) =
          (if b.room = r then [b] else []) ++ roomLog r es := by
        by_cases hb : b.room = r <;> simp [roomLog, broadcasts, Event.broadcast, hb]
      rw [hnotices, topicLog, hlog, List.map_append, hrest, hmsg]
      split_ifs <;> rfl
    | _ => exact hrest

/-- The delivery of a short broadcast in the room of a receiver is received whole and printed. -/
theorem respond_broadcast (hrun : Run conn events s) (hroom : RoomName roomName)
    (hlookup : s.rooms.lookup roomName = some r) {b : Broadcast} (hb : b ∈ roomLog r events)
    (hfit : roomName.length + b.username.length + b.text.length + 12 < maxLen) :
    (s.delivery b).Readable ∧
      Receiver.respond roomName ⟨(s.delivery b).tag, (s.delivery b).data ++ ['\n']⟩ =
        [deliveryLine b] := by
  obtain ⟨hbroadcast, hr⟩ := List.mem_filter.mp hb
  obtain ⟨e, he, hsome⟩ := List.mem_filterMap.mp hbroadcast
  obtain ⟨w, msg, rfl⟩ : ∃ w msg, e = .locked w b msg := by
    cases e <;> first | (cases hsome; exact ⟨_, _, rfl⟩) | cases hsome
  have hspoken : Spoken (own w events) (s.point w) := hrun.spoken w
  obtain ⟨hnamed, htexted⟩ := hspoken.authored b (mem_broadcasts (mem_own he rfl))
  have htext : '\n' ∉ b.text ∧ Char.ofNat 0 ∉ b.text := hspoken.text_plain htexted
  have hasked : askedName roomName = roomName :=
    askedName_eq_iff.mpr ⟨hroom.newline_notMem, hroom.trimmed⟩
  have hdelivery : s.delivery b =
      ⟨tagDelivery, askedName roomName ++ ':' :: b.username ++ ':' :: b.text⟩ := by
    rw [Server.delivery, of_decide_eq_true hr, (hrun.roomMap.name _ _ hlookup).2, hasked]
  have hname : (s.room b.room).roomName = roomName := by
    rw [of_decide_eq_true hr, (hrun.roomMap.name _ _ hlookup).2]
  have hsize : (encode (s.delivery b)).length < maxLen := by
    refine lt_of_le_of_lt (List.takeWhile_prefix _).length_le ?_
    rw [length_delivery, hname]
    exact hfit
  have hformed : (s.delivery b).WellFormed := by
    rw [hdelivery]
    exact wellFormed_delivery hroom.nul_notMem hnamed.plain.2 htext (hdelivery ▸ hsize.le)
  have hlimit : maxLen < 2 ^ 31 - 1 := by decide
  have hprinted : Receiver.respond roomName
      ⟨tagDelivery, roomName ++ ':' :: (b.username ++ ':' :: (b.text ++ ['\n']))⟩ =
        [.print (b.username ++ ": ".toList ++ (b.text ++ ['\n']))] :=
    Receiver.respond_delivery hroom.colon_notMem hnamed.plain.1
      (by simp [hnamed.plain.2.2, htext.2]) (by simp; omega)
  refine ⟨⟨hformed, hsize⟩, ?_⟩
  rw [hdelivery, hasked, deliveryLine]
  simpa using hprinted

/-- A receiver program that is still connected has been sent two `ok`s and then a prefix of what
was broadcast in its room since it joined, and at rest all of it. -/
theorem exists_heard (hrun : Run conn events s) (hname : Username username)
    (hroom : RoomName roomName) (hreceives : Receives (conn u) username roomName)
    (hintact : (s.conn u).lastResult ≠ .eofOrError)
    (hjoined : events = before ++ .joined u r :: after) (hanswered : written (own u events) ≠ []) :
    s.rooms.lookup roomName = some r ∧ ∃ heard, heard <+: roomLog r after ∧
      (s.Resting → heard = roomLog r after) ∧
      (s.conn u).out.sent = (ok :: ok :: heard.map s.delivery).flatMap encode := by
  obtain ⟨rest, hstream⟩ := hreceives.stream
  have hnotices : notices events = notices before ++ .subscribe u r :: notices after := by
    rw [hjoined, notices_append]
    rfl
  obtain ⟨⟨hjoins, -⟩, -, hwritten⟩ := hrun.segment_eq hnotices
  obtain ⟨r', hjoins', hreplies, hlookup, hmember, hopen⟩ :=
    (hrun.receiverServed hname hroom hstream).joined hintact
      (by rw [hjoins]; exact List.cons_ne_nil _ _)
  rw [hjoins] at hjoins'
  cases hjoins'
  have hafter : ∀ e ∈ after, e ∈ events := by
    rw [hjoined]
    exact fun e he => List.mem_append_right _ (List.mem_cons_of_mem _ he)
  have hlog : topicLog r (notices after) = (roomLog r after).map s.delivery :=
    topicLog_notices (fun w b msg he => hrun.locked (hafter _ he)) r
  have hsent := hrun.written u fun hclosing => absurd hclosing hopen
  rw [hreceives.sent, List.nil_append, hreplies] at hsent
  have hfirst : segment u r (notices after) <+: (roomLog r after).map s.delivery := by
    rw [← hlog]
    obtain ⟨more, hmore⟩ := List.takeWhile_prefix (l := notices after) fun n => !n.unsubscribes u
    conv_rhs => rw [← hmore, topicLog_append]
    exact List.prefix_append ..
  obtain ⟨msgs, hmsgs⟩ : ∃ msgs, written (own u events) = ok :: msgs := by
    cases hcases : written (own u events) with
    | nil => exact absurd hcases hanswered
    | cons msg msgs =>
      rw [hcases, List.cons_prefix_cons] at hwritten
      exact ⟨msgs, by rw [hwritten.1]⟩
  rw [hmsgs, List.prefix_cons_inj] at hwritten
  have hheard : msgs = ((roomLog r after).take msgs.length).map s.delivery := by
    rw [List.map_take]
    exact List.prefix_iff_eq_take.mp (hwritten.trans hfirst)
  refine ⟨hlookup, (roomLog r after).take msgs.length, List.take_prefix _ _, fun hrest => ?_, ?_⟩
  · have hall := hrest.written_eq hrun hnotices ((hrun.safe.member r u).mpr hmember)
    rw [hmsgs, hlog, List.cons.injEq] at hall
    refine List.take_of_length_le ?_
    rw [hall.2, List.length_map]
  · rw [hsent, hmsgs, ← hheard]

/-- What a receiver program prints of short broadcasts that it has been sent. -/
theorem Receiver.main_of_heard (hrun : Run conn events s) (hroom : RoomName roomName)
    (hlookup : s.rooms.lookup roomName = some r) {heard : List Broadcast}
    (hheard : heard ⊆ roomLog r events)
    (hfit : ∀ b ∈ heard, roomName.length + b.username.length + b.text.length + 12 < maxLen)
    (hclient : client.fdbuf.stream = (ok :: ok :: heard.map s.delivery).flatMap encode) {rounds : ℕ}
    (hrounds : rounds ≤ heard.length) : Receiver.main username roomName rounds client =
      .ok ((heard.take rounds).map deliveryLine) := by
  have hprinted (b : Broadcast) (hb : b ∈ heard) :=
    respond_broadcast hrun hroom hlookup (hheard hb) (hfit b hb)
  have hreadable : ∀ msg ∈ (heard.take rounds).map s.delivery, msg.Readable := by
    intro msg hmsg
    obtain ⟨b, hb, rfl⟩ := List.mem_map.mp hmsg
    exact (hprinted b (List.mem_of_mem_take hb)).1
  have hstream : client.fdbuf.stream = (ok :: ok :: (heard.take rounds).map s.delivery).flatMap
      encode ++ ((heard.drop rounds).map s.delivery).flatMap encode := by
    rw [hclient, ← List.flatMap_append, List.cons_append, List.cons_append, ← List.map_append,
      List.take_append_drop]
  have hmain : Receiver.main username roomName ((heard.take rounds).map s.delivery).length client =
      _ := Receiver.main_of_stream hreadable hstream
  rw [List.length_map, List.length_take, min_eq_left hrounds, List.flatMap_map] at hmain
  have hlines : ∀ b ∈ heard.take rounds, Receiver.respond roomName
      ⟨(s.delivery b).tag, (s.delivery b).data ++ ['\n']⟩ = [deliveryLine b] :=
    fun b hb => (hprinted b (List.mem_of_mem_take hb)).2
  rw [hmain, List.flatMap_congr hlines, List.map_eq_flatMap]

/-- What is broadcast behind a point of a run is broadcast in the run. -/
theorem roomLog_subset {e : Event} (hsplit : events = before ++ e :: after) (r : RoomId) :
    roomLog r after ⊆ roomLog r events := by
  rw [hsplit, roomLog, roomLog, ← List.singleton_append, broadcasts_append, broadcasts_append,
    List.filter_append, List.filter_append]
  exact List.subset_append_of_subset_right _ (List.subset_append_right _ _)

/-- What a receiver program prints, in every reachable state of the server. Once its requests are
answered, and as long as it is connected, it has printed some first lines of what was broadcast in
its room since it joined, each with the username and the text of its sender; and when the server is
at rest it has been sent all of them. -/
theorem receiver_prints (hrun : Run conn events s) (hname : Username username)
    (hroom : RoomName roomName) (hreceives : Receives (conn u) username roomName)
    (hintact : (s.conn u).lastResult ≠ .eofOrError)
    (hjoined : events = before ++ .joined u r :: after) (hanswered : written (own u events) ≠ [])
    (hfit : ∀ b ∈ roomLog r after,
      roomName.length + b.username.length + b.text.length + 12 < maxLen)
    (hclient : client.fdbuf.stream = (s.conn u).out.sent) :
    s.rooms.lookup roomName = some r ∧ ∃ heard, heard <+: roomLog r after ∧
      (s.Resting → heard = roomLog r after) ∧ ∀ rounds ≤ heard.length,
        Receiver.main username roomName rounds client =
          .ok ((heard.take rounds).map deliveryLine) := by
  obtain ⟨hlookup, heard, hfirst, hrest, hsent⟩ :=
    exists_heard hrun hname hroom hreceives hintact hjoined hanswered
  refine ⟨hlookup, heard, hfirst, hrest, fun rounds hrounds => ?_⟩
  exact Receiver.main_of_heard hrun hroom hlookup
    (fun b hb => roomLog_subset hjoined r (hfirst.subset hb))
    (fun b hb => hfit b (hfirst.subset hb)) (by rw [hclient, hsent]) hrounds

end Printing

theorem username_bob : Username "bob".toList := ⟨by decide, chars_of_all (by decide), by decide⟩

theorem roomName_lobby : RoomName "lobby".toList :=
  ⟨by decide, by decide, by decide, by decide, by decide⟩

theorem receiver_prints_hi : ∃ events s before after, Run twoClients events s ∧
    events = before ++ .joined 0 0 :: after ∧ roomLog 0 after = [greeting] ∧
    s.rooms.lookup "lobby".toList = some 0 ∧ ∃ heard, heard <+: roomLog 0 after ∧
      (s.Resting → heard = roomLog 0 after) ∧ ∀ rounds ≤ heard.length,
        Receiver.main "bob".toList "lobby".toList rounds (freshConnection (s.conn 0).out.sent) =
          .ok ((heard.take rounds).map deliveryLine) := by
  have hexec : ((Server.initial twoClients).exec deliverToReceiver).map
      (fun moves => decide (moves.1 = moves.1.take 3 ++ .joined 0 0 :: moves.1.drop 4 ∧
        roomLog 0 (moves.1.drop 4) = [greeting] ∧ (moves.2.conn 0).lastResult = .success ∧
        written (own 0 moves.1) = [ok, lobbyDelivery])) = some true := by
    decide +kernel
  obtain ⟨⟨events, s⟩, hs, hreached⟩ := Option.map_eq_some_iff.mp hexec
  obtain ⟨hjoined, hlog, hconn, hwritten⟩ := of_decide_eq_true hreached
  have hrun : Run twoClients ([] ++ events) s := Run.start.exec hs
  have hstream : (twoClients 0).fdbuf.stream = encode ⟨tagRlogin, "bob".toList⟩ ++
      (encode (Receiver.messageJoined "lobby".toList) ++ []) := by decide +kernel
  have hfit : ∀ b ∈ roomLog 0 (events.drop 4),
      "lobby".toList.length + b.username.length + b.text.length + 12 < maxLen := by
    intro b hb
    rw [hlog, List.mem_singleton] at hb
    rw [hb]
    decide
  exact ⟨events, s, events.take 3, events.drop 4, hrun, hjoined, hlog,
    receiver_prints hrun username_bob roomName_lobby ⟨⟨[], hstream⟩, rfl⟩
      (by rw [show (s.conn 0).lastResult = .success from hconn]; decide) hjoined
      (by rw [List.nil_append, show written (own 0 events) = _ from hwritten]; simp) hfit
      (stream_freshConnection _)⟩

end CsfAssignments.Chat
