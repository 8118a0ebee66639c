import CsfAssignments.BroadcastAuthors
import CsfAssignments.ReceiverClient
import CsfAssignments.RoomDelivery

/-!
# Deliveries at the reader

The way of a message from the `sendall` of one client to the output of another one. The server
trims the name of a room and joins it to the username and the text with colons; the receiver takes
the delivery apart at the first two colons, and compares the first part with the name it has sent.
-/

namespace CsfAssignments.Chat
open Receiver

/-- The name that the server makes of the line in which a room is asked for. -/
def askedName (roomName : List Char) : List Char :=
  rightTrim (roomName.takeWhile fun c => c ≠ '\n')

theorem askedName_isPrefix (roomName : List Char) : askedName roomName <+: roomName :=
  (List.rdropWhile_prefix _ _).trans (List.takeWhile_prefix _)

/-- The server keeps the name exactly if it has one line and nothing is trimmed off its end. -/
theorem askedName_eq_iff {roomName : List Char} :
    askedName roomName = roomName ↔ '\n' ∉ roomName ∧ rightTrim roomName = roomName := by
  have hline : '\n' ∉ roomName ↔ roomName.takeWhile (fun c => c ≠ '\n') = roomName := by
    rw [List.takeWhile_eq_self_iff]
    exact ⟨fun h c hc => by simpa using ne_of_mem_of_not_mem hc h,
      fun h hin => by simpa using h _ hin⟩
  constructor
  · intro h
    have hwhole : roomName.takeWhile (fun c => c ≠ '\n') = roomName := by
      refine (List.takeWhile_prefix _).eq_of_length_le ?_
      calc roomName.length = (askedName roomName).length := by rw [h]
        _ ≤ _ := (List.rdropWhile_prefix _ _).length_le
    refine ⟨hline.mpr hwhole, ?_⟩
    rwa [askedName, hwhole] at h
  · rintro ⟨hnewline, htrim⟩
    rw [askedName, hline.mp hnewline, htrim]

/-- The first line of what a receiver sends to ask for a room. -/
private theorem exists_first_line (roomName rest : List Char) :
    ∃ u, roomName ++ '\n' :: rest = roomName.takeWhile (fun c => c ≠ '\n') ++ '\n' :: u := by
  induction roomName with
  | nil => exact ⟨rest, rfl⟩
  | cons c roomName ih =>
    by_cases hc : c = '\n'
    · subst hc
      exact ⟨roomName ++ '\n' :: rest, by simp⟩
    · obtain ⟨u, hu⟩ := ih
      exact ⟨u, by rw [List.takeWhile_cons_of_pos (by simpa using hc), List.cons_append, hu]; rfl⟩

theorem not_hasNewline {s : List Char} (h : '\n' ∉ s) : ¬hasNewline s :=
  not_not_intro (find_of_notMem h)

/-- The payload of the request, if it has a newline, is the first line of the name. -/
theorem receive_messageJoined {conn conn' : Connection} {roomName rest : List Char}
    {received : Bool} {msg : Message} (hnul : Char.ofNat 0 ∉ roomName)
    (hstream : conn.fdbuf.stream = encode (messageJoined roomName) ++ rest)
    (hreceive : conn.receive ⟨[], []⟩ = (received, msg, conn')) (hnewline : hasNewline msg.data) :
    rightTrim msg.data = askedName roomName := by
  have hjoin : ':' ∉ tagJoin ∧ '\n' ∉ tagJoin ∧ Char.ofNat 0 ∉ tagJoin := by decide
  have hcolon : '\n' ≠ ':' ∧ Char.ofNat 0 ≠ ':' := by decide
  have hlimit : maxLen = 255 := rfl
  have hnpos : maxLen < npos := by decide
  have htag : tagJoin.length = 4 := rfl
  obtain ⟨u, hu⟩ := exists_first_line roomName rest
  have hclean : '\n' ∉ roomName.takeWhile (fun c => c ≠ '\n') ∧
      Char.ofNat 0 ∉ roomName.takeWhile (fun c => c ≠ '\n') :=
    ⟨fun h => by simpa using List.mem_takeWhile_imp h,
      fun h => hnul ((List.takeWhile_prefix _).subset h)⟩
  rw [askedName]
  generalize roomName.takeWhile (fun c => c ≠ '\n') = first at hu hclean ⊢
  have hline {s : List Char} (hs : s <+: first) :
      '\n' ∉ tagJoin ++ ':' :: s ∧ Char.ofNat 0 ∉ tagJoin ++ ':' :: s := by
    simp only [List.mem_append, List.mem_cons, not_or]
    exact ⟨⟨hjoin.2.1, hcolon.1, fun h => hclean.1 (hs.subset h)⟩,
      ⟨hjoin.2.2, hcolon.2, fun h => hclean.2 (hs.subset h)⟩⟩
  have hread : conn.fdbuf.stream = tagJoin ++ ':' :: (first ++ '\n' :: u) := by
    have hknown : (messageJoined roomName).tag ∈ knownTags := show tagJoin ∈ knownTags by decide
    rw [hstream, encode_eq hknown hnul]
    simp only [messageJoined, List.append_assoc, List.cons_append, List.nil_append, hu]
  by_cases hlen : first.length + 7 ≤ maxLen
  · obtain ⟨hnewline', htext⟩ := hline (List.prefix_refl first)
    obtain ⟨fdbuf, -, hwhole⟩ := conn.receive_line hnewline' htext (by simp; omega)
      (by simpa using hread) ⟨[], []⟩
    rw [hreceive, List.append_assoc, List.cons_append, parse_colon hjoin.1 _ (by simp; omega)]
      at hwhole
    rw [(Prod.mk.inj (Prod.mk.inj hwhole).2).1]
    exact List.rdropWhile_concat_pos _ _ _ (by decide)
  · -- The line is cut before its newline, and the request is refused.
    have htake : (first.take 249).length = 249 := by simp; omega
    obtain ⟨hnewline', htext⟩ := hline (List.take_prefix 249 first)
    have hcut : conn.fdbuf.stream =
        tagJoin ++ ':' :: first.take 249 ++ (first.drop 249 ++ '\n' :: u) := by
      rw [hread, List.append_assoc, List.cons_append, ← List.append_assoc (first.take 249),
        List.take_append_drop]
    obtain ⟨fdbuf, -, hwhole⟩ := conn.receive_cut hnewline' htext (by simp [htag, htake]; omega)
      hcut ⟨[], []⟩
    rw [hreceive, parse_colon hjoin.1 _ (by omega)] at hwhole
    rw [(Prod.mk.inj (Prod.mk.inj hwhole).2).1] at hnewline
    exact absurd hnewline (not_hasNewline fun h => hclean.1 ((List.take_prefix 249 first).subset h))

/-- A receiver from the request for a room on: the stream that it will read, and then the room of
the name. -/
def JoinTold (u : Worker) (roomName rest : List Char) (s : Server) : Point → Prop
  | .receiverJoin => (s.conn u).fdbuf.stream = encode (messageJoined roomName) ++ rest
  | .findAcquire .receiver name | .findBody .receiver name => name = askedName roomName
  | .receiverRefuse _ | .deleteUser | .ended => True
  | .findRelease .receiver r | .addAcquire r | .addInsert r | .addRelease r | .joinReply r
  | .dequeueWait r | .dequeueAcquire r | .dequeuePop r | .dequeueRelease r _ | .deliver r _
  | .removeAcquire r | .removeErase r | .removeRelease r =>
      s.rooms.lookup (askedName roomName) = some r
  | _ => False

section Join
variable {u : Worker} {roomName rest : List Char} {s t : Server} {p next : Point}
  {es : List Event}

theorem JoinTold.mono (htold : JoinTold u roomName rest s p)
    (hlookup : ∀ name r, s.rooms.lookup name = some r → t.rooms.lookup name = some r)
    (hconn : t.conn u = s.conn u) : JoinTold u roomName rest t p := by
  cases p with
  | receiverJoin =>
    show (t.conn u).fdbuf.stream = _
    rw [hconn]
    exact htold
  | findAcquire caller name => cases caller <;> exact htold
  | findBody caller name => cases caller <;> exact htold
  | findRelease caller r =>
    cases caller with
    | sender username => exact htold
    | receiver => exact hlookup _ _ htold
  | _ => first | exact htold | exact hlookup _ _ htold

/-- The room that a receiver enters is that of the name. -/
theorem JoinTold.joins (htold : JoinTold u roomName rest s p)
    (hmove : Move u s (code u p) es t next) {r : RoomId} (hjoined : .joined u r ∈ es) :
    s.rooms.lookup (askedName roomName) = some r := by
  generalize hop : code u p = op at hmove
  cases hmove with
  | insertMember =>
    cases List.mem_singleton.mp hjoined
    cases p <;> first | cases hop; exact htold | cases hop
  | _ => simp at hjoined

theorem JoinTold.step (hnul : Char.ofNat 0 ∉ roomName) (htold : JoinTold u roomName rest s p)
    (hmove : Move u s (code u p) es t next) : JoinTold u roomName rest t next := by
  cases p with
  | receiverJoin =>
    rw [code] at hmove
    cases hmove with
    | receive hreceive =>
      unfold receiverRequest
      split_ifs with hresult hformat
      · trivial
      · trivial
      · exact receive_messageJoined hnul htold hreceive (not_not.mp (not_or.mp hformat).2)
  | findAcquire caller name =>
    rw [code] at hmove
    cases hmove
    cases caller <;> exact htold
  | findBody caller name =>
    cases caller with
    | sender username => exact htold.elim
    | receiver =>
      have hname : name = askedName roomName := htold
      subst hname
      rw [code] at hmove
      cases hmove with
      | findRoom hr => exact hr
      | createRoom hr =>
        show (s.createRoom _).rooms.lookup _ = _
        rw [lookup_createRoom, hr, if_pos rfl]
        rfl
  | findRelease caller r =>
    rw [code] at hmove
    cases hmove
    cases caller with
    | sender username => exact htold.elim
    | receiver => exact htold
  | dequeueWait r =>
    rw [code] at hmove
    cases hmove with
    | semWait _ => exact htold
    | timeout =>
      dsimp only
      split_ifs <;> exact htold
  | _ =>
    rw [code] at hmove
    cases hmove <;> first | exact htold | trivial

/-- The room that a receiver has entered since its request is that of the name. -/
theorem exec_joined {s s' : Server} {schedule : List (Worker × Choice)} {events : List Event}
    (hnul : Char.ofNat 0 ∉ roomName) (hpoint : s.point u = .receiverJoin)
    (hstream : (s.conn u).fdbuf.stream = encode (messageJoined roomName) ++ rest)
    (hexec : s.exec schedule = some (events, s')) {r : RoomId} (hjoined : .joined u r ∈ events) :
    s'.rooms.lookup (askedName roomName) = some r := by
  have htold := Server.exec_told (w := u)
    (P := fun s h p => JoinTold u roomName rest s p ∧
      ∀ r, .joined u r ∈ h → s.rooms.lookup (askedName roomName) = some r)
    (fun htold hlookup hconn =>
      ⟨htold.1.mono hlookup hconn, fun r hr => hlookup _ _ (htold.2 r hr)⟩)
    (fun htold hmove => ⟨htold.1.step hnul hmove, fun r hr => by
      rcases List.mem_append.mp hr with hold | hnew
      · exact hmove.lookup (htold.2 r hold)
      · exact hmove.lookup (htold.1.joins hmove (List.mem_of_mem_filter hnew))⟩)
    (h := []) ⟨by rw [hpoint]; exact hstream, fun r hr => absurd hr List.not_mem_nil⟩ hexec
  refine htold.2 r ?_
  rw [List.nil_append]
  exact mem_own hjoined rfl

end Join

section Delivery
variable {conn : Worker → Connection} {before events : List Event} {s s' : Server} {u w : Worker}
  {schedule : List (Worker × Choice)} {roomName rest more : List Char} {b : Broadcast}
  {msg : Message} {client : Connection}

private theorem plain_alphabet : ':' ∉ alphabet ∧ '\n' ∉ alphabet ∧ Char.ofNat 0 ∉ alphabet := by
  decide

/-- A username has none of the characters that the formats use. -/
theorem Named.plain {h : List Event} {username : List Char} (hnamed : Named h username) :
    ':' ∉ username ∧ '\n' ∉ username ∧ Char.ofNat 0 ∉ username := by
  obtain ⟨loginMes, -, -, hchars⟩ := hnamed
  exact ⟨fun h => plain_alphabet.1 (hchars _ h), fun h => plain_alphabet.2.1 (hchars _ h),
    fun h => plain_alphabet.2.2 (hchars _ h)⟩

/-- A text has neither a newline nor a terminator. -/
theorem Spoken.text_plain {h : List Event} {p : Point} {text : List Char} (hspoken : Spoken h p)
    (htexted : Texted h text) : '\n' ∉ text ∧ Char.ofNat 0 ∉ text := by
  obtain ⟨textMes, hrequest, -, rfl⟩ := htexted
  have hline : LineText textMes.data := hspoken.lines textMes hrequest
  exact ⟨hline.rightTrim, fun h => hline.nul_notMem ((List.rdropWhile_prefix _ _).subset h)⟩

/-- The delivery of a plain username and text in a room that a receiver has asked for. -/
theorem wellFormed_delivery {roomName username text : List Char} (hroom : Char.ofNat 0 ∉ roomName)
    (husername : '\n' ∉ username ∧ Char.ofNat 0 ∉ username)
    (htext : '\n' ∉ text ∧ Char.ofNat 0 ∉ text)
    (hlen : (encode ⟨tagDelivery, askedName roomName ++ ':' :: username ++ ':' :: text⟩).length ≤
      maxLen) :
    Message.WellFormed ⟨tagDelivery, askedName roomName ++ ':' :: username ++ ':' :: text⟩ := by
  have hcolon : '\n' ≠ ':' ∧ Char.ofNat 0 ≠ ':' := by decide
  have hname : '\n' ∉ askedName roomName ∧ Char.ofNat 0 ∉ askedName roomName := by
    refine ⟨fun h => ?_, fun h => hroom ((askedName_isPrefix roomName).subset h)⟩
    simpa using List.mem_takeWhile_imp ((List.rdropWhile_prefix _ _).subset h)
  exact ⟨show tagDelivery ∈ knownTags by decide, by simp [hname.1, husername.1, htext.1, hcolon.1],
    by simp [hname.2, husername.2, htext.2, hcolon.2], hlen⟩

/-- A delivery that is written out: the username, a colon and the text on a line. -/
def deliveryLine (b : Broadcast) : Output := .print (b.username ++ ": ".toList ++ b.text ++ ['\n'])

/-- A receiver has sent the name of a room, entered the room and reads the delivery of a broadcast
there. The username is that of the login of the sender and the text that of one of its `sendall`s,
both trimmed. The delivery is written out exactly if the name has no colon, is one line and has
nothing at its end that is trimmed off. -/
theorem delivery_printed_iff (hrun : Run conn before s) (hpoint : s.point u = .receiverJoin)
    (hnul : Char.ofNat 0 ∉ roomName)
    (hstream : (s.conn u).fdbuf.stream = encode (messageJoined roomName) ++ rest)
    (hexec : s.exec schedule = some (events, s')) (hjoined : .joined u b.room ∈ events)
    (hlocked : .locked w b msg ∈ before ++ events) (hlen : (encode msg).length ≤ 254)
    (hclient : client.fdbuf.stream = encode msg ++ more) :
    (Named (own w (before ++ events)) b.username ∧ Texted (own w (before ++ events)) b.text) ∧
      ((Receiver.round roomName client).1 = [deliveryLine b] ↔
        ':' ∉ roomName ∧ '\n' ∉ roomName ∧ rightTrim roomName = roomName) := by
  have hrun' : Run conn (before ++ events) s' := hrun.exec hexec
  have hspoken : Spoken (own w (before ++ events)) (s'.point w) := hrun'.spoken w
  have hown : .locked w b msg ∈ own w (before ++ events) := mem_own hlocked rfl
  obtain ⟨hnamed, htexted⟩ := hspoken.authored b (mem_broadcasts hown)
  refine ⟨⟨hnamed, htexted⟩, ?_⟩
  have hroom : (s'.room b.room).roomName = askedName roomName :=
    (hrun'.roomMap.name _ _ (exec_joined hnul hpoint hstream hexec hjoined)).2
  have hmsg : msg = ⟨tagDelivery, askedName roomName ++ ':' :: b.username ++ ':' :: b.text⟩ := by
    rw [hrun'.locked hlocked, Server.delivery, hroom]
  have htext : '\n' ∉ b.text ∧ Char.ofNat 0 ∉ b.text := hspoken.text_plain htexted
  subst hmsg
  have hformed := wellFormed_delivery hnul hnamed.plain.2 htext (hlen.trans (by decide))
  have hsize := length_encode hformed.tag_known hformed.data_text ▸ hlen
  simp only [List.length_append, List.length_cons] at hsize
  rw [round_of_wellFormed hformed (Nat.lt_succ_of_le hlen) hclient, deliveryLine, ← askedName_eq_iff]
  have hiff : respond roomName
        ⟨tagDelivery, askedName roomName ++ ':' :: (b.username ++ ':' :: (b.text ++ ['\n']))⟩ =
      [.print (b.username ++ ": ".toList ++ (b.text ++ ['\n']))] ↔
        ':' ∉ roomName ∧ askedName roomName = roomName :=
    respond_delivery_iff (askedName_isPrefix roomName) hnamed.plain.1
      (by simp [hnamed.plain.2.2, htext.2]) (by simp; omega)
  simpa using hiff

end Delivery

/-- A receiver and a sender that ask for a room of this name. -/
def roomClients (roomName : String) : Worker → Connection
  | 0 => freshConnection ("rlogin:bob\n".toList ++ encode (messageJoined roomName.toList))
  | 1 => freshConnection ("slogin:eve\n".toList ++ encode (messageJoined roomName.toList) ++
      "sendall:hi\n".toList)
  | _ => freshConnection []

/-- The broadcast of the sender. -/
def greeting : Broadcast := ⟨"eve".toList, 0, "hi".toList⟩

/-- What the server delivers in the room of this name. -/
def greetingDelivery (roomName : String) : Message :=
  ⟨tagDelivery, roomName.toList ++ ":eve:hi".toList⟩

/-- The receiver logs in. -/
def loginMoves : List (Worker × Choice) := List.replicate 3 (0, .proceed)

/-- The receiver joins, and then the sender broadcasts. -/
def broadcastMoves : List (Worker × Choice) :=
  List.replicate 7 (0, .proceed) ++ List.replicate 10 (1, .proceed)

/-- Whether the receiver and the sender meet in the room, and what is delivered there. -/
def delivers (roomName : String) (msg : Message) : Option Bool :=
  ((Server.initial (roomClients roomName)).exec loginMoves).bind fun login =>
    (login.2.exec broadcastMoves).map fun moves =>
      decide (login.2.point 0 = .receiverJoin ∧
        (login.2.conn 0).fdbuf.stream = encode (messageJoined roomName.toList) ++ [] ∧
        .joined 0 greeting.room ∈ moves.1 ∧ .locked 1 greeting msg ∈ moves.1)

private theorem exists_delivery {roomName : String} {msg : Message}
    (h : delivers roomName msg = some true) :
    ∃ before events s s', Run (roomClients roomName) before s ∧ s.point 0 = .receiverJoin ∧
      (s.conn 0).fdbuf.stream = encode (messageJoined roomName.toList) ++ [] ∧
      s.exec broadcastMoves = some (events, s') ∧ .joined 0 greeting.room ∈ events ∧
      .locked 1 greeting msg ∈ before ++ events := by
  obtain ⟨⟨before, s⟩, hlogin, hrest⟩ := Option.bind_eq_some_iff.mp h
  obtain ⟨⟨events, s'⟩, hexec, hchecked⟩ := Option.map_eq_some_iff.mp hrest
  obtain ⟨hpoint, hstream, hjoined, hlocked⟩ := of_decide_eq_true hchecked
  exact ⟨before, events, s, s', Run.start.exec hlogin, hpoint, hstream, hexec, hjoined,
    List.mem_append_right _ hlocked⟩

theorem delivery_printed_lobby :
    ∃ before events s s', Run (roomClients "lobby") before s ∧
      s.exec broadcastMoves = some (events, s') ∧
      .locked 1 greeting lobbyDelivery ∈ before ++ events ∧
      ((Named (own 1 (before ++ events)) greeting.username ∧
          Texted (own 1 (before ++ events)) greeting.text) ∧
        ((Receiver.round "lobby".toList (freshConnection (encode lobbyDelivery))).1 =
            [deliveryLine greeting] ↔
          ':' ∉ "lobby".toList ∧ '\n' ∉ "lobby".toList ∧
            rightTrim "lobby".toList = "lobby".toList)) := by
  obtain ⟨before, events, s, s', hrun, hpoint, hstream, hexec, hjoined, hlocked⟩ :=
    @exists_delivery "lobby" lobbyDelivery (by decide +kernel)
  have hclient : (freshConnection (encode lobbyDelivery)).fdbuf.stream =
      encode lobbyDelivery ++ [] := by decide +kernel
  exact ⟨before, events, s, s', hrun, hexec, hlocked,
    delivery_printed_iff hrun hpoint (by decide) hstream hexec hjoined hlocked (by decide +kernel)
      hclient⟩

/-- The receiver enters the room that it has sent the name of, and writes nothing for the message
of the sender there, which has this name of the room before the username. -/
def Lost (roomName delivered : String) : Prop :=
  ∃ before events s s', Run (roomClients roomName) before s ∧ s.point 0 = .receiverJoin ∧
    (s.conn 0).fdbuf.stream = encode (messageJoined roomName.toList) ++ [] ∧
    s.exec broadcastMoves = some (events, s') ∧ .joined 0 greeting.room ∈ events ∧
    .locked 1 greeting (greetingDelivery delivered) ∈ before ++ events ∧
    (encode (greetingDelivery delivered)).length ≤ 254 ∧
    (Receiver.round roomName.toList (freshConnection (encode (greetingDelivery delivered)))).1 = []

/-- A name with a colon, and one with a tab at its end, which the server trims off. -/
theorem delivery_lost : Lost "a:b" "a:b" ∧ Lost "a\t" "a" := by
  constructor
  · obtain ⟨before, events, s, s', hrun, hpoint, hstream, hexec, hjoined, hlocked⟩ :=
      @exists_delivery "a:b" (greetingDelivery "a:b") (by decide +kernel)
    exact ⟨before, events, s, s', hrun, hpoint, hstream, hexec, hjoined, hlocked,
      by decide +kernel, by decide +kernel⟩
  · obtain ⟨before, events, s, s', hrun, hpoint, hstream, hexec, hjoined, hlocked⟩ :=
      @exists_delivery "a\t" (greetingDelivery "a") (by decide +kernel)
    exact ⟨before, events, s, s', hrun, hpoint, hstream, hexec, hjoined, hlocked,
      by decide +kernel, by decide +kernel⟩

end CsfAssignments.Chat
