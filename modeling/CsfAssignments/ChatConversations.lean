import CsfAssignments.ChatProgress
import CsfAssignments.ChatSenders

/-!
# Conversations

The programs and the server together. Every conversation ends in every schedule: the sender programs
return, and what a receiver program prints is what their users have typed in its room.
-/

namespace CsfAssignments.Chat
open Sender TopicFeeds

/-- What the lines of a user say in a room. -/
def saidIn (roomName : List Char) (lines : List (List Char)) : List (List Char) :=
  ((said none lines).filter fun post => post.1 = roomName).map Prod.snd

/-- What is printed when a user has said something. -/
def saidLine (username text : List Char) : Receiver.Output :=
  .print (username ++ ": ".toList ++ text ++ ['\n'])

section Conversation
variable {conn : Worker → Connection} {events : List Event} {s : Server} {u : Worker}
  {username roomName rest : List Char} {client : Connection} {r : RoomId} {before after : List Event}

/-- When the server is at rest and has read what its clients have sent, the worker of a receiver
program that is still connected waits for messages of its room. -/
theorem ReceiverServed.resting
    (hserved : ReceiverServed u username roomName rest s (own u events) (s.point u))
    (hrun : Run conn events s) (hname : Username username) (hroom : RoomName roomName)
    (hintact : s.point u = .ended → (s.conn u).lastResult ≠ .eofOrError) (hrest : s.Resting)
    (hread : AwaitsClient u (s.point u) → (s.conn u).fdbuf.stream = []) :
    ∃ r, s.point u = .dequeueWait r ∧ joins (own u events) = [r] := by
  by_cases hclient : AwaitsClient u (s.point u)
  · have hempty := hread hclient
    have hlogin := hname.readable (show tagRlogin ∈ knownTags by decide) rfl
    generalize s.point u = p at hserved hclient
    cases p with
    | start | login => exact absurd hempty (stream_ne_nil hlogin hserved.2.2)
    | receiverJoin => exact absurd hempty (stream_ne_nil hroom.readable hserved.2.2)
    | senderLoop username current => exact hserved.elim
    | _ =>
      rcases hclient with hstart | ⟨next, hop⟩
      · cases hstart
      · cases hop
  · rcases hrest.point hrun hclient with hended | ⟨r, hpoint, -⟩
    · have hconnected := hintact hended
      rw [hended] at hserved
      exact absurd hserved hconnected
    · rw [hpoint] at hserved
      exact ⟨r, hpoint, hserved.2.1⟩

/-- What a worker broadcasts in a room is what its user says there. -/
theorem Run.map_deliveryLine (hrun : Run conn events s)
    (hlookup : s.rooms.lookup roomName = some r) {h : List Event} {lines : List (List Char)}
    (hposted : List.Forall₂ (s.Broadcasts username) (broadcasts h) (said none lines)) :
    (roomLog r h).map deliveryLine = (saidIn roomName lines).map (saidLine username) := by
  have hsame {b : Broadcast} {post : List Char × List Char} (hpost : s.Broadcasts username b post) :
      b.room = r ↔ post.1 = roomName := by
    obtain ⟨-, hroom, -⟩ := hpost
    constructor
    · rintro rfl
      exact hrun.roomMap.name_eq hroom hlookup
    · intro hname
      rw [hname, hlookup] at hroom
      exact (Option.some.inj hroom).symm
  have hfiltered : List.Forall₂ (s.Broadcasts username) (roomLog r h)
      ((said none lines).filter fun post => post.1 = roomName) :=
    List.rel_filter (fun b post hpost => by simpa using hsame hpost) hposted
  rw [saidIn, List.map_map]
  refine List.forall₂_eq_eq_eq ▸ ?_
  rw [List.forall₂_map_left_iff, List.forall₂_map_right_iff]
  refine hfiltered.imp fun b post hpost => ?_
  rw [deliveryLine, hpost.1, hpost.2.2]
  rfl

/-- A join is no broadcast. -/
theorem roomLog_own_joined (w : Worker) (hsplit : events = before ++ .joined u r :: after) :
    roomLog r (own w events) = roomLog r (own w before) ++ roomLog r (own w after) := by
  have hjoin : broadcasts (own w [.joined u r]) = [] := by
    by_cases hw : u = w <;> simp [own, broadcasts, Event.worker, Event.broadcast, hw]
  rw [hsplit, ← List.singleton_append, own_append, own_append, roomLog, broadcasts_append,
    broadcasts_append, hjoin, List.nil_append, List.filter_append]
  rfl

/-- When the server is at rest and has read what its clients have sent, the user of a receiver
program that is still connected has joined its room and has been sent all that was broadcast there
since. -/
theorem exists_joined (hrun : Run conn events s) (hrest : s.Resting)
    (hread : AwaitsClient u (s.point u) → (s.conn u).fdbuf.stream = [])
    (hname : Username username) (hroom : RoomName roomName)
    (hreceives : Receives (conn u) username roomName)
    (hintact : (s.conn u).lastResult ≠ .eofOrError) :
    ∃ r before after, events = before ++ .joined u r :: after ∧
      s.rooms.lookup roomName = some r ∧ u ∈ (s.room r).members ∧
      written (own u events) = ok :: (roomLog r after).map s.delivery := by
  obtain ⟨rest, hstream⟩ := hreceives.stream
  have hserved := hrun.receiverServed hname hroom hstream
  obtain ⟨r, hpoint, hjoins⟩ :=
    hserved.resting hrun hname hroom (fun _ => hintact) hrest hread
  rw [hpoint] at hserved
  obtain ⟨before, after, hjoined⟩ : ∃ before after, events = before ++ .joined u r :: after := by
    have hmem : r ∈ joins (own u events) := by rw [hjoins]; exact List.mem_singleton_self r
    obtain ⟨e, he, hjoin⟩ := List.mem_filterMap.mp hmem
    obtain ⟨hevents, hworker⟩ := List.mem_filter.mp he
    cases e <;> cases hjoin
    cases of_decide_eq_true hworker
    exact List.append_of_mem hevents
  have hnotices : notices events = notices before ++ .subscribe u r :: notices after := by
    rw [hjoined, notices_append]
    rfl
  have hmember : u ∈ (s.room r).members :=
    (hrun.safe.member r u).mpr (by rw [Server.stage, hpoint]; rfl)
  have hlog : topicLog r (notices after) = (roomLog r after).map s.delivery :=
    topicLog_notices (fun w b msg he => hrun.locked (hjoined ▸ List.mem_append_right _ (List.mem_cons_of_mem _ he))) r
  refine ⟨r, before, after, hjoined, hserved.2.2, hmember, ?_⟩
  rw [hrest.written_eq hrun hnotices hmember, hlog]

/-- What is typed is what is printed. When the server is at rest and has read what its clients have
sent, a receiver program that is still connected prints the broadcasts in its room since it joined;
and those among them of a sender program that is still connected are what the lines of its user say
in this room, but for the first of them, which were broadcast before the receiver joined. -/
theorem typed_printed (hrun : Run conn events s) (hrest : s.Resting)
    (hread : ∀ w, AwaitsClient w (s.point w) → (s.conn w).fdbuf.stream = [])
    (hname : Username username) (hroom : RoomName roomName)
    (hreceives : Receives (conn u) username roomName)
    (hintact : (s.conn u).lastResult ≠ .eofOrError)
    (hfit : ∀ b ∈ broadcasts events, s.rooms.lookup roomName = some b.room →
      roomName.length + b.username.length + b.text.length + 12 < maxLen)
    (hclient : client.fdbuf.stream = (s.conn u).out.sent) :
    ∃ r before after, events = before ++ .joined u r :: after ∧
      Receiver.main username roomName (roomLog r after).length client =
        .ok ((roomLog r after).map deliveryLine) ∧
      ∀ w speaker lines quit, Username speaker → Typed lines quit →
        Types (conn w) speaker (lines ++ [quit]) → (s.conn w).lastResult ≠ .eofOrError →
        (roomLog r (own w after)).map deliveryLine =
          ((saidIn roomName (lines ++ [quit])).drop (roomLog r (own w before)).length).map
            (saidLine speaker) := by
  obtain ⟨r, before, after, hjoined, hlookup, -, hwritten⟩ :=
    exists_joined hrun hrest (hread u) hname hroom hreceives hintact
  obtain ⟨-, heard, -, hall, hsent⟩ := exists_heard hrun hname hroom hreceives hintact hjoined
    (by rw [hwritten]; exact List.cons_ne_nil _ _)
  rw [hall hrest] at hsent
  refine ⟨r, before, after, hjoined, ?_, fun w speaker lines quit hspeaker htyped htypes hconn => ?_⟩
  · rw [Receiver.main_of_heard hrun hroom hlookup (roomLog_subset hjoined r) ?_
      (hclient.trans hsent) le_rfl, List.take_length]
    intro b hb
    obtain ⟨hbroadcast, hb⟩ := List.mem_filter.mp (roomLog_subset hjoined r hb)
    exact hfit b hbroadcast (by rw [hlookup, of_decide_eq_true hb])
  · obtain ⟨more, hstream⟩ := htypes.stream
    have hended := (hrun.senderServed hspeaker htyped hstream).resting hrun hspeaker htyped hrest
      (hread w)
    have hlines := hrun.map_deliveryLine hlookup
      (hrun.broadcast_typed hspeaker htyped htypes hconn hended)
    rw [roomLog_own_joined w hjoined, List.map_append] at hlines
    rw [List.map_drop, ← hlines, ← List.length_map (f := deliveryLine), List.drop_left]

end Conversation

theorem typed_printed_hi : ∃ events s r before after, Run chatClients events s ∧
    events = before ++ .joined 0 r :: after ∧
    Receiver.main "bob".toList "lobby".toList (roomLog r after).length
      (freshConnection (s.conn 0).out.sent) = .ok ((roomLog r after).map deliveryLine) ∧
    (roomLog r (own 1 after)).map deliveryLine =
      (["hi".toList].drop (roomLog r (own 1 before)).length).map (saidLine "eve".toList) := by
  obtain ⟨events, s, hrun, hrest, hread, hintact, -, hbroadcasts⟩ := exists_chat
  have hfit : ∀ b ∈ broadcasts events, s.rooms.lookup "lobby".toList = some b.room →
      "lobby".toList.length + b.username.length + b.text.length + 12 < maxLen := by
    intro b hb _
    rw [hbroadcasts, List.mem_singleton] at hb
    rw [hb]
    decide
  obtain ⟨r, before, after, hjoined, hprinted, hsaid⟩ := typed_printed hrun hrest hread username_bob
    roomName_lobby receives_bob (hintact 0) hfit (stream_freshConnection _)
  exact ⟨events, s, r, before, after, hrun, hjoined, hprinted,
    hsaid 1 _ _ _ username_eve typed_eve types_eve (hintact 1)⟩

section Connected
variable {conn : Worker → Connection} {events es : List Event} {s t : Server} {u w : Worker}
  {username roomName quit rest : List Char} {before : List (List Char)} {h : List Event}
  {p next : Point}

/-- Only `receive` hears anything. -/
theorem Move.hears {result : Result} {msg : Message} (hmove : Move w s (code w p) es t next)
    (he : .received w result msg ∈ es) : ∃ next conn received, code w p = .receive next ∧
      (s.conn w).receive ⟨[], []⟩ = (received, msg, conn) ∧ result = conn.lastResult := by
  generalize code w p = op at hmove
  cases hmove with
  | receive hreceive =>
    cases List.mem_singleton.mp he
    exact ⟨_, _, _, rfl, hreceive, rfl⟩
  | _ => simp at he

/-- The worker of a receiver program hears its two requests. -/
theorem ReceiverServed.hears (hname : Username username) (hroom : RoomName roomName)
    (hserved : ReceiverServed u username roomName rest s h p)
    (hmove : Move u s (code u p) es t next) (result : Result) (msg : Message)
    (he : .received u result msg ∈ es) : result ≠ .eofOrError := by
  obtain ⟨next, conn, received, hop, hreceive, rfl⟩ := hmove.hears he
  have hwhole {m : Message} {rest : List Char} (hm : m.Readable)
      (hstream : (s.conn u).fdbuf.stream = encode m ++ rest) : conn.lastResult ≠ .eofOrError := by
    obtain ⟨conn', hread, -⟩ := hm.receive hstream
    rw [hreceive] at hread
    cases hread
    rw [Connection.receive_true hreceive]
    decide
  cases p with
  | login => exact hwhole (hname.readable (show tagRlogin ∈ knownTags by decide) rfl) hserved.2.2
  | receiverJoin => exact hwhole hroom.readable hserved.2.2
  | senderLoop username current => exact hserved.elim
  | _ => cases hop

/-- The worker of a sender program hears its login and its lines. -/
theorem SenderServed.hears (hname : Username username) (htyped : Typed before quit)
    (hserved : SenderServed w username (before ++ [quit]) rest s h p)
    (hmove : Move w s (code w p) es t next) (result : Result) (msg : Message)
    (he : .received w result msg ∈ es) : result ≠ .eofOrError := by
  obtain ⟨next, conn, received, hop, hreceive, rfl⟩ := hmove.hears he
  cases hserved with
  | login hp hstream =>
    obtain ⟨conn', hread, -⟩ :=
      (hname.readable (show tagSlogin ∈ knownTags by decide) rfl).receive hstream
    rw [hreceive] at hread
    cases hread
    rw [Connection.receive_true hreceive]
    decide
  | handshake _ => cases hop
  | typing htyping =>
    cases p with
    | senderLoop u current =>
      obtain ⟨line, -, hresult, -⟩ := htyping.receive htyped hreceive
      rw [hresult]
      exact asked_ne_eof line
    | login | receiverJoin => exact htyping.told.elim
    | _ => cases hop
  | failed hp _ _ => rcases hp with rfl | rfl <;> cases hop

theorem Run.receiverIntact (hrun : Run conn events s) (hname : Username username)
    (hroom : RoomName roomName) (hreceives : Receives (conn u) username roomName)
    (hout : (conn u).out.outgoing = []) : Intact (s.conn u) (s.point u) := by
  obtain ⟨rest, hstream⟩ := hreceives.stream
  refine (hrun.told_conn (w := u) (P := fun s h p => ReceiverServed u username roomName rest s h p ∧
    Intact (s.conn u) p) ?_ ?_ ?_).2
  · intro s hs
    exact ⟨⟨rfl, rfl, by rw [hs, hstream]⟩, by rw [hs, hout], fun h => absurd rfl h⟩
  · rintro s t h p ⟨hserved, hintact⟩ hlookup hconn
    exact ⟨hserved.mono hlookup hconn, by rw [hconn]; exact hintact⟩
  · rintro s t p next es h ⟨hserved, hintact⟩ hmove
    exact ⟨hserved.step hname hroom hmove, hintact.step (hserved.hears hname hroom hmove) hmove⟩

theorem Run.senderIntact (hrun : Run conn events s) (hname : Username username)
    (htyped : Typed before quit) (htypes : Types (conn w) username (before ++ [quit]))
    (hout : (conn w).out.outgoing = []) : Intact (s.conn w) (s.point w) := by
  obtain ⟨rest, hstream⟩ := htypes.stream
  refine (hrun.told_conn (w := w) (P := fun s h p =>
    SenderServed w username (before ++ [quit]) rest s h p ∧ Intact (s.conn w) p) ?_ ?_ ?_).2
  · intro s hs
    exact ⟨.login (.inl rfl) (by rw [hs, hstream]), by rw [hs, hout], fun h => absurd rfl h⟩
  · rintro s t h p ⟨hserved, hintact⟩ hlookup hconn
    exact ⟨hserved.mono hlookup hconn, by rw [hconn]; exact hintact⟩
  · rintro s t p next es h ⟨hserved, hintact⟩ hmove
    exact ⟨hserved.step hname htyped hmove, hintact.step (hserved.hears hname htyped hmove) hmove⟩

/-- Every conversation ends. Among `n` clients the moves that only wait for other workers, the
starts of the workers and the reads of what was sent among them, end after a bounded number in every
schedule. When none is left, every sender program to which the writes succeed has been served to its
end and everything that its user said is broadcast; and every receiver program is connected, in its
room and has been sent all that was broadcast there since it joined. -/
theorem conversations_end {n : ℕ} (hn : ∀ w, n ≤ w → (conn w).fdbuf.stream = []) :
    (∃ bound, ∀ k events s, ReadyRun conn k events s → k ≤ bound) ∧
      ∀ events s, Run conn events s → (∀ w choice, Ready s w choice → s.step w choice = none) →
        (∀ w username before quit, Username username → Typed before quit →
          Types (conn w) username (before ++ [quit]) → (conn w).out.outgoing = [] →
          s.point w = .ended ∧ (s.conn w).lastResult ≠ .eofOrError ∧
            List.Forall₂ (s.Broadcasts username) (broadcasts (own w events))
              (said none (before ++ [quit]))) ∧
        ∀ u username roomName, Username username → RoomName roomName →
          Receives (conn u) username roomName → (conn u).out.outgoing = [] →
          (s.conn u).lastResult ≠ .eofOrError ∧
            ∃ r before after, events = before ++ .joined u r :: after ∧
              s.rooms.lookup roomName = some r ∧ u ∈ (s.room r).members ∧
              written (own u events) = ok :: (roomLog r after).map s.delivery := by
  refine ⟨⟨(Server.initial conn).load n, fun k events s hready => ?_⟩, fun events s hrun hidle => ?_⟩
  · exact (Nat.le_add_right _ _).trans (hready.load_le hn).1
  obtain ⟨hrest, hread⟩ := resting_of_idle hidle
  constructor
  · intro w username before quit hname htyped htypes hout
    obtain ⟨rest, hstream⟩ := htypes.stream
    have hended := (hrun.senderServed hname htyped hstream).resting hrun hname htyped hrest (hread w)
    have hintact := hrun.senderIntact hname htyped htypes hout
    rw [hended] at hintact
    have hconnected := hintact.2 (by simp) (by simp)
    exact ⟨hended, hconnected, hrun.broadcast_typed hname htyped htypes hconnected hended⟩
  · intro u username roomName hname hroom hreceives hout
    have hintact := hrun.receiverIntact hname hroom hreceives hout
    obtain ⟨rest, hstream⟩ := hreceives.stream
    obtain ⟨r, hpoint, -⟩ := (hrun.receiverServed hname hroom hstream).resting hrun hname hroom
      (fun hended => (hended ▸ hintact).2 (by simp) (by simp)) hrest (hread u)
    rw [hpoint] at hintact
    have hconnected := hintact.2 (by simp) (by simp)
    exact ⟨hconnected, exists_joined hrun hrest (hread u) hname hroom hreceives hconnected⟩

end Connected

theorem conversations_end_hi :
    (∃ bound, ∀ k events s, ReadyRun chatClients k events s → k ≤ bound) ∧
      ∃ events s, Run chatClients events s ∧ s.point 1 = .ended ∧
        List.Forall₂ (s.Broadcasts "eve".toList) (broadcasts (own 1 events))
          [("lobby".toList, "hi".toList)] ∧
        ∃ r before after, events = before ++ .joined 0 r :: after ∧
          s.rooms.lookup "lobby".toList = some r ∧ 0 ∈ (s.room r).members ∧
          written (own 0 events) = ok :: (roomLog r after).map s.delivery := by
  have hclients : ∀ w, 2 ≤ w → (chatClients w).fdbuf.stream = [] := by
    intro w hw
    rw [chatClients_idle (by rintro rfl; cases hw) (by rintro rfl; exact absurd hw (by decide)),
      stream_freshConnection]
  obtain ⟨hbound, hends⟩ := conversations_end hclients
  obtain ⟨events, s, hrun, hrest, hread, -⟩ := exists_chat
  have hidle : ∀ w choice, Ready s w choice → s.step w choice = none :=
    fun w choice hready => hrest w choice hready.1 fun hclient => hready.2 hclient (hread w hclient)
  obtain ⟨hsenders, hreceivers⟩ := hends events s hrun hidle
  obtain ⟨hended, -, hsaid⟩ := hsenders 1 _ _ _ username_eve typed_eve types_eve rfl
  exact ⟨hbound, events, s, hrun, hended, hsaid,
    (hreceivers 0 _ _ username_bob roomName_lobby receives_bob rfl).2⟩

end CsfAssignments.Chat
