import CsfAssignments.RoomFeeds
import CsfAssignments.SenderHistory

/-!
# Delivery in a room

What every run of the server delivers: the queue of a receiver gets the segment of the log of its
room between its join and its leave, in the order in which the broadcasts took the lock.
-/

namespace CsfAssignments.Chat
open TopicFeeds

/-- The broadcasts in a room, in the order in which they took its lock. -/
def roomLog (r : RoomId) (events : List Event) : List Broadcast :=
  (broadcasts events).filter fun b => b.room = r

/-- The part of the log of a room that a member should get: what follows its join, up to its
leave. -/
def segment (u : Worker) (r : RoomId) (after : List (Notice RoomId Worker Message)) :
    List Message :=
  topicLog r (after.takeWhile fun n => !n.unsubscribes u)

theorem room_of_call {p : Point} {b : Broadcast} (h : p.call = some b) :
    p.room = some b.room := by
  cases p <;> first | cases h; rfl | cases h

/-- A move publishes nothing, or its broadcast takes the lock of a room it has a pointer to. -/
private theorem broadcasts_cases {w : Worker} {s t : Server} {p next : Point} {es : List Event}
    (hmove : Move w s (code w p) es t next) :
    (broadcasts es = [] ∧ ∀ r, topicLog r (notices es) = []) ∨
      ∃ b, es = [.locked w b (s.delivery b)] ∧ p.room = some b.room := by
  have hcall {b : Broadcast} {msg : Message} (he : .locked w b msg ∈ es) : p.room = some b.room :=
    room_of_call (hmove.locked he).1
  generalize code w p = op at hmove
  cases hmove with
  | broadcast _ => exact .inr ⟨_, rfl, hcall (List.mem_singleton_self _)⟩
  | _ => exact .inl ⟨rfl, fun _ => rfl⟩

/-- Every broadcast is in a room of the map. -/
theorem Run.broadcast_room {conn : Worker → Connection} {events : List Event} {s : Server}
    (hrun : Run conn events s) : ∀ b ∈ broadcasts events, b.room < s.rooms.length := by
  induction hrun with
  | start => exact fun b hb => absurd hb List.not_mem_nil
  | @step events s s' es w choice hrun hstep ih =>
    obtain ⟨t, next, hmove, rfl⟩ := step_move hstep
    intro b hb
    rw [broadcasts_append, List.mem_append] at hb
    refine lt_of_lt_of_le ?_ hmove.length_rooms
    rcases hb with hb | hb
    · exact ih b hb
    · rcases broadcasts_cases hmove with ⟨hnone, -⟩ | ⟨b', rfl, hroom⟩
      · rw [hnone] at hb
        exact absurd hb List.not_mem_nil
      · rw [show b = b' from List.mem_singleton.mp hb]
        obtain ⟨name, hname⟩ := hrun.roomMap.pointer w _ hroom
        exact (hrun.roomMap.name name _ hname).1

/-- A broadcast publishes its delivery, which does not change. -/
theorem Run.locked {conn : Worker → Connection} {events : List Event} {s : Server}
    (hrun : Run conn events s) {w : Worker} {b : Broadcast} {msg : Message}
    (he : .locked w b msg ∈ events) : msg = s.delivery b := by
  induction hrun with
  | start => exact absurd he List.not_mem_nil
  | @step events s s' es v choice hrun hstep ih =>
    obtain ⟨t, next, hmove, rfl⟩ := step_move hstep
    rcases List.mem_append.mp he with hold | hnew
    · have hroom : b.room < s.rooms.length :=
        hrun.broadcast_room b (mem_broadcasts hold)
      rw [hmove.delivery hroom, ih hold]
    · obtain ⟨hcall, rfl⟩ := hmove.locked hnew
      obtain ⟨name, hname⟩ := hrun.roomMap.pointer v _ (room_of_call hcall)
      rw [hmove.delivery (hrun.roomMap.name name _ hname).1]

/-- The log of a room has the deliveries of its broadcasts. -/
theorem Run.topicLog_eq {conn : Worker → Connection} {events : List Event} {s : Server}
    (hrun : Run conn events s) (r : RoomId) :
    topicLog r (notices events) = (roomLog r events).map s.delivery := by
  induction hrun with
  | start => rfl
  | @step events s s' es w choice hrun hstep ih =>
    obtain ⟨t, next, hmove, rfl⟩ := step_move hstep
    have hold : (roomLog r events).map (t.goto w next).delivery =
        (roomLog r events).map s.delivery := by
      refine List.map_congr_left fun b hb => ?_
      exact hmove.delivery (hrun.broadcast_room b (List.mem_of_mem_filter hb))
    have happend : roomLog r (events ++ es) = roomLog r events ++ roomLog r es := by
      simp [roomLog]
    rw [notices_append, topicLog_append, happend, List.map_append, hold, ih]
    congr 1
    rcases broadcasts_cases hmove with ⟨hnone, hnotices⟩ | ⟨b, rfl, hroom⟩
    · rw [hnotices, roomLog, hnone]
      rfl
    · obtain ⟨name, hname⟩ := hrun.roomMap.pointer w _ hroom
      have hdelivery : (t.goto w next).delivery b = s.delivery b :=
        hmove.delivery (hrun.roomMap.name name _ hname).1
      show topicLog r [.publish b.room (s.delivery b)] = _
      have hlog : roomLog r [.locked w b (s.delivery b)] = if b.room = r then [b] else [] := by
        by_cases hr : b.room = r <;> simp [roomLog, broadcasts, Event.broadcast, hr]
      rw [hlog]
      split_ifs with hr <;> simp [topicLog, hr, hdelivery]

/-- Two names have two rooms. -/
theorem RoomMap.name_eq {s : Server} (hmap : RoomMap s) {name name' : List Char} {r : RoomId}
    (h : s.rooms.lookup name = some r) (h' : s.rooms.lookup name' = some r) : name = name' := by
  rw [← (hmap.name name r h).2, (hmap.name name' r h').2]

/-- The queue of a receiver and its connection have the segment of its room. -/
theorem Run.segment_eq {conn : Worker → Connection} {events : List Event} {s : Server}
    (hrun : Run conn events s) {u : Worker} {r : RoomId}
    {before after : List (Notice RoomId Worker Message)}
    (hjoined : notices events = before ++ .subscribe u r :: after) :
    Entered s (own u events) r ∧ enqueued u events ++ s.pending r u = segment u r after ∧
      written (own u events) <+: ok :: segment u r after := by
  have hjoins : joins (own u events) = subscriptions u before ++ r :: subscriptions u after := by
    rw [← subscriptions_notices, hjoined, subscriptions_append, subscriptions, if_pos rfl]
  obtain ⟨r', hentered, hwritten⟩ := (hrun.receiverTold u).entered (by rw [hjoins]; simp)
  have hr : r' = r := by
    have hmem : r ∈ joins (own u events) := by
      rw [hjoins]
      simp
    rw [hentered.1] at hmem
    exact (List.mem_singleton.mp hmem).symm
  subst hr
  have hfeed : (feed u (notices events)).messages = segment u r' after := by
    rw [hjoined]
    refine feed_segment ?_
    rw [← hjoined, subscriptions_notices, hentered.1]
    rfl
  have hmessages := (hrun.fed u).messages
  have hpending : ((s.stage u).member.map (s.running · u)).getD [] = s.pending r' u := by
    rw [Server.pending]
    cases hmember : (s.stage u).member with
    | none => rw [if_neg (by rw [hrun.safe.member, hmember]; simp)]; rfl
    | some r =>
      have hsame := (hrun.receiverTold u).joins_of_member hmember
      rw [hentered.1] at hsame
      cases hsame
      rw [if_pos ((hrun.safe.member _ u).mpr hmember)]
      rfl
  rw [hpending, hfeed] at hmessages
  refine ⟨hentered, hmessages, hwritten.trans ?_⟩
  have hqueued : dequeues (own u events) ++ (s.user u).mqueue.messages = enqueued u events :=
    hrun.queued u
  rw [← hmessages, ← hqueued, List.append_assoc]
  exact List.prefix_append (ok :: dequeues (own u events)) _

/-- In every reachable state every name has one room, whose log has its broadcasts in the order of
the lock. The queue of a receiver got the segment of the log between its join and its leave, but
for the message of a broadcast that holds the lock and has not reached it, and its client a
prefix of the segment behind the `ok`. The broadcasts of a worker are the requests of its client
that were answered `ok`, and perhaps the one that is not answered yet. -/
theorem room_delivery {conn : Worker → Connection} {events : List Event} {s : Server}
    (hrun : Run conn events s) :
    (∀ name name' r, s.rooms.lookup name = some r → s.rooms.lookup name' = some r → name = name') ∧
      (∀ r, topicLog r (notices events) = (roomLog r events).map s.delivery) ∧
      (∀ u r before after, notices events = before ++ .subscribe u r :: after →
        (∃ loginMes joinMeg, requests (own u events) = [loginMes, joinMeg] ∧
          loginMes.tag = tagRlogin ∧ joinMeg.tag = tagJoin ∧
          s.rooms.lookup (rightTrim joinMeg.data) = some r) ∧
        enqueued u events ++ s.pending r u = segment u r after ∧
        written (own u events) <+: ok :: segment u r after) ∧
      (∀ u, subscriptions u (notices events) = [] → enqueued u events = []) ∧
      ∀ w, s.Answers (own w events) (session (own w events)) ∨
        s.Answers (own w events) (session (own w events)).acknowledge := by
  refine ⟨fun name name' r => hrun.roomMap.name_eq, hrun.topicLog_eq, ?_, ?_, ?_⟩
  · intro u r before after hjoined
    obtain ⟨hentered, hmessages, hwritten⟩ := hrun.segment_eq hjoined
    obtain ⟨-, name, ⟨loginMes, joinMeg, hrequests, hlogin, hjoin, rfl⟩, hr⟩ := hentered
    exact ⟨⟨loginMes, joinMeg, hrequests, hlogin, hjoin, hr⟩, hmessages, hwritten⟩
  · intro u hnone
    exact hrun.enqueued_of_joins_nil (by rw [← subscriptions_notices, hnone])
  · intro w
    exact (hrun.senderTold w).answers

/-- The broadcast goes on to its end, and then the receiver gets the message. -/
def deliverToReceiver : List (Worker × Choice) :=
  visitReceiver ++ List.replicate 7 (1, .proceed) ++ List.replicate 6 (0, .proceed)

theorem room_delivery_one_message :
    ∃ events s, Run twoClients events s ∧
      notices events = [.subscribe 0 0, .publish 0 lobbyDelivery] ∧
      enqueued 0 events ++ s.pending 0 0 = segment 0 0 [.publish 0 lobbyDelivery] ∧
      written (own 0 events) = [ok, lobbyDelivery] ∧
      (session (own 1 events)).answered = [(some "lobby".toList, "hi".toList)] := by
  have hexec : ((Server.initial twoClients).exec deliverToReceiver).map
      (fun moves => decide (notices moves.1 = [.subscribe 0 0, .publish 0 lobbyDelivery] ∧
        written (own 0 moves.1) = [ok, lobbyDelivery] ∧
        (session (own 1 moves.1)).answered = [(some "lobby".toList, "hi".toList)])) =
      some true := by
    decide +kernel
  obtain ⟨⟨events, s⟩, hs, hreached⟩ := Option.map_eq_some_iff.mp hexec
  obtain ⟨hnotices, hwritten, hanswered⟩ := of_decide_eq_true hreached
  have hrun : Run twoClients ([] ++ events) s := Run.start.exec hs
  exact ⟨_, s, hrun, hnotices, ((room_delivery hrun).2.2.1 0 0 [] _ hnotices).2.1, hwritten,
    hanswered⟩

/-- A client whose first line is a `sendall`. -/
def sendallClient : Worker → Connection
  | 0 => ⟨⟨[], [.data "sendall:hi\n".toList]⟩, ⟨[], []⟩, .success⟩
  | _ => ⟨⟨[], []⟩, ⟨[], []⟩, .success⟩

/-- While a broadcast is running its message is in the log of the room and not yet in every
queue, and a first line with the tag of `sendall` is answered `ok` without a broadcast. -/
theorem room_delivery_fails :
    (∃ events s before after, Run twoClients events s ∧
      notices events = before ++ .subscribe 0 0 :: after ∧ enqueued 0 events ≠ segment 0 0 after) ∧
    ∃ events s, Run sendallClient events s ∧
      events = [.received 0 .success ⟨tagSendall, "hi\n".toList⟩, .sent 0 ok] ∧
      broadcasts events = [] := by
  constructor
  · have hexec : ((Server.initial twoClients).exec visitReceiver).map
        (fun moves => (notices moves.1, enqueued 0 moves.1)) =
        some ([.subscribe 0 0, .publish 0 lobbyDelivery], []) := by
      decide +kernel
    obtain ⟨⟨events, s⟩, hs, hreached⟩ := Option.map_eq_some_iff.mp hexec
    obtain ⟨hnotices, hnone⟩ := Prod.mk.inj hreached
    have hnone : enqueued 0 events = [] := hnone
    refine ⟨_, s, [], [.publish 0 lobbyDelivery], Run.start.exec hs, hnotices, ?_⟩
    rw [List.nil_append, hnone]
    exact (List.cons_ne_nil lobbyDelivery []).symm
  · have hexec : ((Server.initial sendallClient).exec (List.replicate 3 (0, .proceed))).map
        Prod.fst = some [.received 0 .success ⟨tagSendall, "hi\n".toList⟩, .sent 0 ok] := by
      decide +kernel
    obtain ⟨⟨events, s⟩, hs, hreached⟩ := Option.map_eq_some_iff.mp hexec
    have hevents : events = _ := hreached
    subst hevents
    exact ⟨_, s, Run.start.exec hs, rfl, rfl⟩

end CsfAssignments.Chat
