import CsfAssignments.ReceiverHistory
import CsfAssignments.ServerSafety
import CsfAssignments.TopicFeeds

/-!
# The queues of a room

The moves of the server, seen as notices of a publish-subscribe service: a broadcast publishes
when it takes the lock of its room. The messages that enter the queue of a member, with the one
that a running broadcast still owes it, are its feed.
-/

namespace CsfAssignments.Chat
open TopicFeeds

def Event.notice : Event → Option (Notice RoomId Worker Message)
  | .locked _ b msg => some (.publish b.room msg)
  | .joined u r => some (.subscribe u r)
  | .left u r => some (.unsubscribe u r)
  | _ => none

def notices (events : List Event) : List (Notice RoomId Worker Message) :=
  events.filterMap Event.notice

def Event.enqueue (u : Worker) : Event → Option Message
  | .enqueued v msg => if v = u then some msg else none
  | _ => none

/-- The messages that entered the queue of a user. -/
def enqueued (u : Worker) (events : List Event) : List Message := events.filterMap (Event.enqueue u)

@[simp] theorem notices_append (events es : List Event) :
    notices (events ++ es) = notices events ++ notices es :=
  List.filterMap_append ..

@[simp] theorem enqueued_append (u : Worker) (events es : List Event) :
    enqueued u (events ++ es) = enqueued u events ++ enqueued u es :=
  List.filterMap_append ..

theorem mem_enqueued {u : Worker} {events : List Event} {msg : Message} :
    msg ∈ enqueued u events ↔ .enqueued u msg ∈ events := by
  constructor
  · intro hmsg
    obtain ⟨e, he, hsome⟩ := List.mem_filterMap.mp hmsg
    cases e <;> simp_all [Event.enqueue]
  · intro hmsg
    exact List.mem_filterMap.mpr ⟨_, hmsg, by rw [Event.enqueue, if_pos rfl]⟩

namespace Server

/-- What the broadcast of a worker in a room still has to enqueue for a member. -/
def owed (s : Server) (r : RoomId) (w u : Worker) : List Message :=
  match (s.stage w).owes with
  | none => []
  | some (b, reached) => if b.room = r ∧ u ∉ reached then [s.delivery b] else []

/-- What the broadcast that holds the lock of a room still has to enqueue for a member. -/
def running (s : Server) (r : RoomId) (u : Worker) : List Message :=
  match s.owner (.room r) with
  | none => []
  | some w => s.owed r w u

/-- The message of the broadcast that holds the lock of the room, as long as the user is a member
that it has not reached. -/
def pending (s : Server) (r : RoomId) (u : Worker) : List Message :=
  if u ∈ (s.room r).members then s.running r u else []

end Server

section Balance
variable {s t : Server} {w : Worker} {op : Operation} {es : List Event} {next : Point}

/-- What a move does to the message a broadcast owes to the members: nothing, or the broadcast
begins, ends or reaches a member. -/
inductive OwesMove (s t : Server) (w : Worker) (es : List Event) (next : Point) : Prop
  | quiet : (stage w next).owes = (s.stage w).owes → (∀ u, enqueued u es = []) →
      (∀ r, topicLog r (notices es) = []) →
      (∀ r, t.owner (.room r) = s.owner (.room r) ∨ ((s.stage w).owes = none ∧
        (∀ v, s.owner (.room r) = some v → v = w) ∧ ∀ v, t.owner (.room r) = some v → v = w)) →
      OwesMove s t w es next
  | begins {b : Broadcast} : es = [.locked w b (s.delivery b)] →
      s.owner (.room b.room) = none → t = s.setOwner (.room b.room) (some w) →
      (s.stage w).owes = none → (stage w next).owes = some (b, []) → OwesMove s t w es next
  | ends {b : Broadcast} {visited : List Worker} : es = [] → t = s →
      (s.stage w).owes = some (b, visited) → (stage w next).owes = none →
      (∀ u ∈ (s.room b.room).members, u ∈ visited) → OwesMove s t w es next
  | reaches {u : Worker} {b : Broadcast} {visited : List Worker} :
      es = [.enqueued u (s.delivery b)] → t.owner = s.owner →
      s.owner (.room b.room) = some w → u ∈ (s.room b.room).members → u ∉ visited →
      (s.stage w).owes = some (b, visited) → (stage w next).owes = some (b, u :: visited) →
      OwesMove s t w es next

theorem owes_cases (hsafe : Safe s) (htyped : op.Typed w (s.stage w))
    (hmove : Move w s op es t next) : OwesMove s t w es next := by
  have hquiet (howes : (stage w next).owes = (s.stage w).owes)
      (henqueued : ∀ u, enqueued u es = []) (hnotices : ∀ r, topicLog r (notices es) = [])
      (howner : t.owner = s.owner) : OwesMove s t w es next :=
    .quiet howes henqueued hnotices fun r => .inl (by rw [howner])
  cases hmove with
  | @broadcast l b _ hfree =>
    obtain ⟨rfl, hidle, hnext⟩ := htyped
    exact .begins rfl hfree rfl (by rw [hidle]; rfl) (by rw [hnext])
  | lastMember hlast =>
    obtain ⟨b, rfl, hσ, -, hnext⟩ := htyped
    exact .ends rfl rfl (by rw [hσ]) (by rw [hnext]) hlast
  | @pushBack u b _ =>
    obtain ⟨visited, hσ, hnext⟩ := htyped
    obtain ⟨hmember, hvisited⟩ := hsafe.serves w b visited u (by rw [hσ])
    have howner : s.owner (.room b.room) = some w := (hsafe.owner _ w).mpr (by rw [hσ]; simp)
    exact .reaches rfl rfl howner hmember hvisited (by rw [hσ]) (by rw [hnext])
  | @acquire l _ hfree =>
    obtain ⟨hnext, howes⟩ := htyped
    refine .quiet (by rw [hnext]) (fun _ => rfl) (fun _ => rfl) fun r => ?_
    by_cases hl : l = .room r
    · subst hl
      exact .inr ⟨howes r rfl, by simp [hfree], by simp [eq_comm]⟩
    · exact .inl (Function.update_of_ne (Ne.symm hl) _ _)
  | @release l _ =>
    obtain ⟨hlocks, hnext, howes⟩ := htyped
    refine .quiet (by rw [hnext]) (fun _ => rfl) (fun _ => rfl) fun r => ?_
    by_cases hl : l = .room r
    · subst hl
      have howner : s.owner (.room r) = some w := (hsafe.owner _ w).mpr (by rw [hlocks]; simp)
      exact .inr ⟨howes r rfl, by simp [howner, eq_comm], by simp⟩
    · exact .inl (Function.update_of_ne (Ne.symm hl) _ _)
  | nextMember _ _ =>
    obtain ⟨b, -, hσ, hnext, -⟩ := htyped
    exact hquiet (by rw [hnext]) (fun _ => rfl) (fun _ => rfl) rfl
  | newUser => exact hquiet (by rw [htyped.1, htyped.2]; rfl) (fun _ => rfl) (fun _ => rfl) rfl
  | deleteUser => exact hquiet (by rw [htyped.1, htyped.2]; rfl) (fun _ => rfl) (fun _ => rfl) rfl
  | receive _ => exact hquiet (by rw [htyped.1, htyped.2]) (fun _ => rfl) (fun _ => rfl) rfl
  | sent _ => exact hquiet (by rw [htyped.2.1]) (fun _ => rfl) (fun _ => rfl) rfl
  | notSent _ => exact hquiet (by rw [htyped.2.2]) (fun _ => rfl) (fun _ => rfl) rfl
  | findRoom _ => exact hquiet (by rw [htyped.2.2]) (fun _ => rfl) (fun _ => rfl) rfl
  | createRoom _ => exact hquiet (by rw [htyped.2.2]) (fun _ => rfl) (fun _ => rfl) rfl
  | insertMember => exact hquiet (by rw [htyped.2]) (fun _ => rfl) (fun _ => rfl) rfl
  | eraseMember => exact hquiet (by rw [htyped.2]) (fun _ => rfl) (fun _ => rfl) rfl
  | semPost => exact hquiet (by rw [htyped.2]) (fun _ => rfl) (fun _ => rfl) rfl
  | semWait _ => exact hquiet (by rw [htyped.2.2.1]) (fun _ => rfl) (fun _ => rfl) rfl
  | timeout => exact hquiet (by rw [htyped.2.2.2]) (fun _ => rfl) (fun _ => rfl) rfl
  | popFront _ => exact hquiet (by rw [htyped.2.2]) (fun _ => rfl) (fun _ => rfl) rfl

theorem owed_of_owes_none {s : Server} {r : RoomId} {w u : Worker}
    (h : (s.stage w).owes = none) : s.owed r w u = [] := by
  rw [Server.owed, h]

theorem owed_of_owes {s : Server} {r : RoomId} {w u : Worker} {b : Broadcast}
    {reached : List Worker} (h : (s.stage w).owes = some (b, reached)) :
    s.owed r w u = if b.room = r ∧ u ∉ reached then [s.delivery b] else [] := by
  rw [Server.owed, h]

theorem running_eq_nil {s : Server} {r : RoomId} {u : Worker}
    (h : ∀ v, s.owner (.room r) = some v → s.owed r v u = []) : s.running r u = [] := by
  rw [Server.running]
  split
  · rfl
  · next v hv => exact h v hv

theorem running_of_owner {s : Server} {r : RoomId} {v u : Worker}
    (howner : s.owner (.room r) = some v) (howes : (s.stage v).owes = none) :
    s.running r u = [] := by
  refine running_eq_nil fun v' hv' => ?_
  rw [howner] at hv'
  cases hv'
  exact owed_of_owes_none howes

/-- The delivery of a running broadcast stays the same. -/
private theorem delivery_goto (hmap : RoomMap s) (hmove : Move w s op es t next) {v : Worker}
    {b : Broadcast} {reached : List Worker} (howes : (s.stage v).owes = some (b, reached)) :
    (t.goto w next).delivery b = s.delivery b := by
  obtain ⟨name, hname⟩ := hmap.pointer v _ (room_of_owes howes)
  exact hmove.delivery (hmap.name name _ hname).1

/-- What a worker owes depends on its stage. -/
private theorem owed_eq (hmap : RoomMap s) (hmove : Move w s op es t next) {v : Worker}
    (howes : ((t.goto w next).stage v).owes = (s.stage v).owes) (r : RoomId) (u : Worker) :
    (t.goto w next).owed r v u = s.owed r v u := by
  cases h : (s.stage v).owes with
  | none => rw [owed_of_owes_none h, owed_of_owes_none (howes.trans h)]
  | some owes =>
    obtain ⟨b, reached⟩ := owes
    rw [owed_of_owes h, owed_of_owes (howes.trans h), delivery_goto hmap hmove h]

/-- What enters the queue of a member and what is owed to it then make up what was owed to it
before and what is published. -/
private theorem balance (hsafe : Safe s) (hmap : RoomMap s) (htyped : op.Typed w (s.stage w))
    (hmove : Move w s op es t next) {r : RoomId} {u : Worker} (hu : u ∈ (s.room r).members) :
    enqueued u es ++ (t.goto w next).running r u = s.running r u ++ topicLog r (notices es) := by
  have hothers (v : Worker) (hv : v ≠ w) : (t.goto w next).owed r v u = s.owed r v u :=
    owed_eq hmap hmove (by rw [hmove.stage_of_ne hv]) r u
  have hself : (t.goto w next).stage w = stage w next := Server.stage_goto_self t w next
  have hsame (howner : t.owner (.room r) = s.owner (.room r))
      (howed : (t.goto w next).owed r w u = s.owed r w u) :
      (t.goto w next).running r u = s.running r u := by
    have howed' (v : Worker) : (t.goto w next).owed r v u = s.owed r v u := by
      by_cases hv : v = w
      · rw [hv, howed]
      · exact hothers v hv
    simp only [Server.running, Server.goto_owner, howner, howed']
  cases owes_cases hsafe htyped hmove with
  | quiet howes henqueued hnotices howner =>
    rw [henqueued, hnotices, List.nil_append, List.append_nil]
    have howed : (t.goto w next).owed r w u = s.owed r w u :=
      owed_eq hmap hmove (by rw [hself, howes]) r u
    rcases howner r with howner | ⟨hnone, hold, hnew⟩
    · exact hsame howner howed
    · have hnil : s.owed r w u = [] := owed_of_owes_none hnone
      rw [running_eq_nil fun v hv => by rw [hnew v hv, howed, hnil],
        running_eq_nil fun v hv => by rw [hold v hv, hnil]]
  | @begins b hes hfree ht hnone hnext =>
    subst hes ht
    have howes :
        (((s.setOwner (.room b.room) (some w)).goto w next).stage w).owes = some (b, []) := by
      rw [hself, hnext]
    show ((s.setOwner (.room b.room) (some w)).goto w next).running r u =
      s.running r u ++ topicLog r [.publish b.room (s.delivery b)]
    by_cases hr : b.room = r
    · subst hr
      rw [Server.running, Server.goto_owner, Server.setOwner_owner, Function.update_self]
      dsimp only
      rw [owed_of_owes howes, if_pos ⟨rfl, List.not_mem_nil⟩, running_eq_nil (by simp [hfree])]
      simp [topicLog]
      rfl
    · rw [topicLog, if_neg hr, topicLog, List.append_nil]
      refine hsame (Function.update_of_ne (by simpa using Ne.symm hr) _ _) ?_
      rw [owed_of_owes howes, if_neg fun h => hr h.1, owed_of_owes_none hnone]
  | @ends b visited hes ht howes hnext hlast =>
    subst hes ht
    show (t.goto w next).running r u = t.running r u ++ []
    rw [List.append_nil]
    refine hsame rfl ?_
    rw [owed_of_owes_none (by rw [hself, hnext]), owed_of_owes howes, if_neg]
    rintro ⟨rfl, hvisited⟩
    exact hvisited (hlast u hu)
  | @reaches v b visited hes howner hlock hmember hvisited howes hnext =>
    subst hes
    show enqueued u [.enqueued v (s.delivery b)] ++ (t.goto w next).running r u =
      s.running r u ++ []
    rw [List.append_nil]
    have howes' : ((t.goto w next).stage w).owes = some (b, v :: visited) := by rw [hself, hnext]
    by_cases hv : v = u
    · subst hv
      have hr : b.room = r := by
        rw [hsafe.member] at hu hmember
        rw [hu] at hmember
        exact (Option.some.inj hmember).symm
      subst hr
      have hreached : (t.goto w next).owed b.room w v = [] := by
        rw [owed_of_owes howes', if_neg fun h => h.2 List.mem_cons_self]
      have howed : s.owed b.room w v = [s.delivery b] := by
        rw [owed_of_owes howes, if_pos ⟨rfl, hvisited⟩]
      simp only [Server.running, Server.goto_owner, howner, hlock, hreached, howed]
      simp [enqueued, Event.enqueue]
    · have hnone : enqueued u [.enqueued v (s.delivery b)] = [] := by
        simp [enqueued, Event.enqueue, hv]
      rw [hnone, List.nil_append]
      refine hsame (by rw [howner]) ?_
      rw [owed_of_owes howes', owed_of_owes howes, delivery_goto hmap hmove howes]
      simp [Ne.symm hv]

/-- Only a member of a room has something put into its queue. -/
private theorem enqueued_of_not_member (hsafe : Safe s) (htyped : op.Typed w (s.stage w))
    (hmove : Move w s op es t next) {u : Worker} (hu : (s.stage u).member = none) :
    enqueued u es = [] := by
  cases owes_cases hsafe htyped hmove with
  | quiet _ henqueued _ _ => exact henqueued u
  | begins hes => rw [hes]; rfl
  | ends hes => rw [hes]; rfl
  | @reaches v b visited hes _ _ hmember _ _ _ =>
    have hv : v ≠ u := by
      rintro rfl
      rw [hsafe.member, hu] at hmember
      cases hmember
    rw [hes]
    simp [enqueued, Event.enqueue, hv]

/-- The messages that entered the queue of a user, with those it is still owed in its room, are
its feed. -/
structure Fed (s : Server) (events : List Event) (u : Worker) : Prop where
  topic : (feed u (notices events)).topic = (s.stage u).member
  messages : enqueued u events ++ ((s.stage u).member.map (s.running · u)).getD [] =
    (feed u (notices events)).messages

/-- A move that leaves the room of the user alone. -/
private theorem fed_of_steady {events : List Event} {u : Worker} (hsafe : Safe s)
    (hmap : RoomMap s) (htyped : op.Typed w (s.stage w)) (hmove : Move w s op es t next)
    (hfed : Fed s events u)
    (hsteady : ∀ n ∈ notices es, ∀ r, n ≠ .subscribe u r ∧ n ≠ .unsubscribe u r)
    (hmember : ((t.goto w next).stage u).member = (s.stage u).member) :
    Fed (t.goto w next) (events ++ es) u := by
  obtain ⟨htopic, hmessages⟩ := feed_append_of_steady (notices events) hsteady
  refine ⟨by rw [notices_append, htopic, hfed.topic, hmember], ?_⟩
  have hbefore := hfed.messages
  rw [notices_append, hmessages, hfed.topic, hmember, enqueued_append, ← hbefore]
  cases hm : (s.stage u).member with
  | none => simp [enqueued_of_not_member hsafe htyped hmove hm]
  | some r =>
    have hbalance := balance hsafe hmap htyped hmove ((hsafe.member r u).mpr hm)
    simpa using hbalance

theorem Steady.notices {es : List Event} (hsteady : Steady es) (u : Worker) :
    ∀ n ∈ notices es, ∀ r, n ≠ .subscribe u r ∧ n ≠ .unsubscribe u r := by
  intro n hn r
  obtain ⟨e, he, hnotice⟩ := List.mem_filterMap.mp hn
  cases e with
  | joined v r' => exact absurd rfl (hsteady _ he v r').1
  | left v r' => exact absurd rfl (hsteady _ he v r').2
  | locked v b msg =>
    cases hnotice
    simp
  | _ => cases hnotice

theorem Fed.step {s' : Server} {u : Worker} {choice : Choice} {events : List Event}
    (hsafe : Safe s) (hmap : RoomMap s) (hfed : Fed s events u)
    (hstep : s.step w choice = some (es, s')) : Fed s' (events ++ es) u := by
  obtain ⟨t, next, hmove, rfl⟩ := step_move hstep
  have htyped : (code w (s.point w)).Typed w (s.stage w) := code_typed w (s.point w)
  have hself : (t.goto w next).stage w = stage w next := Server.stage_goto_self t w next
  by_cases hu : u = w
  · subst hu
    rcases hmove.member_cases htyped with ⟨hsteady, hmember, -⟩ |
      ⟨r, rfl, hlock, hout, hin, howes, rfl⟩ | ⟨r, rfl, hlock, hin, hout, howes, rfl⟩
    · exact fed_of_steady hsafe hmap htyped hmove hfed (hsteady.notices u) (by rw [hself, hmember])
    · have howner : s.owner (.room r) = some u := (hsafe.owner _ u).mpr hlock
      have hnone :
          ((s.setMembers r ((s.room r).members.insert u)).goto u next).running r u = [] :=
        running_of_owner howner (by rw [hself, howes])
      have hbefore := hfed.messages
      rw [hout] at hbefore
      have hnotice : notices (events ++ [.joined u r]) = notices events ++ [.subscribe u r] :=
        notices_append events _
      refine ⟨?_, ?_⟩
      · rw [hnotice, feed_append, List.foldl_cons, List.foldl_nil, Feed.next, if_pos rfl, hself,
          hin]
      · rw [hnotice, feed_append, List.foldl_cons, List.foldl_nil, Feed.next, if_pos rfl, hself,
          hin, Option.map_some, Option.getD_some, hnone, ← hbefore, enqueued_append]
        simp [enqueued, Event.enqueue]
    · have howner : s.owner (.room r) = some u := (hsafe.owner _ u).mpr hlock
      have hnone : s.running r u = [] := running_of_owner howner howes
      have hbefore := hfed.messages
      rw [hin, Option.map_some, Option.getD_some, hnone] at hbefore
      have hnotice : notices (events ++ [.left u r]) = notices events ++ [.unsubscribe u r] :=
        notices_append events _
      refine ⟨?_, ?_⟩
      · rw [hnotice, feed_append, List.foldl_cons, List.foldl_nil, Feed.next, if_pos rfl, hself,
          hout]
      · rw [hnotice, feed_append, List.foldl_cons, List.foldl_nil, Feed.next, if_pos rfl, hself,
          hout, ← hbefore, enqueued_append]
        simp [enqueued, Event.enqueue]
  · refine fed_of_steady hsafe hmap htyped hmove hfed ?_ (by rw [hmove.stage_of_ne hu])
    rcases hmove.member_cases htyped with ⟨hsteady, -⟩ | ⟨r, rfl, -⟩ | ⟨r, rfl, -⟩
    · exact hsteady.notices u
    · simp [notices, Event.notice, Ne.symm hu]
    · simp [notices, Event.notice, Ne.symm hu]

end Balance

theorem Run.fed {conn : Worker → Connection} {events : List Event} {s : Server}
    (hrun : Run conn events s) (u : Worker) : Fed s events u := by
  induction hrun with
  | start => exact ⟨rfl, rfl⟩
  | step w choice hrun hstep ih => exact ih.step hrun.safe hrun.roomMap hstep

/-- The joins of a worker are its subscriptions. -/
theorem subscriptions_notices (u : Worker) (events : List Event) :
    subscriptions u (notices events) = joins (own u events) := by
  induction events with
  | nil => rfl
  | cons e events ih =>
    have hcons : notices (e :: events) = notices [e] ++ notices events := notices_append [e] events
    have hown : own u (e :: events) = own u [e] ++ own u events := own_append u [e] events
    rw [hcons, hown, subscriptions_append, joins_append, ih]
    congr 1
    rw [own, List.filter_cons]
    cases e with
    | joined v r =>
      by_cases hv : v = u <;>
        simp [notices, Event.notice, subscriptions, Event.worker, joins, Event.join, hv]
    | _ => split_ifs <;> rfl

/-- A queue holds what has entered it and not left it. -/
def Queued (s : Server) (events : List Event) (u : Worker) : Prop :=
  dequeues (own u events) ++ (s.user u).mqueue.messages = enqueued u events

section Queue
variable {s t : Server} {w : Worker} {op : Operation} {es : List Event} {next : Point}

@[simp] theorem messages_setQueue (s : Server) (v u : Worker) (mqueue : MessageQueue) :
    ((s.setQueue v mqueue).user u).mqueue.messages =
      if u = v then mqueue.messages else (s.user u).mqueue.messages := by
  by_cases hu : u = v
  · subst hu
    simp
  · simp [hu]

private theorem dequeues_own {e : Event} (he : e.dequeue = none) (u : Worker) :
    dequeues (own u [e]) = [] := by
  rw [own, List.filter_cons]
  split_ifs
  · simp [dequeues, he]
  · rfl

/-- Except for a new user, what is in a queue and what enters it leaves it or stays. -/
private theorem messages_balance (hmove : Move w s op es t next)
    (hnew : op = .newUser next → (s.user w).mqueue.messages = []) (u : Worker) :
    dequeues (own u es) ++ (t.user u).mqueue.messages =
      (s.user u).mqueue.messages ++ enqueued u es := by
  have hquiet (hdequeues : dequeues (own u es) = []) (henqueued : enqueued u es = [])
      (hmessages : (t.user u).mqueue.messages = (s.user u).mqueue.messages) :
      dequeues (own u es) ++ (t.user u).mqueue.messages =
        (s.user u).mqueue.messages ++ enqueued u es := by
    rw [hdequeues, henqueued, hmessages, List.nil_append, List.append_nil]
  cases hmove with
  | newUser =>
    refine hquiet rfl rfl ?_
    by_cases hu : u = w
    · subst hu
      simp [hnew rfl]
    · simp [hu]
  | deleteUser =>
    refine hquiet rfl rfl ?_
    by_cases hu : u = w
    · subst hu
      simp
    · simp [hu]
  | @pushBack v b _ =>
    rw [dequeues_own rfl, List.nil_append, messages_setQueue]
    by_cases hu : u = v
    · subst hu
      simp [enqueued, Event.enqueue]
    · simp [enqueued, Event.enqueue, hu, Ne.symm hu]
  | @popFront _ msg messages h =>
    rw [messages_setQueue]
    by_cases hu : u = w
    · subst hu
      rw [own_of_worker rfl, if_pos rfl, h]
      simp [dequeues, Event.dequeue, enqueued, Event.enqueue]
    · simp [own, Event.worker, Ne.symm hu, hu, dequeues, enqueued, Event.enqueue]
  | semPost => exact hquiet rfl rfl (by rw [messages_setQueue]; split_ifs with h <;> simp [h])
  | semWait _ => exact hquiet rfl rfl (by rw [messages_setQueue]; split_ifs with h <;> simp [h])
  | receive _ => exact hquiet (dequeues_own rfl u) rfl rfl
  | sent _ => exact hquiet (dequeues_own rfl u) rfl rfl
  | broadcast _ => exact hquiet (dequeues_own rfl u) rfl rfl
  | insertMember => exact hquiet (dequeues_own rfl u) rfl rfl
  | eraseMember => exact hquiet (dequeues_own rfl u) rfl rfl
  | _ => exact hquiet rfl rfl rfl

/-- Nothing enters the queue of a user before it joins a room. -/
theorem Run.enqueued_of_joins_nil {conn : Worker → Connection} {events : List Event}
    (hrun : Run conn events s) {u : Worker} (hjoins : joins (own u events) = []) :
    enqueued u events = [] := by
  have hmessages := (hrun.fed u).messages
  rw [feed_of_subscriptions_nil (by rw [subscriptions_notices, hjoins])] at hmessages
  exact (List.append_eq_nil_iff.mp hmessages).1

/-- Queues are first in, first out: what has left a queue comes before what is in it. -/
theorem Run.queued {conn : Worker → Connection} {events : List Event}
    (hrun : Run conn events s) (u : Worker) : Queued s events u := by
  induction hrun generalizing u with
  | start => rfl
  | @step events s s' es w choice hrun hstep ih =>
    obtain ⟨t, next, hmove, rfl⟩ := step_move hstep
    have hnew : code w (s.point w) = .newUser next → (s.user w).mqueue.messages = [] := by
      intro h
      have htold := hrun.receiverTold w
      rw [start_of_newUser h] at htold
      have hqueued : _ = enqueued w events := ih w
      rw [hrun.enqueued_of_joins_nil htold.1.1] at hqueued
      exact (List.append_eq_nil_iff.mp hqueued).2
    have hbalance := messages_balance hmove hnew u
    have hqueued : dequeues (own u events) ++ (s.user u).mqueue.messages = enqueued u events := ih u
    show dequeues (own u (events ++ es)) ++ (t.user u).mqueue.messages = enqueued u (events ++ es)
    rw [own_append, dequeues_append, enqueued_append, List.append_assoc, hbalance,
      ← List.append_assoc, hqueued]

end Queue

end CsfAssignments.Chat
