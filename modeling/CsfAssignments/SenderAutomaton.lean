import CsfAssignments.SenderHistory
import CsfAssignments.Transducers

/-!
# The session of a sender as an automaton

`chat_with_sender` answers every message by the room its client is in, which is that of the last
join it has accepted. A session takes any messages and loses no reply; the other workers move in
between as they like.
-/

namespace CsfAssignments.Chat
open Transducers

/-- What a sender sees of a message: the result of `receive`, and the message. -/
abbrev Request := Result × Message

def Event.heard : Event → Option Request
  | .received _ result msg => some (result, msg)
  | _ => none

def received (h : List Event) : List Request := h.filterMap Event.heard

@[simp] theorem received_append (h es : List Event) :
    received (h ++ es) = received h ++ received es :=
  List.filterMap_append ..

/-! ### The automaton -/

/-- The messages that are answered `ok` in a room or in none. -/
def Accepts (room : Option (List Char)) (m : Request) : Prop :=
  m.1 = .success ∧ (m.2.tag = tagJoin ∧ hasNewline m.2.data ∨ m.2.tag = tagLeave ∧ room ≠ none ∨
    m.2.tag = tagSendall ∧ room ≠ none ∧ hasNewline m.2.data ∨ m.2.tag = tagQuit)

instance (room : Option (List Char)) (m : Request) : Decidable (Accepts room m) :=
  inferInstanceAs (Decidable (_ ∧ _))

def Quits (m : Request) : Prop := m.1 = .success ∧ m.2.tag = tagQuit

/-- What becomes of a message: whether it is answered `ok`, and the room and the text of its
broadcast. -/
structure Answer where
  accepted : Bool
  post : Option (List Char × List Char)
  deriving DecidableEq

/-- The name of the room the client is in, and the answers to its messages. -/
def senderAutomaton : Transducer (Option (List Char)) Request Answer where
  start := none
  next room m :=
    if Accepts room m then
      if m.2.tag = tagJoin then some (rightTrim m.2.data)
      else if m.2.tag = tagLeave then none
      else room
    else room
  output room m := {
    accepted := Accepts room m
    post :=
      if Accepts room m ∧ m.2.tag = tagSendall then
        room.map fun name => (name, rightTrim m.2.data)
      else none }

/-- The broadcasts that the messages ask for. -/
def posts (ms : List Request) : List (List Char × List Char) :=
  (senderAutomaton.outputs ms).filterMap Answer.post

/-- A reply as the automaton gives it. -/
def Told (reply : Message) (answer : Answer) : Prop :=
  if answer.accepted then reply = ok else reply.tag = tagErr

/-- A broadcast of the sender in the room of this name. -/
def Server.Broadcasts (s : Server) (username : List Char) (b : Broadcast)
    (post : List Char × List Char) : Prop :=
  b.username = username ∧ s.rooms.lookup post.1 = some b.room ∧ b.text = post.2

/-! ### Sessions -/

/-- The operations on the connection. -/
def Operation.talks : Operation → Bool
  | .receive _ | .send _ _ _ => true
  | _ => false

/-- The moves of a worker in a session: any message but the end of the file may arrive, and every
reply is written. -/
inductive SessionMove (w : Worker) (s : Server) :
    Operation → List Event → Server → Point → Prop
  | receive {next : Result → Message → Point} {result : Result} {msg : Message}
      (conn : Connection) : result ≠ .eofOrError →
      SessionMove w s (.receive next) [.received w result msg] (s.setConn w conn) (next result msg)
  | send {msg : Message} {sent failed : Point} (conn : Connection) :
      SessionMove w s (.send msg sent failed) [.sent w msg] (s.setConn w conn) sent
  | other {op : Operation} {es : List Event} {t : Server} {next : Point} : op.talks = false →
      Move w s op es t next → SessionMove w s op es t next

/-- The runs of the server in which one worker is in such a session. -/
inductive SessionRun (w : Worker) : Server → List Event → Server → Prop
  | refl (s : Server) : SessionRun w s [] s
  | move {s t s' : Server} {es events : List Event} {next : Point} :
      SessionMove w s (code w (s.point w)) es t next → SessionRun w (t.goto w next) events s' →
      SessionRun w s (es ++ events) s'
  | other {s s₁ s' : Server} {v : Worker} {choice : Choice} {es events : List Event} : v ≠ w →
      s.step v choice = some (es, s₁) → SessionRun w s₁ events s' →
      SessionRun w s (es ++ events) s'

/-- All messages have been answered by the automaton. -/
structure Answered (s : Server) (username : List Char) (h : List Event) : Prop where
  told : List.Forall₂ Told (replies h) (senderAutomaton.outputs (received h))
  posts : List.Forall₂ (s.Broadcasts username) (broadcasts h) (posts (received h))

/-- The pointer of the worker is that of the room the client is in. -/
def Server.Inside (s : Server) (h : List Event) (current : Option RoomId) : Prop :=
  (senderAutomaton.state (received h)).map (fun name => s.rooms.lookup name) = current.map some

/-- The last message, with this tag, is accepted and not answered yet. -/
def Pending (h : List Event) (tag : List Char) : Prop :=
  ∃ ms m, received h = ms ++ [m] ∧ (replies h).length = ms.length ∧
    Accepts (senderAutomaton.state ms) m ∧ m.2.tag = tag

/-- The client has not quit. -/
def Staying (h : List Event) : Prop := ∀ m ∈ received h, ¬Quits m

/-- The client has quit with its last message. -/
def Quitting (h : List Event) : Prop :=
  ∃ ms m, received h = ms ++ [m] ∧ Quits m ∧ ∀ m' ∈ ms, ¬Quits m'

/-- What a point of the session says about its events. A reply or a broadcast that is due is taken
as made. -/
def SessionTold (w : Worker) (username : List Char) (s : Server) (h : List Event) : Point → Prop
  | .senderLoop u current => u = username ∧ Answered s username h ∧ s.Inside h current ∧ Staying h
  | .senderReply msg u current =>
      u = username ∧ Answered s username (h ++ [.sent w msg]) ∧ s.Inside h current ∧ Staying h
  | .senderQuit => Answered s username (h ++ [.sent w ok]) ∧ Quitting h
  | .findAcquire (.sender u) name | .findBody (.sender u) name =>
      u = username ∧ Answered s username (h ++ [.sent w ok]) ∧ Pending h tagJoin ∧
        senderAutomaton.state (received h) = some name ∧ Staying h
  | .findRelease (.sender u) r =>
      u = username ∧ Answered s username (h ++ [.sent w ok]) ∧ Pending h tagJoin ∧
        s.Inside h (some r) ∧ Staying h
  | .broadcastAcquire b =>
      b.username = username ∧
        (∀ msg, Answered s username (h ++ [.locked w b msg] ++ [.sent w ok])) ∧
        Pending h tagSendall ∧ s.Inside h (some b.room) ∧ Staying h
  | .broadcasting b _ | .enqueueAcquire b _ _ | .enqueuePush b _ _ | .enqueuePost b _ _
  | .enqueueRelease b _ _ | .broadcastRelease b =>
      b.username = username ∧ Answered s username (h ++ [.sent w ok]) ∧
        Pending h tagSendall ∧ s.Inside h (some b.room) ∧ Staying h
  | .deleteUser | .ended => Answered s username h ∧ Quitting h
  | _ => False

section Automaton
variable {room : Option (List Char)} {m : Request}

theorem Quits.accepts (h : Quits m) : Accepts room m := ⟨h.1, .inr (.inr (.inr h.2))⟩

theorem accepts_of_join (hjoin : m.2.tag = tagJoin) :
    Accepts room m ↔ m.1 = .success ∧ hasNewline m.2.data := by
  have hne : tagJoin ≠ tagLeave ∧ tagJoin ≠ tagSendall ∧ tagJoin ≠ tagQuit := by decide
  simp [Accepts, hjoin, hne.1, hne.2.1, hne.2.2]

theorem accepts_of_leave (hleave : m.2.tag = tagLeave) :
    Accepts room m ↔ m.1 = .success ∧ room ≠ none := by
  have hne : tagLeave ≠ tagJoin ∧ tagLeave ≠ tagSendall ∧ tagLeave ≠ tagQuit := by decide
  simp [Accepts, hleave, hne.1, hne.2.1, hne.2.2]

theorem accepts_of_sendall (hsendall : m.2.tag = tagSendall) :
    Accepts room m ↔ m.1 = .success ∧ room ≠ none ∧ hasNewline m.2.data := by
  have hne : tagSendall ≠ tagJoin ∧ tagSendall ≠ tagLeave ∧ tagSendall ≠ tagQuit := by decide
  simp [Accepts, hsendall, hne.1, hne.2.1, hne.2.2]

/-- Other messages are accepted if they quit. -/
theorem accepts_of_other (hjoin : m.2.tag ≠ tagJoin) (hleave : m.2.tag ≠ tagLeave)
    (hsendall : m.2.tag ≠ tagSendall) : Accepts room m ↔ Quits m := by
  simp [Accepts, hjoin, hleave, hsendall, Quits]

theorem not_quits {tag : List Char} (htag : m.2.tag = tag) (hne : tag ≠ tagQuit) : ¬Quits m :=
  fun hquit => hne (htag.symm.trans hquit.2)

@[simp] theorem next_of_not_accepts (h : ¬Accepts room m) : senderAutomaton.next room m = room :=
  if_neg h

/-- A message that is not accepted is answered with an error and posts nothing. -/
@[simp] theorem output_of_not_accepts (h : ¬Accepts room m) :
    senderAutomaton.output room m = ⟨false, none⟩ := by
  simp [senderAutomaton, h]

theorem output_of_accepts (h : Accepts room m) (hsendall : m.2.tag ≠ tagSendall) :
    senderAutomaton.output room m = ⟨true, none⟩ := by
  simp [senderAutomaton, h, hsendall]

theorem next_of_join (h : Accepts room m) (hjoin : m.2.tag = tagJoin) :
    senderAutomaton.next room m = some (rightTrim m.2.data) := by
  simp [senderAutomaton, h, hjoin]

theorem next_of_leave (h : Accepts room m) (hleave : m.2.tag = tagLeave) :
    senderAutomaton.next room m = none := by
  have hne : tagLeave ≠ tagJoin := by decide
  simp [senderAutomaton, h, hleave, hne]

/-- A broadcast does not move the client. -/
theorem next_of_sendall (hsendall : m.2.tag = tagSendall) :
    senderAutomaton.next room m = room := by
  have hne : tagSendall ≠ tagJoin ∧ tagSendall ≠ tagLeave := by decide
  simp [senderAutomaton, hsendall, hne.1, hne.2]

theorem output_of_sendall {name : List Char} (h : Accepts (some name) m)
    (hsendall : m.2.tag = tagSendall) :
    senderAutomaton.output (some name) m = ⟨true, some (name, rightTrim m.2.data)⟩ := by
  simp [senderAutomaton, h, hsendall]

theorem posts_concat (ms : List Request) (m : Request) : posts (ms ++ [m]) =
    posts ms ++ (senderAutomaton.output (senderAutomaton.state ms) m).post.toList := by
  rw [posts, Transducer.outputs_concat, List.filterMap_append, posts]
  congr 1

end Automaton

section Steps
variable {w : Worker} {username : List Char} {s t : Server} {h es : List Event}
  {current : Option RoomId} {result : Result} {msg reply : Message} {p next : Point}

/-- One more message with its reply, and with its broadcast if it has one. -/
theorem Answered.concat {m : Request} (hall : Answered s username h)
    (hreceived : received es = [m]) (hreplies : replies es = [reply])
    (htold : Told reply (senderAutomaton.output (senderAutomaton.state (received h)) m))
    (hposts : List.Forall₂ (s.Broadcasts username) (broadcasts es)
      (senderAutomaton.output (senderAutomaton.state (received h)) m).post.toList) :
    Answered s username (h ++ es) := by
  constructor
  · rw [received_append, replies_append, hreceived, hreplies, Transducer.outputs_concat]
    exact List.rel_append hall.told (.cons htold .nil)
  · rw [received_append, broadcasts_append, hreceived, posts_concat]
    exact List.rel_append hall.posts hposts

theorem Staying.concat (hstay : Staying h) (hquit : ¬Quits (result, msg)) :
    Staying (h ++ [.received w result msg]) := by
  intro m hm
  rw [received_append, List.mem_append] at hm
  rcases hm with hm | hm
  · exact hstay m hm
  · rw [List.mem_singleton.mp hm]
    exact hquit

/-- A message that is refused. -/
theorem SessionTold.refuse (hall : Answered s username h) (hinside : s.Inside h current)
    (hstay : Staying h)
    (hrefused : ¬Accepts (senderAutomaton.state (received h)) (result, msg)) (text : String) :
    SessionTold w username s (h ++ [.received w result msg])
      (.senderReply (err text) username current) := by
  refine ⟨rfl, ?_, ?_, hstay.concat fun hquit => hrefused hquit.accepts⟩
  · rw [List.append_assoc]
    refine hall.concat (m := (result, msg)) rfl rfl ?_ ?_
    · rw [output_of_not_accepts hrefused]
      rfl
    · rw [output_of_not_accepts hrefused]
      exact .nil
  · have hreceived : received (h ++ [.received w result msg]) = received h ++ [(result, msg)] :=
      received_append h _
    rw [Server.Inside, hreceived, Transducer.state_concat, next_of_not_accepts hrefused]
    exact hinside

/-- A message that is accepted and posts nothing. -/
theorem Answered.accept (hall : Answered s username h)
    (haccepted : Accepts (senderAutomaton.state (received h)) (result, msg))
    (hsendall : msg.tag ≠ tagSendall) :
    Answered s username (h ++ [.received w result msg] ++ [.sent w ok]) := by
  rw [List.append_assoc]
  refine hall.concat (m := (result, msg)) rfl rfl ?_ ?_
  · rw [output_of_accepts haccepted hsendall]
    rfl
  · rw [output_of_accepts haccepted hsendall]
    exact .nil

theorem Pending.of_accepts (hall : Answered s username h)
    (haccepted : Accepts (senderAutomaton.state (received h)) (result, msg)) :
    Pending (h ++ [.received w result msg]) msg.tag := by
  refine ⟨received h, (result, msg), received_append h _, ?_, haccepted, rfl⟩
  have hcount := hall.told.length_eq
  rw [Transducer.length_outputs] at hcount
  rw [replies_append, ← hcount]
  exact congrArg List.length (List.append_nil _)

/-- The client is in a room exactly if the worker has a pointer to one. -/
theorem Server.Inside.state_eq_none (hinside : s.Inside h current) :
    senderAutomaton.state (received h) = none ↔ current = none := by
  rw [← Option.map_eq_none_iff (f := fun name => s.rooms.lookup name), hinside,
    Option.map_eq_none_iff]

/-- What a message makes of the session. -/
theorem sessionTold_senderRequest (hresult : result ≠ .eofOrError)
    (hall : Answered s username h) (hinside : s.Inside h current) (hstay : Staying h) :
    SessionTold w username s (h ++ [.received w result msg])
      (senderRequest username current result msg) := by
  have hreceived : received (h ++ [.received w result msg]) = received h ++ [(result, msg)] :=
    received_append h _
  have hrefuse (hrefused : ¬Accepts (senderAutomaton.state (received h)) (result, msg))
      (text : String) : SessionTold w username s (h ++ [.received w result msg])
        (.senderReply (err text) username current) :=
    .refuse hall hinside hstay hrefused text
  unfold senderRequest
  rw [if_neg hresult]
  by_cases hinvalid : result = .invalidMsg
  · rw [if_pos hinvalid]
    refine hrefuse (fun haccepted => ?_) _
    have hsuccess : result = .success := haccepted.1
    rw [hinvalid] at hsuccess
    cases hsuccess
  have hsuccess := Result.eq_success hresult hinvalid
  rw [if_neg hinvalid]
  by_cases hjoin : msg.tag = tagJoin
  · rw [if_pos hjoin]
    split_ifs with hnewline
    · have haccepted : Accepts (senderAutomaton.state (received h)) (result, msg) :=
        (accepts_of_join hjoin).mpr ⟨hsuccess, hnewline⟩
      refine ⟨rfl, hall.accept haccepted (by rw [hjoin]; decide),
        hjoin ▸ Pending.of_accepts hall haccepted, ?_, hstay.concat (not_quits hjoin (by decide))⟩
      rw [hreceived, Transducer.state_concat, next_of_join haccepted hjoin]
    · exact hrefuse (fun haccepted => hnewline ((accepts_of_join hjoin).mp haccepted).2) _
  rw [if_neg hjoin]
  by_cases hleave : msg.tag = tagLeave
  · rw [if_pos hleave]
    split_ifs with hnone
    · exact hrefuse (fun haccepted => ((accepts_of_leave hleave).mp haccepted).2
        (hinside.state_eq_none.mpr hnone)) _
    · have haccepted : Accepts (senderAutomaton.state (received h)) (result, msg) :=
        (accepts_of_leave hleave).mpr
          ⟨hsuccess, fun hstate => hnone (hinside.state_eq_none.mp hstate)⟩
      refine ⟨rfl, hall.accept haccepted (by rw [hleave]; decide), ?_,
        hstay.concat (not_quits hleave (by decide))⟩
      rw [Server.Inside, hreceived, Transducer.state_concat, next_of_leave haccepted hleave]
      rfl
  rw [if_neg hleave]
  by_cases hsendall : msg.tag = tagSendall
  · rw [if_pos hsendall]
    cases current with
    | none =>
      exact hrefuse (fun haccepted => ((accepts_of_sendall hsendall).mp haccepted).2.1
        (hinside.state_eq_none.mpr rfl)) _
    | some r =>
      dsimp only
      by_cases hnewline : hasNewline msg.data
      · rw [if_neg (not_not_intro hnewline)]
        obtain ⟨name, hstate, hr⟩ := Option.map_eq_some_iff.mp hinside
        have haccepted : Accepts (some name) (result, msg) :=
          (accepts_of_sendall hsendall).mpr ⟨hsuccess, by simp, hnewline⟩
        refine ⟨rfl, fun sent => ?_, hsendall ▸ Pending.of_accepts hall (hstate ▸ haccepted), ?_,
          hstay.concat (not_quits hsendall (by decide))⟩
        · rw [List.append_assoc, List.append_assoc]
          refine hall.concat (m := (result, msg)) rfl rfl ?_ ?_
          · rw [hstate, output_of_sendall haccepted hsendall]
            rfl
          · rw [hstate, output_of_sendall haccepted hsendall]
            exact .cons ⟨rfl, hr, rfl⟩ .nil
        · rw [Server.Inside, hreceived, Transducer.state_concat, next_of_sendall hsendall]
          exact hinside
      · rw [if_pos hnewline]
        exact hrefuse (fun haccepted => hnewline ((accepts_of_sendall hsendall).mp haccepted).2.2) _
  rw [if_neg hsendall]
  split_ifs with hquit
  · exact ⟨hall.accept (Quits.accepts ⟨hsuccess, hquit⟩) hsendall,
      received h, (result, msg), hreceived, ⟨hsuccess, hquit⟩, hstay⟩
  · exact hrefuse (fun haccepted =>
      hquit ((accepts_of_other hjoin hleave hsendall).mp haccepted).2) _

theorem SessionMove.move {op : Operation} (hmove : SessionMove w s op es t next)
    (htalks : op.talks = false) : Move w s op es t next := by
  cases hmove with
  | receive conn hresult => cases htalks
  | send conn => cases htalks
  | other _ hmove => exact hmove

/-! Events that are no messages and no replies. -/

theorem Pending.append {tag : List Char} (hpending : Pending h tag) (hreceived : received es = [])
    (hreplies : replies es = []) : Pending (h ++ es) tag := by
  rw [Pending, received_append, replies_append, hreceived, hreplies, List.append_nil,
    List.append_nil]
  exact hpending

theorem Server.Inside.append (hinside : s.Inside h current) (hreceived : received es = []) :
    s.Inside (h ++ es) current := by
  rw [Server.Inside, received_append, hreceived, List.append_nil]
  exact hinside

theorem Staying.append (hstay : Staying h) (hreceived : received es = []) :
    Staying (h ++ es) := by
  rw [Staying, received_append, hreceived, List.append_nil]
  exact hstay

theorem Quitting.append (hquitting : Quitting h) (hreceived : received es = []) :
    Quitting (h ++ es) := by
  rw [Quitting, received_append, hreceived, List.append_nil]
  exact hquitting

/-- The room that is found or created is that of the join. -/
private theorem session_findBody_step {caller : Caller} {name : List Char}
    (htold : SessionTold w username s h (.findBody caller name))
    (hmove : Move w s (code w (.findBody caller name)) es t next)
    (hmono : ∀ {h'}, Answered s username h' → Answered t username h') :
    SessionTold w username t (h ++ own w es) next := by
  cases caller with
  | receiver => exact htold.elim
  | sender u =>
    obtain ⟨hu, hall, hpending, hstate, hstay⟩ := htold
    have hfound {r : RoomId} (hr : t.rooms.lookup name = some r) :
        SessionTold w username t (h ++ []) (.findRelease (.sender u) r) := by
      rw [List.append_nil]
      refine ⟨hu, hmono hall, hpending, ?_, hstay⟩
      rw [Server.Inside, hstate, Option.map_some, hr, Option.map_some]
    rw [code] at hmove
    cases hmove with
    | findRoom hr => exact hfound hr
    | createRoom hr => exact hfound (by rw [lookup_createRoom, hr]; simp)

/-- A move of the sender, when it finds no room. -/
private theorem session_step (hp : ∀ caller name, p ≠ .findBody caller name)
    (htold : SessionTold w username s h p) (hmove : SessionMove w s (code w p) es t next) :
    SessionTold w username s (h ++ own w es) next := by
  cases p with
  | senderLoop u current =>
    obtain ⟨rfl, hall, hinside, hstay⟩ := htold
    rw [code] at hmove
    cases hmove with
    | receive conn hresult =>
      rw [own_of_worker rfl]
      exact sessionTold_senderRequest hresult hall hinside hstay
    | other htalks _ => cases htalks
  | senderReply msg u current =>
    obtain ⟨hu, hall, hinside, hstay⟩ := htold
    rw [code] at hmove
    cases hmove with
    | send conn =>
      rw [own_of_worker rfl]
      exact ⟨hu, hall, hinside.append rfl, hstay.append rfl⟩
    | other htalks _ => cases htalks
  | senderQuit =>
    obtain ⟨hall, hquitting⟩ := htold
    rw [code] at hmove
    cases hmove with
    | send conn =>
      rw [own_of_worker rfl]
      exact ⟨hall, hquitting.append rfl⟩
    | other htalks _ => cases htalks
  | findAcquire caller name =>
    cases caller with
    | receiver => exact htold.elim
    | sender u =>
      have hmove := hmove.move rfl
      rw [code] at hmove
      cases hmove
      rw [own_nil, List.append_nil]
      exact htold
  | findBody caller name => exact absurd rfl (hp caller name)
  | findRelease caller r =>
    cases caller with
    | receiver => exact htold.elim
    | sender u =>
      obtain ⟨hu, hall, -, hinside, hstay⟩ := htold
      have hmove := hmove.move rfl
      rw [code] at hmove
      cases hmove
      rw [own_nil, List.append_nil]
      exact ⟨hu, hall, hinside, hstay⟩
  | broadcastAcquire b =>
    obtain ⟨hb, hall, hpending, hinside, hstay⟩ := htold
    have hmove := hmove.move rfl
    rw [code] at hmove
    cases hmove
    rw [own_of_worker rfl]
    exact ⟨hb, hall _, hpending.append rfl rfl, hinside.append rfl, hstay.append rfl⟩
  | broadcasting b visited =>
    have hmove := hmove.move rfl
    rw [code] at hmove
    cases hmove <;> (rw [own_nil, List.append_nil]; exact htold)
  | enqueuePush b visited u =>
    have hmove := hmove.move rfl
    rw [code] at hmove
    cases hmove
    exact (List.append_nil h).symm ▸ htold
  | broadcastRelease b =>
    obtain ⟨hb, hall, -, hinside, hstay⟩ := htold
    have hmove := hmove.move rfl
    rw [code] at hmove
    cases hmove
    rw [own_nil, List.append_nil]
    exact ⟨hb, hall, hinside, hstay⟩
  | ended =>
    have hmove := hmove.move rfl
    rw [code] at hmove
    cases hmove
  | _ =>
    first
      | exact htold.elim
      | (have hmove := hmove.move rfl
         rw [code] at hmove
         cases hmove
         rw [own_nil, List.append_nil]
         exact htold)

section Mono
variable (hlookup : ∀ name r, s.rooms.lookup name = some r → t.rooms.lookup name = some r)
include hlookup

theorem Answered.mono (hall : Answered s username h) : Answered t username h :=
  ⟨hall.told, List.Forall₂.imp (fun _ _ hpost => ⟨hpost.1, hlookup _ _ hpost.2.1, hpost.2.2⟩)
    hall.posts⟩

theorem Server.Inside.mono (hinside : s.Inside h current) : t.Inside h current := by
  rw [Server.Inside] at hinside ⊢
  cases hstate : senderAutomaton.state (received h) with
  | none => simpa [hstate] using hinside
  | some name =>
    rw [hstate, Option.map_some] at hinside
    obtain ⟨r, rfl, hr⟩ := Option.map_eq_some_iff.mp hinside.symm
    rw [Option.map_some, hlookup name r hr.symm, Option.map_some]

/-- The moves of the other workers keep what a session knows. -/
theorem SessionTold.mono (htold : SessionTold w username s h p) :
    SessionTold w username t h p := by
  cases p with
  | senderLoop u current =>
    exact ⟨htold.1, htold.2.1.mono hlookup, htold.2.2.1.mono hlookup, htold.2.2.2⟩
  | senderReply msg u current =>
    exact ⟨htold.1, htold.2.1.mono hlookup, htold.2.2.1.mono hlookup, htold.2.2.2⟩
  | findAcquire caller name | findBody caller name =>
    cases caller with
    | receiver => exact htold
    | sender u => exact ⟨htold.1, htold.2.1.mono hlookup, htold.2.2⟩
  | findRelease caller r =>
    cases caller with
    | receiver => exact htold
    | sender u =>
      obtain ⟨hu, hall, hpending, hinside, hstay⟩ := htold
      exact ⟨hu, hall.mono hlookup, hpending, hinside.mono hlookup, hstay⟩
  | broadcastAcquire b =>
    obtain ⟨hb, hall, hpending, hinside, hstay⟩ := htold
    exact ⟨hb, fun msg => (hall msg).mono hlookup, hpending, hinside.mono hlookup, hstay⟩
  | broadcasting b visited | enqueueAcquire b visited u | enqueuePush b visited u
  | enqueuePost b visited u | enqueueRelease b visited u | broadcastRelease b =>
    obtain ⟨hb, hall, hpending, hinside, hstay⟩ := htold
    exact ⟨hb, hall.mono hlookup, hpending, hinside.mono hlookup, hstay⟩
  | senderQuit => exact ⟨htold.1.mono hlookup, htold.2⟩
  | deleteUser | ended => exact ⟨htold.1.mono hlookup, htold.2⟩
  | _ => exact htold

end Mono

theorem SessionMove.lookup {op : Operation} (hmove : SessionMove w s op es t next)
    {name : List Char} {r : RoomId} (hr : s.rooms.lookup name = some r) :
    t.rooms.lookup name = some r := by
  cases hmove with
  | receive conn _ => exact hr
  | send conn => exact hr
  | other _ hmove => exact hmove.lookup hr

/-- A move of the sender keeps what its point says about its events. -/
theorem SessionTold.step (htold : SessionTold w username s h p)
    (hmove : SessionMove w s (code w p) es t next) :
    SessionTold w username t (h ++ own w es) next := by
  by_cases hp : ∀ caller name, p ≠ .findBody caller name
  · exact (session_step hp htold hmove).mono fun _ _ hr => hmove.lookup hr
  · push Not at hp
    obtain ⟨caller, name, rfl⟩ := hp
    exact session_findBody_step htold (hmove.move rfl) fun hall =>
      hall.mono fun _ _ hr => hmove.lookup hr

/-- A session tells in the end what its points say. -/
theorem SessionRun.told {s' : Server} {events : List Event} (hrun : SessionRun w s events s')
    (htold : SessionTold w username s h (s.point w)) :
    SessionTold w username s' (h ++ own w events) (s'.point w) := by
  induction hrun generalizing h with
  | refl s => rwa [own_nil, List.append_nil]
  | @move s t s' es events next hmove _ ih =>
    rw [own_append, ← List.append_assoc]
    refine ih ?_
    rw [Server.goto_point, Function.update_self]
    exact SessionTold.mono (s := t) (fun _ _ hr => hr) (htold.step hmove)
  | other hv hstep _ ih =>
    obtain ⟨t, next, hmove, rfl⟩ := step_move hstep
    rw [own_append, hmove.own_of_ne hv.symm, List.nil_append]
    refine ih ?_
    rw [Server.goto_point, Function.update_of_ne hv.symm, hmove.point_eq]
    exact htold.mono fun _ _ hr => hmove.lookup hr

end Steps
end CsfAssignments.Chat
