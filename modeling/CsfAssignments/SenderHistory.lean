import CsfAssignments.WorkerHistory
import Mathlib.Data.List.Forall2

/-!
# Histories of senders

The conversation of a worker with its client gives the room the client is in and the messages
it has sent there and that were answered `ok`. They are the broadcasts of the worker, in the
same order; only the broadcast of the last request may not be answered yet.
-/

namespace CsfAssignments.Chat

/-- The conversation as the client sees it: the room of the last `join` that was answered, a
request without an answer, and every `sendall` that was answered `ok`, with its room. -/
structure Session where
  loggedIn : Bool
  current : Option (List Char)
  request : Option Message
  answered : List (Option (List Char) × List Char)

namespace Session

/-- The effect of an `ok` on the request before it. -/
def acknowledge (σ : Session) : Session :=
  match σ.request with
  | none => σ
  | some msg =>
      if msg.tag = tagJoin then { σ with current := some (rightTrim msg.data) }
      else if msg.tag = tagLeave then { σ with current := none }
      else if msg.tag = tagSendall then
        { σ with answered := σ.answered ++ [(σ.current, rightTrim msg.data)] }
      else σ

/-- The first message is the login, and every other one a request. -/
def hear (σ : Session) (result : Result) (msg : Message) : Session :=
  if σ.loggedIn then { σ with request := if result = .success then some msg else none }
  else { σ with loggedIn := true }

def tell (σ : Session) (reply : Message) : Session :=
  { (if reply = ok then σ.acknowledge else σ) with request := none }

def next (σ : Session) : Event → Session
  | .received _ result msg => σ.hear result msg
  | .sent _ reply => σ.tell reply
  | _ => σ

end Session

/-- The session that the events of a worker make. -/
def session (h : List Event) : Session := h.foldl Session.next ⟨false, none, none, []⟩

def Event.broadcast : Event → Option Broadcast
  | .locked _ b _ => some b
  | _ => none

/-- The broadcasts that took the lock of their room. -/
def broadcasts (h : List Event) : List Broadcast := h.filterMap Event.broadcast

theorem session_append (h es : List Event) :
    session (h ++ es) = es.foldl Session.next (session h) :=
  List.foldl_append

@[simp] theorem broadcasts_append (h es : List Event) :
    broadcasts (h ++ es) = broadcasts h ++ broadcasts es :=
  List.filterMap_append ..

theorem mem_broadcasts {h : List Event} {w : Worker} {b : Broadcast} {msg : Message}
    (he : .locked w b msg ∈ h) : b ∈ broadcasts h :=
  List.mem_filterMap.mpr ⟨_, he, rfl⟩

/-- The broadcast is that of a `sendall` with this text in the room of this name. -/
def Server.Posts (s : Server) (b : Broadcast) (request : Option (List Char) × List Char) : Prop :=
  ∃ name, request.1 = some name ∧ s.rooms.lookup name = some b.room ∧ request.2 = b.text

/-- Every broadcast is that of one of the requests, in the same order. -/
def Server.Answers (s : Server) (h : List Event) (σ : Session) : Prop :=
  List.Forall₂ s.Posts (broadcasts h) σ.answered

/-- The last request asks to enter the room of this name. -/
def Session.Joins (σ : Session) (name : List Char) : Prop :=
  ∃ msg, σ.request = some msg ∧ msg.tag = tagJoin ∧ rightTrim msg.data = name

/-- The last request asks for this broadcast. -/
def Server.Requests (s : Server) (σ : Session) (b : Broadcast) : Prop :=
  ∃ msg, σ.request = some msg ∧ msg.tag = tagSendall ∧ s.Posts b (σ.current, rightTrim msg.data)

/-- Between two requests the worker knows the room of the client. -/
structure Server.Agrees (s : Server) (h : List Event) (σ : Session) (current : Option RoomId) :
    Prop where
  loggedIn : σ.loggedIn = true
  request : σ.request = none
  current : σ.current.map (fun name => s.rooms.lookup name) = current.map some
  answers : s.Answers h σ

theorem Server.Answers.append {s : Server} {h es : List Event} {σ : Session}
    (hanswers : s.Answers h σ) (hes : broadcasts es = []) : s.Answers (h ++ es) σ := by
  rwa [Server.Answers, broadcasts_append, hes, List.append_nil]

theorem Server.Agrees.append {s : Server} {h es : List Event} {σ : Session}
    {current : Option RoomId} (hagrees : s.Agrees h σ current) (hes : broadcasts es = []) :
    s.Agrees (h ++ es) σ current :=
  { hagrees with answers := hagrees.answers.append hes }

/-- A worker that broadcasts nothing and has no request for it. -/
structure Silent (h : List Event) : Prop where
  loggedIn : (session h).loggedIn = true
  broadcasts : broadcasts h = []
  answered : (session h).answered = []
  acknowledged : (session h).acknowledge.answered = []

/-- The events of a worker at a program point, as far as they matter for a sender. -/
def SenderTold (s : Server) (h : List Event) : Point → Prop
  | .start | .login => session h = ⟨false, none, none, []⟩ ∧ broadcasts h = []
  | .handshake _ _ => session h = ⟨true, none, none, []⟩ ∧ broadcasts h = []
  | .senderLoop _ current => s.Agrees h (session h) current
  | .senderReply msg _ current => s.Agrees h ((session h).tell msg) current
  | .senderQuit => s.Answers h ((session h).tell ok)
  | .findAcquire (.sender _) name | .findBody (.sender _) name =>
      (session h).loggedIn = true ∧ (session h).Joins name ∧ s.Answers h (session h)
  | .findRelease (.sender _) r => s.Agrees h ((session h).tell ok) (some r)
  | .broadcastAcquire b =>
      (session h).loggedIn = true ∧ s.Requests (session h) b ∧ s.Answers h (session h)
  | .broadcasting b _ | .enqueueAcquire b _ _ | .enqueuePush b _ _ | .enqueuePost b _ _
  | .enqueueRelease b _ _ | .broadcastRelease b => s.Agrees h ((session h).tell ok) (some b.room)
  | .receiverRefuse msg => broadcasts h = [] ∧ (session h).answered = [] ∧ msg ≠ ok
  | .deleteUser | .ended => s.Answers h (session h) ∨ s.Answers h (session h).acknowledge
  | _ => Silent h

theorem acknowledge_of_request {σ : Session} {msg : Message} (hrequest : σ.request = some msg) :
    σ.acknowledge =
      if msg.tag = tagJoin then { σ with current := some (rightTrim msg.data) }
      else if msg.tag = tagLeave then { σ with current := none }
      else if msg.tag = tagSendall then
        { σ with answered := σ.answered ++ [(σ.current, rightTrim msg.data)] }
      else σ := by
  unfold Session.acknowledge
  split
  · next hnone =>
    rw [hrequest] at hnone
    cases hnone
  · next m hsome =>
    rw [hrequest] at hsome
    cases hsome
    rfl

theorem err_ne_ok (text : String) : err text ≠ ok := by
  intro h
  have htag : tagErr = tagOk := congrArg Message.tag h
  exact absurd htag (by decide)

theorem tell_ok (σ : Session) : σ.tell ok = { σ.acknowledge with request := none } := by
  rw [Session.tell, if_pos rfl]

theorem tell_err (σ : Session) (text : String) :
    σ.tell (err text) = { σ with request := none } := by
  rw [Session.tell, if_neg (err_ne_ok text)]

@[simp] theorem loggedIn_acknowledge (σ : Session) : σ.acknowledge.loggedIn = σ.loggedIn := by
  unfold Session.acknowledge
  cases σ.request with
  | none => rfl
  | some msg =>
    dsimp only
    split_ifs <;> rfl

theorem answers_acknowledge {s : Server} {h : List Event} {σ : Session} {msg : Message}
    (hanswers : s.Answers h (σ.tell msg)) : s.Answers h σ ∨ s.Answers h σ.acknowledge := by
  by_cases hok : msg = ok
  · rw [hok, tell_ok] at hanswers
    exact .inr hanswers
  · rw [Session.tell, if_neg hok] at hanswers
    exact .inl hanswers

/-- Whatever a silent worker is told, it stays silent. -/
theorem Silent.tell {h : List Event} {w : Worker} (hsilent : Silent h) (msg : Message) :
    Silent (h ++ [.sent w msg]) := by
  have hsession : session (h ++ [.sent w msg]) = (session h).tell msg := session_append h _
  have hanswered : ((session h).tell msg).answered = [] := by
    unfold Session.tell
    split_ifs
    · exact hsilent.acknowledged
    · exact hsilent.answered
  refine ⟨?_, by simp [hsilent.broadcasts]; rfl, by rw [hsession, hanswered], ?_⟩
  · rw [hsession]
    unfold Session.tell
    split_ifs
    · rw [loggedIn_acknowledge, hsilent.loggedIn]
    · exact hsilent.loggedIn
  · rw [hsession]
    exact hanswered

theorem Silent.append {h es : List Event} (hsilent : Silent h)
    (hsession : es.foldl Session.next (session h) = session h) (hes : Chat.broadcasts es = []) :
    Silent (h ++ es) := by
  have hsame : session (h ++ es) = session h := (session_append h es).trans hsession
  exact ⟨by rw [hsame, hsilent.loggedIn], by rw [broadcasts_append, hsilent.broadcasts, hes]; rfl,
    by rw [hsame, hsilent.answered], by rw [hsame, hsilent.acknowledged]⟩

theorem Silent.told {s : Server} {h : List Event} (hsilent : Silent h) :
    s.Answers h (session h) := by
  rw [Server.Answers, hsilent.broadcasts, hsilent.answered]
  exact .nil

/-- A request to enter a room, answered `ok`. -/
theorem Session.Joins.agrees {s : Server} {h : List Event} {σ : Session} {name : List Char}
    {r : RoomId} (hjoins : σ.Joins name) (hlogged : σ.loggedIn = true) (hanswers : s.Answers h σ)
    (hr : s.rooms.lookup name = some r) : s.Agrees h (σ.tell ok) (some r) := by
  obtain ⟨msg, hrequest, htag, rfl⟩ := hjoins
  rw [tell_ok, acknowledge_of_request hrequest, if_pos htag]
  exact ⟨hlogged, rfl, by simp [hr], hanswers⟩

/-- A request for a broadcast, answered `ok` behind it. -/
theorem Server.Requests.agrees {s : Server} {h : List Event} {σ : Session} {b : Broadcast}
    {msg : Message} {w : Worker} (hrequests : s.Requests σ b) (hlogged : σ.loggedIn = true)
    (hanswers : s.Answers h σ) :
    s.Agrees (h ++ [.locked w b msg]) (σ.tell ok) (some b.room) := by
  obtain ⟨request, hrequest, htag, hposts⟩ := hrequests
  rw [tell_ok, acknowledge_of_request hrequest, if_neg (by rw [htag]; decide),
    if_neg (by rw [htag]; decide), if_pos htag]
  refine ⟨hlogged, rfl, ?_, ?_⟩
  · obtain ⟨name, hname, hr, -⟩ := hposts
    have hname : σ.current = some name := hname
    simp [hname, hr]
  · rw [Server.Answers, broadcasts_append]
    exact List.rel_append hanswers (.cons hposts .nil)

section Mono
variable {s t : Server} {h : List Event}
  (hlookup : ∀ name r, s.rooms.lookup name = some r → t.rooms.lookup name = some r)

include hlookup

theorem Server.Posts.mono {b : Broadcast} {request : Option (List Char) × List Char}
    (hposts : s.Posts b request) : t.Posts b request := by
  obtain ⟨name, hname, hr, htext⟩ := hposts
  exact ⟨name, hname, hlookup name _ hr, htext⟩

theorem Server.Answers.mono {σ : Session} (hanswers : s.Answers h σ) : t.Answers h σ :=
  List.Forall₂.imp (fun _ _ hposts => hposts.mono hlookup) hanswers

theorem Server.Agrees.mono {σ : Session} {current : Option RoomId}
    (hagrees : s.Agrees h σ current) : t.Agrees h σ current := by
  refine ⟨hagrees.loggedIn, hagrees.request, ?_, hagrees.answers.mono hlookup⟩
  have hcurrent := hagrees.current
  cases hname : σ.current with
  | none => simpa [hname] using hcurrent
  | some name =>
    cases hroom : current with
    | none => simp [hname, hroom] at hcurrent
    | some r =>
      have hr : s.rooms.lookup name = some r := by simpa [hname, hroom] using hcurrent
      simp [hlookup name r hr]

/-- The histories of the other workers stay as they are. -/
theorem SenderTold.mono {p : Point} (htold : SenderTold s h p) : SenderTold t h p := by
  cases p with
  | senderLoop username current | senderReply msg username current =>
    exact Server.Agrees.mono hlookup htold
  | senderQuit => exact Server.Answers.mono hlookup htold
  | findAcquire caller name | findBody caller name =>
    cases caller with
    | sender username => exact ⟨htold.1, htold.2.1, htold.2.2.mono hlookup⟩
    | receiver => exact htold
  | findRelease caller r =>
    cases caller with
    | sender username => exact Server.Agrees.mono hlookup htold
    | receiver => exact htold
  | broadcastAcquire b =>
    obtain ⟨hlogged, ⟨msg, hrequest, htag, hposts⟩, hanswers⟩ := htold
    exact ⟨hlogged, ⟨msg, hrequest, htag, hposts.mono hlookup⟩, hanswers.mono hlookup⟩
  | broadcasting b visited | enqueueAcquire b visited u | enqueuePush b visited u
  | enqueuePost b visited u | enqueueRelease b visited u | broadcastRelease b =>
    exact Server.Agrees.mono hlookup htold
  | deleteUser | ended =>
    exact htold.imp (Server.Answers.mono hlookup) (Server.Answers.mono hlookup)
  | _ => exact htold

end Mono

section Step
variable {w : Worker} {s t : Server} {p next : Point} {es h : List Event}

/-- What a request makes of the session between two requests. -/
theorem senderTold_senderRequest {σ : Session} {username : List Char} {current : Option RoomId}
    {result : Result} {msg : Message} (hagrees : s.Agrees h σ current)
    (hsession : session h = σ.hear result msg) :
    SenderTold s h (senderRequest username current result msg) := by
  have hheard : session h = { σ with request := if result = .success then some msg else none } := by
    rw [hsession, Session.hear, if_pos hagrees.loggedIn]
  have hlogged : (session h).loggedIn = true := by rw [hheard]; exact hagrees.loggedIn
  have hanswers : s.Answers h (session h) := by rw [hheard]; exact hagrees.answers
  have hrefused (text : String) : SenderTold s h (.senderReply (err text) username current) := by
    have htell : (session h).tell (err text) = { σ with request := none } := by
      rw [tell_err, hheard]
    show s.Agrees h ((session h).tell (err text)) current
    rw [htell]
    exact ⟨hagrees.loggedIn, rfl, hagrees.current, hagrees.answers⟩
  unfold senderRequest
  by_cases heof : result = .eofOrError
  · rw [if_pos heof]
    exact .inl hanswers
  rw [if_neg heof]
  by_cases hinvalid : result = .invalidMsg
  · rw [if_pos hinvalid]
    exact hrefused _
  rw [if_neg hinvalid]
  have hrequest : (session h).request = some msg := by
    rw [hheard, Result.eq_success heof hinvalid]
    rfl
  by_cases hjoin : msg.tag = tagJoin
  · rw [if_pos hjoin]
    split_ifs
    · exact ⟨hlogged, ⟨msg, hrequest, hjoin, rfl⟩, hanswers⟩
    · exact hrefused _
  rw [if_neg hjoin]
  by_cases hleave : msg.tag = tagLeave
  · rw [if_pos hleave]
    split_ifs
    · exact hrefused _
    · show s.Agrees h ((session h).tell ok) none
      rw [tell_ok, acknowledge_of_request hrequest, if_neg hjoin, if_pos hleave]
      exact ⟨hlogged, rfl, rfl, hanswers⟩
  rw [if_neg hleave]
  by_cases hsendall : msg.tag = tagSendall
  · rw [if_pos hsendall]
    cases current with
    | none => exact hrefused _
    | some r =>
      dsimp only
      split_ifs
      · obtain ⟨name, hname, hr⟩ :
            ∃ name, σ.current = some name ∧ s.rooms.lookup name = some r := by
          simpa using hagrees.current
        exact ⟨hlogged, ⟨msg, hrequest, hsendall, name, by rw [hheard]; exact hname, hr, rfl⟩,
          hanswers⟩
      · exact hrefused _
  rw [if_neg hsendall]
  by_cases hquit : msg.tag = tagQuit
  · rw [if_pos hquit]
    show s.Answers h ((session h).tell ok)
    rw [tell_ok, acknowledge_of_request hrequest, if_neg hjoin, if_neg hleave, if_neg hsendall]
    exact hanswers
  · rw [if_neg hquit]
    exact hrefused _

/-- The session of a client that has logged in and asked for nothing. -/
def Fresh (h : List Event) : Prop := session h = ⟨true, none, none, []⟩ ∧ broadcasts h = []

theorem Fresh.answers (hfresh : Fresh h) : s.Answers h (session h) := by
  rw [Server.Answers, hfresh.2, hfresh.1]
  exact .nil

theorem Fresh.told {next : Login} (hfresh : Fresh h) : SenderTold s h next.point := by
  have hanswers : s.Answers h (session h) := hfresh.answers
  obtain ⟨hsession, hbroadcasts⟩ := hfresh
  cases next with
  | reply msg next => exact ⟨hsession, hbroadcasts⟩
  | throw => exact .inl hanswers
  | sender username =>
    exact ⟨by rw [hsession], by rw [hsession], by rw [hsession]; rfl, hanswers⟩
  | receiver username =>
    exact ⟨by rw [hsession], hbroadcasts, by rw [hsession], by rw [hsession]; rfl⟩

/-- A receiver that hears its request for a room is silent. -/
theorem senderTold_receiverRequest {result : Result} {msg : Message} (hsilent : Silent h) :
    SenderTold s (h ++ [.received w result msg]) (receiverRequest result msg) := by
  have hheard : session (h ++ [.received w result msg]) =
      { session h with request := if result = .success then some msg else none } := by
    rw [session_append, List.foldl_cons, List.foldl_nil, Session.next, Session.hear,
      if_pos hsilent.loggedIn]
  have hbroadcasts : broadcasts (h ++ [.received w result msg]) = [] := by
    rw [broadcasts_append, hsilent.broadcasts]
    rfl
  have hanswered : (session (h ++ [.received w result msg])).answered = [] := by
    rw [hheard]
    exact hsilent.answered
  have hrefused (text : String) :
      SenderTold s (h ++ [.received w result msg]) (.receiverRefuse (err text)) :=
    ⟨hbroadcasts, hanswered, err_ne_ok text⟩
  unfold receiverRequest
  split_ifs with hresult hformat
  · exact hrefused _
  · exact hrefused _
  · have hjoin : msg.tag = tagJoin := not_not.mp (not_or.mp hformat).1
    have hrequest : (session (h ++ [.received w result msg])).request = some msg := by
      rw [hheard]
      exact if_pos (not_not.mp hresult)
    refine ⟨?_, hbroadcasts, hanswered, ?_⟩
    · rw [hheard]
      exact hsilent.loggedIn
    · rw [acknowledge_of_request hrequest, if_pos hjoin]
      exact hanswered

/-- The room that is found or created is that of the request. -/
private theorem findBody_step {caller : Caller} {name : List Char}
    (htold : SenderTold s h (.findBody caller name))
    (hmove : Move w s (code w (.findBody caller name)) es t next) :
    SenderTold t (h ++ own w es) next := by
  rw [code] at hmove
  cases caller with
  | sender username =>
    obtain ⟨hlogged, hjoins, hanswers⟩ := htold
    have hanswers : t.Answers h (session h) := hanswers.mono fun _ _ hr => hmove.lookup hr
    cases hmove with
    | findRoom hr =>
      rw [own_nil, List.append_nil]
      exact hjoins.agrees hlogged hanswers hr
    | createRoom hr =>
      rw [own_nil, List.append_nil]
      exact hjoins.agrees hlogged hanswers (by rw [lookup_createRoom, hr]; simp)
  | receiver =>
    cases hmove <;> (rw [own_nil, List.append_nil]; exact htold)

private theorem move_step (hp : ∀ caller name, p ≠ .findBody caller name)
    (htold : SenderTold s h p) (hmove : Move w s (code w p) es t next) :
    SenderTold s (h ++ own w es) next := by
  cases p with
  | login =>
    obtain ⟨hsession, hbroadcasts⟩ := htold
    rw [code] at hmove
    cases hmove with
    | @receive _ _ msg conn _ =>
      rw [own_of_worker rfl]
      have hfresh : Fresh (h ++ [.received w conn.lastResult msg]) :=
        ⟨by rw [session_append, hsession]; rfl, by rw [broadcasts_append, hbroadcasts]; rfl⟩
      dsimp only
      split_ifs
      · exact .inl hfresh.answers
      · exact hfresh.told
  | handshake msg login =>
    have hfresh : Fresh h := htold
    rw [code] at hmove
    cases hmove with
    | sent _ =>
      rw [own_of_worker rfl]
      refine Fresh.told ⟨?_, by rw [broadcasts_append, hfresh.2]; rfl⟩
      rw [session_append, hfresh.1, List.foldl_cons, List.foldl_nil, Session.next, Session.tell]
      exact ite_self _ ▸ rfl
    | notSent _ =>
      rw [own_nil, List.append_nil]
      exact .inl hfresh.answers
  | senderLoop username current =>
    rw [code] at hmove
    cases hmove
    rw [own_of_worker rfl]
    exact senderTold_senderRequest (Server.Agrees.append htold rfl) (session_append h _)
  | senderReply msg username current =>
    rw [code] at hmove
    cases hmove with
    | sent _ =>
      rw [own_of_worker rfl]
      show s.Agrees _ (session _) current
      rw [session_append]
      exact Server.Agrees.append htold rfl
    | notSent _ =>
      rw [own_nil, List.append_nil]
      exact answers_acknowledge htold.answers
  | senderQuit =>
    rw [code] at hmove
    cases hmove with
    | sent _ =>
      rw [own_of_worker rfl]
      refine .inl ?_
      rw [session_append]
      exact Server.Answers.append htold rfl
    | notSent _ =>
      rw [own_nil, List.append_nil]
      exact answers_acknowledge htold
  | findAcquire caller name | findRelease caller r =>
    rw [code] at hmove
    cases hmove
    rw [own_nil, List.append_nil]
    cases caller <;> exact htold
  | findBody caller name => exact absurd rfl (hp caller name)
  | broadcastAcquire b =>
    obtain ⟨hlogged, hrequests, hanswers⟩ := htold
    rw [code] at hmove
    cases hmove
    rw [own_of_worker rfl]
    show s.Agrees _ (Session.tell (session _) ok) _
    rw [session_append]
    exact hrequests.agrees hlogged hanswers
  | broadcasting b visited =>
    rw [code] at hmove
    cases hmove <;> (rw [own_nil, List.append_nil]; exact htold)
  | enqueuePush b visited u =>
    rw [code] at hmove
    cases hmove
    exact (List.append_nil h).symm ▸ htold
  | receiverJoin =>
    rw [code] at hmove
    cases hmove
    rw [own_of_worker rfl]
    exact senderTold_receiverRequest htold
  | receiverRefuse msg =>
    obtain ⟨hbroadcasts, hanswered, hmsg⟩ := htold
    have hanswers : s.Answers h (session h) := by
      rw [Server.Answers, hbroadcasts, hanswered]
      exact .nil
    rw [code] at hmove
    cases hmove with
    | sent _ =>
      rw [own_of_worker rfl]
      refine .inl ?_
      rw [session_append, List.foldl_cons, List.foldl_nil, Session.next, Session.tell, if_neg hmsg]
      exact hanswers.append rfl
    | notSent _ =>
      rw [own_nil, List.append_nil]
      exact .inl hanswers
  | joinReply r =>
    rw [code] at hmove
    cases hmove with
    | sent _ =>
      rw [own_of_worker rfl]
      exact Silent.tell htold ok
    | notSent _ =>
      rw [own_nil, List.append_nil]
      exact htold
  | deliver r msg =>
    rw [code] at hmove
    cases hmove with
    | sent _ =>
      rw [own_of_worker rfl]
      exact Silent.tell htold msg
    | notSent _ =>
      rw [own_nil, List.append_nil]
      exact htold
  | addInsert r | dequeuePop r | removeErase r =>
    rw [code] at hmove
    cases hmove
    rw [own_of_worker rfl]
    exact Silent.append htold rfl rfl
  | dequeueWait r =>
    rw [code] at hmove
    cases hmove with
    | semWait _ =>
      rw [own_nil, List.append_nil]
      exact htold
    | timeout =>
      rw [own_nil, List.append_nil]
      dsimp only
      split_ifs <;> exact htold
  | removeRelease r =>
    rw [code] at hmove
    cases hmove
    rw [own_nil, List.append_nil]
    exact .inl (Silent.told htold)
  | ended =>
    rw [code] at hmove
    cases hmove
  | _ =>
    rw [code] at hmove
    cases hmove
    rw [own_nil, List.append_nil]
    exact htold

/-- A move of a sender keeps what its point says about its events. -/
theorem SenderTold.step (htold : SenderTold s h p) (hmove : Move w s (code w p) es t next) :
    SenderTold t (h ++ own w es) next := by
  by_cases hp : ∀ caller name, p ≠ .findBody caller name
  · exact (move_step hp htold hmove).mono fun _ _ hr => hmove.lookup hr
  · push Not at hp
    obtain ⟨caller, name, rfl⟩ := hp
    exact findBody_step htold hmove

/-- At every point the broadcasts are those of the answered requests, except perhaps the last. -/
theorem SenderTold.answers (htold : SenderTold s h p) :
    s.Answers h (session h) ∨ s.Answers h (session h).acknowledge := by
  have hempty (hbroadcasts : broadcasts h = []) (hanswered : (session h).answered = []) :
      s.Answers h (session h) := by
    rw [Server.Answers, hbroadcasts, hanswered]
    exact .nil
  cases p with
  | start | login | handshake msg next => exact .inl (hempty htold.2 (by rw [htold.1]))
  | senderLoop username current => exact .inl htold.answers
  | senderReply msg username current => exact answers_acknowledge htold.answers
  | senderQuit => exact answers_acknowledge htold
  | findAcquire caller name | findBody caller name =>
    cases caller with
    | sender username => exact .inl htold.2.2
    | receiver => exact .inl (Silent.told htold)
  | findRelease caller r =>
    cases caller with
    | sender username => exact answers_acknowledge htold.answers
    | receiver => exact .inl (Silent.told htold)
  | broadcastAcquire b => exact .inl htold.2.2
  | broadcasting b visited | enqueueAcquire b visited u | enqueuePush b visited u
  | enqueuePost b visited u | enqueueRelease b visited u | broadcastRelease b =>
    exact answers_acknowledge htold.answers
  | receiverRefuse msg => exact .inl (hempty htold.1 htold.2.1)
  | deleteUser | ended => exact htold
  | _ => exact .inl (Silent.told htold)

end Step

theorem Run.senderTold {conn : Worker → Connection} {events : List Event} {s : Server}
    (hrun : Run conn events s) (w : Worker) : SenderTold s (own w events) (s.point w) :=
  hrun.told (fun _ => ⟨rfl, rfl⟩) (fun htold hlookup => htold.mono hlookup)
    (fun htold hmove => htold.step hmove) w

end CsfAssignments.Chat
