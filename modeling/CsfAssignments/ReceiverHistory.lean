import CsfAssignments.WorkerHistory

/-!
# Histories of receivers

What the program point of a worker says about its events. A receiver asks for a room, enters it
once, and then writes `ok` and the messages of its queue to the connection.
-/

namespace CsfAssignments.Chat

/-- The sessions a login may lead to are those its tag asks for. -/
def Login.Tagged (tag : List Char) : Login → Prop
  | .reply _ next => next.Tagged tag
  | .throw => True
  | .sender _ => tag = tagSlogin
  | .receiver _ => tag = tagRlogin

theorem tagged_login (result : Result) (loginMes : Message) :
    (login result loginMes).Tagged loginMes.tag := by
  have hchoose : (chooseSession loginMes).Tagged loginMes.tag := by
    unfold chooseSession
    split_ifs with hslogin hrlogin
    · exact hslogin
    · exact hrlogin
    · trivial
  have hcheck : (checkLogin loginMes).Tagged loginMes.tag := by
    unfold checkLogin
    split_ifs <;> first | exact hchoose | trivial
  unfold login
  split_ifs
  · exact hcheck
  · exact hcheck

/-- The receiver has asked for a room. -/
def Asked (h : List Event) (name : List Char) : Prop :=
  ∃ loginMes joinMeg, requests h = [loginMes, joinMeg] ∧ loginMes.tag = tagRlogin ∧
    joinMeg.tag = tagJoin ∧ rightTrim joinMeg.data = name

/-- The receiver has asked for this room. -/
def Found (s : Server) (h : List Event) (r : RoomId) : Prop :=
  ∃ name, Asked h name ∧ s.rooms.lookup name = some r

/-- The worker is in no room. -/
def Quiet (h : List Event) : Prop := joins h = [] ∧ dequeues h = []

/-- The receiver has entered the room it asked for. -/
def Entered (s : Server) (h : List Event) (r : RoomId) : Prop := joins h = [r] ∧ Found s h r

/-- The events of a worker at a program point, as far as they matter for a receiver. -/
def ReceiverTold (s : Server) (h : List Event) : Point → Prop
  | .start | .login => Quiet h ∧ requests h = []
  | .handshake _ next => Quiet h ∧ ∃ loginMes, requests h = [loginMes] ∧ next.Tagged loginMes.tag
  | .receiverJoin => Quiet h ∧ ∃ loginMes, requests h = [loginMes] ∧ loginMes.tag = tagRlogin
  | .findAcquire .receiver name | .findBody .receiver name => Quiet h ∧ Asked h name
  | .findRelease .receiver r | .addAcquire r | .addInsert r => Quiet h ∧ Found s h r
  | .addRelease r | .joinReply r => Entered s h r ∧ written h = [] ∧ dequeues h = []
  | .dequeueWait r | .dequeueAcquire r | .dequeuePop r =>
      Entered s h r ∧ written h = ok :: dequeues h
  | .dequeueRelease r msg | .deliver r msg => Entered s h r ∧
      ∃ delivered, dequeues h = delivered ++ [msg] ∧ written h = ok :: delivered
  | .removeAcquire r | .removeErase r | .removeRelease r =>
      Entered s h r ∧ written h <+: ok :: dequeues h
  | .deleteUser | .ended => Quiet h ∨ ∃ r, Entered s h r ∧ written h <+: ok :: dequeues h
  | _ => Quiet h

theorem Quiet.append {h es : List Event} (hquiet : Quiet h) (hjoins : joins es = [])
    (hdequeues : dequeues es = []) : Quiet (h ++ es) := by
  obtain ⟨h₁, h₂⟩ := hquiet
  exact ⟨by simp [h₁, hjoins], by simp [h₂, hdequeues]⟩

/-- What the receiver asked for and found stays so. -/
theorem Found.mono {s t : Server} {h es : List Event} {r : RoomId} (hfound : Found s h r)
    (hlookup : ∀ name r, s.rooms.lookup name = some r → t.rooms.lookup name = some r)
    (hes : requests es = []) : Found t (h ++ es) r := by
  obtain ⟨name, ⟨loginMes, joinMeg, hrequests, hasked⟩, hname⟩ := hfound
  exact ⟨name, ⟨loginMes, joinMeg, by simp [hrequests, hes], hasked⟩, hlookup name r hname⟩

theorem Entered.mono {s t : Server} {h es : List Event} {r : RoomId} (hentered : Entered s h r)
    (hlookup : ∀ name r, s.rooms.lookup name = some r → t.rooms.lookup name = some r)
    (hes : requests es = []) (hjoins : joins es = []) : Entered t (h ++ es) r :=
  ⟨by simp [hentered.1, hjoins], hentered.2.mono hlookup hes⟩

theorem Entered.written_append {s : Server} {h : List Event} {r : RoomId}
    (hentered : Entered s h r) (es : List Event) : written (h ++ es) = written h ++ replies es :=
  Chat.written_append es (by simp [hentered.1])

section Step
variable {w : Worker} {s t : Server} {p next : Point} {es h : List Event}

/-- The histories of the other workers stay as they are. -/
theorem ReceiverTold.mono (htold : ReceiverTold s h p)
    (hlookup : ∀ name r, s.rooms.lookup name = some r → t.rooms.lookup name = some r) :
    ReceiverTold t h p := by
  have hfound (r : RoomId) (hr : Found s h r) : Found t h r := by
    have hr' : Found t (h ++ []) r := hr.mono hlookup rfl
    rwa [List.append_nil] at hr'
  have hentered (r : RoomId) (hr : Entered s h r) : Entered t h r := ⟨hr.1, hfound r hr.2⟩
  cases p with
  | findAcquire caller name | findBody caller name => cases caller <;> exact htold
  | findRelease caller r =>
    cases caller with
    | sender username => exact htold
    | receiver => exact ⟨htold.1, hfound r htold.2⟩
  | addAcquire r | addInsert r => exact ⟨htold.1, hfound r htold.2⟩
  | addRelease r | joinReply r | dequeueWait r | dequeueAcquire r | dequeuePop r
  | dequeueRelease r msg | deliver r msg | removeAcquire r | removeErase r | removeRelease r =>
    exact ⟨hentered r htold.1, htold.2⟩
  | deleteUser | ended =>
    exact htold.imp_right fun ⟨r, hr, hwritten⟩ => ⟨r, hentered r hr, hwritten⟩
  | _ => exact htold

theorem receiverTold_senderRequest {username : List Char} {current : Option RoomId}
    {result : Result} {msg : Message} (hquiet : Quiet h) :
    ReceiverTold s h (senderRequest username current result msg) := by
  unfold senderRequest
  cases current with
  | none =>
    dsimp only
    split_ifs <;> first | exact hquiet | exact .inl hquiet
  | some r =>
    dsimp only
    split_ifs <;> first | exact hquiet | exact .inl hquiet

theorem receiverTold_login {next : Login} {loginMes : Message} (hquiet : Quiet h)
    (hrequests : requests h = [loginMes]) (htagged : next.Tagged loginMes.tag) :
    ReceiverTold s h next.point := by
  cases next with
  | reply msg next => exact ⟨hquiet, loginMes, hrequests, htagged⟩
  | throw => exact .inl hquiet
  | sender username => exact hquiet
  | receiver username => exact ⟨hquiet, loginMes, hrequests, htagged⟩

/-- A move of a receiver keeps what its point says about its events. -/
theorem ReceiverTold.step (htold : ReceiverTold s h p) (hmove : Move w s (code w p) es t next) :
    ReceiverTold t (h ++ own w es) next := by
  have hlookup (name : List Char) (r : RoomId) (hr : s.rooms.lookup name = some r) :
      t.rooms.lookup name = some r := hmove.lookup hr
  cases p with
  | login =>
    rw [code] at hmove
    cases hmove with
    | @receive _ _ msg conn _ =>
      obtain ⟨hquiet, hrequests⟩ := htold
      rw [own_of_worker rfl]
      dsimp only
      split_ifs
      · exact .inl (hquiet.append rfl rfl)
      · exact receiverTold_login (hquiet.append rfl rfl) (by rw [requests_append, hrequests]; rfl)
          (tagged_login _ msg)
  | handshake msg login =>
    obtain ⟨hquiet, loginMes, hrequests, htagged⟩ := htold
    rw [code] at hmove
    cases hmove with
    | sent _ =>
      rw [own_of_worker rfl]
      exact receiverTold_login (hquiet.append rfl rfl) (by rw [requests_append, hrequests]; rfl)
        htagged
    | notSent _ => exact .inl (hquiet.append rfl rfl)
  | senderLoop username current =>
    rw [code] at hmove
    cases hmove
    rw [own_of_worker rfl]
    exact receiverTold_senderRequest (Quiet.append htold rfl rfl)
  | senderReply msg username current =>
    rw [code] at hmove
    cases hmove with
    | sent _ =>
      rw [own_of_worker rfl]
      exact Quiet.append htold rfl rfl
    | notSent _ => exact .inl (Quiet.append htold rfl rfl)
  | senderQuit | receiverRefuse msg =>
    rw [code] at hmove
    cases hmove with
    | sent _ =>
      rw [own_of_worker rfl]
      exact .inl (Quiet.append htold rfl rfl)
    | notSent _ => exact .inl (Quiet.append htold rfl rfl)
  | findAcquire caller name | findRelease caller r =>
    rw [code] at hmove
    cases hmove
    rw [own_nil, List.append_nil]
    cases caller <;> exact htold
  | findBody caller name =>
    rw [code] at hmove
    cases hmove with
    | findRoom hr =>
      rw [own_nil, List.append_nil]
      cases caller with
      | sender username => exact htold
      | receiver => exact ⟨htold.1, name, htold.2, hr⟩
    | createRoom hr =>
      rw [own_nil, List.append_nil]
      cases caller with
      | sender username => exact htold
      | receiver => exact ⟨htold.1, name, htold.2, by rw [lookup_createRoom, hr]; simp⟩
  | broadcastAcquire b =>
    rw [code] at hmove
    cases hmove
    rw [own_of_worker rfl]
    exact Quiet.append htold rfl rfl
  | broadcasting b visited =>
    rw [code] at hmove
    cases hmove <;> exact Quiet.append htold rfl rfl
  | receiverJoin =>
    obtain ⟨hquiet, loginMes, hrequests, htag⟩ := htold
    rw [code] at hmove
    cases hmove with
    | @receive _ _ msg conn _ =>
      rw [own_of_worker rfl]
      have hquiet' : Quiet (h ++ [.received w conn.lastResult msg]) := hquiet.append rfl rfl
      unfold receiverRequest
      split_ifs with hresult hformat
      · exact hquiet'
      · exact hquiet'
      · have hjoin : msg.tag = tagJoin := not_not.mp (not_or.mp hformat).1
        exact ⟨hquiet', loginMes, msg, by rw [requests_append, hrequests]; rfl, htag, hjoin, rfl⟩
  | addInsert r =>
    obtain ⟨hquiet, hfound⟩ := htold
    rw [code] at hmove
    cases hmove
    rw [own_of_worker rfl]
    refine ⟨⟨by simp [hquiet.1]; rfl, hfound.mono hlookup rfl⟩, ?_, by simp [hquiet.2]; rfl⟩
    rw [written_append_of_joins_nil _ hquiet.1]
    rfl
  | joinReply r =>
    obtain ⟨hentered, hwritten, hdequeues⟩ := htold
    rw [code] at hmove
    cases hmove with
    | sent _ =>
      rw [own_of_worker rfl]
      refine ⟨hentered.mono hlookup rfl rfl, ?_⟩
      rw [hentered.written_append, hwritten, dequeues_append, hdequeues]
      rfl
    | notSent _ =>
      refine ⟨hentered.mono hlookup rfl rfl, ?_⟩
      rw [hentered.written_append, hwritten]
      exact List.nil_prefix
  | dequeueWait r =>
    obtain ⟨hentered, hwritten⟩ := htold
    rw [code] at hmove
    cases hmove with
    | semWait _ => exact ⟨hentered.mono hlookup rfl rfl, by simpa using hwritten⟩
    | timeout =>
      dsimp only
      split_ifs
      · exact ⟨hentered.mono hlookup rfl rfl, by simp [hwritten]⟩
      · exact ⟨hentered.mono hlookup rfl rfl, by simpa using hwritten⟩
  | dequeuePop r =>
    obtain ⟨hentered, hwritten⟩ := htold
    rw [code] at hmove
    cases hmove
    rw [own_of_worker rfl]
    refine ⟨hentered.mono hlookup rfl rfl, dequeues h, by rw [dequeues_append]; rfl, ?_⟩
    rw [hentered.written_append, hwritten]
    exact List.append_nil _
  | deliver r msg =>
    obtain ⟨hentered, delivered, hdequeues, hwritten⟩ := htold
    rw [code] at hmove
    cases hmove with
    | sent _ =>
      rw [own_of_worker rfl]
      refine ⟨hentered.mono hlookup rfl rfl, ?_⟩
      rw [hentered.written_append, hwritten, dequeues_append, hdequeues]
      simp [replies, Event.reply, dequeues, Event.dequeue]
    | notSent _ =>
      refine ⟨hentered.mono hlookup rfl rfl, ?_⟩
      rw [hentered.written_append, hwritten, dequeues_append, hdequeues]
      simp [replies, dequeues]
  | removeErase r =>
    obtain ⟨hentered, hwritten⟩ := htold
    rw [code] at hmove
    cases hmove
    rw [own_of_worker rfl]
    refine ⟨hentered.mono hlookup rfl rfl, ?_⟩
    rw [hentered.written_append, dequeues_append]
    simpa [replies, Event.reply, dequeues, List.filterMap_cons, Event.dequeue] using hwritten
  | removeRelease r =>
    obtain ⟨hentered, hwritten⟩ := htold
    rw [code] at hmove
    cases hmove
    exact .inr ⟨r, hentered.mono hlookup rfl rfl, by simpa using hwritten⟩
  | ended =>
    rw [code] at hmove
    cases hmove
  | enqueueAcquire b visited u | enqueuePush b visited u | enqueuePost b visited u
  | enqueueRelease b visited u | broadcastRelease b =>
    rw [code] at hmove
    cases hmove
    exact Quiet.append htold rfl rfl
  | _ =>
    rw [code] at hmove
    cases hmove
    rw [own_nil, List.append_nil]
    exact htold

/-- What a receiver has entered it has asked for, and it has been sent a prefix of what it has
taken from its queue. -/
theorem ReceiverTold.entered (htold : ReceiverTold s h p) (hjoins : joins h ≠ []) :
    ∃ r, Entered s h r ∧ written h <+: ok :: dequeues h := by
  cases p with
  | addRelease r | joinReply r => exact ⟨r, htold.1, by rw [htold.2.1]; exact List.nil_prefix⟩
  | dequeueWait r | dequeueAcquire r | dequeuePop r =>
    exact ⟨r, htold.1, htold.2 ▸ List.prefix_rfl⟩
  | dequeueRelease r msg | deliver r msg =>
    obtain ⟨hentered, delivered, hdequeues, hwritten⟩ := htold
    exact ⟨r, hentered, by rw [hwritten, hdequeues]; exact List.prefix_append _ [msg]⟩
  | removeAcquire r | removeErase r | removeRelease r => exact ⟨r, htold⟩
  | deleteUser | ended => exact htold.resolve_left fun hquiet => hjoins hquiet.1
  | findAcquire caller name | findBody caller name | findRelease caller r =>
    cases caller <;> first | exact absurd htold.1 hjoins | exact absurd htold.1.1 hjoins
  | _ => first | exact absurd htold.1 hjoins | exact absurd htold.1.1 hjoins

/-- A user is in the room it has joined. -/
theorem ReceiverTold.joins_of_member {r : RoomId} (htold : ReceiverTold s h p)
    (hmember : (stage w p).member = some r) : joins h = [r] := by
  cases p <;> first | cases hmember; exact htold.1.1 | cases hmember

end Step

theorem Run.receiverTold {conn : Worker → Connection} {events : List Event} {s : Server}
    (hrun : Run conn events s) (w : Worker) : ReceiverTold s (own w events) (s.point w) :=
  hrun.told (fun _ => ⟨⟨rfl, rfl⟩, rfl⟩) (fun htold hlookup => htold.mono hlookup)
    (fun htold hmove => htold.step hmove) w

end CsfAssignments.Chat
