import CsfAssignments.BroadcastAuthors
import CsfAssignments.RoomDelivery

/-!
# Names of sessions

The server checks the length of the payload of a login line and the characters of the trimmed
payload. A payload of several characters that are all trimmed off passes both, and its session has
the empty name. Every other session has a name of letters and digits, which is the sender field of
its broadcasts.
-/

namespace CsfAssignments.Chat
open RobustIO TopicFeeds

/-- The name of a valid user. -/
def ValidName (username : List Char) : Prop := username ≠ [] ∧ ∀ c ∈ username, c.isAlphanum

/-- A login line of which nothing is left when it is trimmed, although it is long enough. -/
structure BlankLogin (loginMes : Message) : Prop where
  session : loginMes.tag = tagSlogin ∨ loginMes.tag = tagRlogin
  line : hasNewline loginMes.data
  longer : 1 < loginMes.data.length
  blank : ∀ c ∈ loginMes.data, c ∈ trimmed

section Login

theorem isAlphanum_of_mem : ∀ c ∈ alphabet, c.isAlphanum = true :=
  List.all_eq_true.mp (show alphabet.all Char.isAlphanum = true by decide)

theorem rightTrim_eq_nil_iff {s : List Char} : rightTrim s = [] ↔ ∀ c ∈ s, c ∈ trimmed := by
  simp [rightTrim]

/-- The sessions that a login may lead to. -/
theorem username_login_iff {result : Result} {loginMes : Message} {username : List Char} :
    (login result loginMes).username = some username ↔
      (loginMes.tag = tagSlogin ∨ loginMes.tag = tagRlogin) ∧ hasNewline loginMes.data ∧
        1 < loginMes.data.length ∧ findFirstNotOf (rightTrim loginMes.data) alphabet = npos ∧
        rightTrim loginMes.data = username := by
  have hchoose : (chooseSession loginMes).username = some username ↔
      (loginMes.tag = tagSlogin ∨ loginMes.tag = tagRlogin) ∧
        rightTrim loginMes.data = username := by
    unfold chooseSession
    split_ifs with hslogin hrlogin <;> simp [Login.username, *]
  have hcheck : (checkLogin loginMes).username = some username ↔
      (loginMes.tag = tagSlogin ∨ loginMes.tag = tagRlogin) ∧ hasNewline loginMes.data ∧
        1 < loginMes.data.length ∧ findFirstNotOf (rightTrim loginMes.data) alphabet = npos ∧
        rightTrim loginMes.data = username := by
    unfold checkLogin
    split_ifs with hnewline hname
    · refine iff_of_false (by simp [Login.username]) ?_
      rintro ⟨-, -, hlen, hall, -⟩
      rcases hname with hname | hname
      · omega
      · exact hname hall
    · rw [not_or, not_not] at hname
      rw [Login.username, hchoose]
      exact ⟨fun h => ⟨h.1, hnewline, not_le.mp hname.1, hname.2, h.2⟩,
        fun h => ⟨h.1, h.2.2.2.2⟩⟩
    · simp [Login.username, hnewline]
  unfold login
  split_ifs
  · rw [Login.username, hcheck]
  · exact hcheck

/-- The name of a session is valid exactly if the login line is not blank. -/
theorem validName_iff {result : Result} {loginMes : Message}
    (hdata : loginMes.data.length < maxLen) :
    (∀ username, (login result loginMes).username = some username → ValidName username) ↔
      ¬BlankLogin loginMes := by
  constructor
  · intro hvalid hblank
    have hempty : rightTrim loginMes.data = [] := rightTrim_eq_nil_iff.mpr hblank.blank
    have hname : (login result loginMes).username = some [] :=
      username_login_iff.mpr ⟨hblank.session, hblank.line, hblank.longer, by rw [hempty]; rfl, hempty⟩
    exact (hvalid [] hname).1 rfl
  · intro hblank username hname
    obtain ⟨hsession, hline, hlonger, -, htrim⟩ := username_login_iff.mp hname
    refine ⟨?_, fun c hc => isAlphanum_of_mem c ((username_login hdata hname).2 c hc)⟩
    rintro rfl
    exact hblank ⟨hsession, hline, hlonger, rightTrim_eq_nil_iff.mp htrim⟩

/-- A valid name has neither a colon nor a space of any kind. -/
theorem ValidName.plain {username : List Char} (h : ValidName username) :
    ∀ c ∈ username, c ≠ ':' ∧ c ∉ ' ' :: trimmed := by
  intro c hc
  have hchar := h.2 c hc
  refine ⟨?_, fun hspace => ?_⟩
  · rintro rfl
    exact absurd hchar (by decide)
  · have hnone : (' ' :: trimmed).all fun c => !c.isAlphanum := by decide
    simpa [hchar] using List.all_eq_true.mp hnone c hspace

end Login

section Introduced
variable {h es : List Event}

/-- The first line of a worker leads to a session of this name. -/
def Introduces (h : List Event) (username : List Char) : Prop :=
  ∃ result loginMes, (requests h).head? = some loginMes ∧ LineText loginMes.data ∧
    (login result loginMes).username = some username

theorem Introduces.append {username : List Char} (hname : Introduces h username)
    (es : List Event) : Introduces (h ++ es) username := by
  obtain ⟨result, loginMes, hfirst, hline, hlogin⟩ := hname
  refine ⟨result, loginMes, ?_, hline, hlogin⟩
  rw [requests_append, List.head?_append, hfirst, Option.some_or]

/-- The name of a session and of its broadcasts is that of the login. -/
structure Introduced (h : List Event) (p : Point) : Prop where
  session : ∀ username, p.username = some username → Introduces h username
  authored : ∀ b ∈ broadcasts h, Introduces h b.username

theorem Introduced.step {w : Worker} {s t : Server} {p next : Point}
    (hintroduced : Introduced h p) (hunheard : p = .login → requests h = [])
    (hmove : Move w s (code w p) es t next) : Introduced (h ++ own w es) next := by
  refine ⟨fun username hnext => ?_, fun b hb => ?_⟩
  · rcases hmove.username hnext with hbefore | rfl
    · exact (hintroduced.session username hbefore).append _
    · rw [code] at hmove
      cases hmove with
      | @receive _ _ msg conn hreceive =>
        dsimp only at hnext
        split_ifs at hnext
        · cases hnext
        · refine ⟨_, msg, ?_, Connection.receive_lineText hreceive, username_point hnext⟩
          rw [own_of_worker rfl, requests_append, hunheard rfl]
          rfl
  · rw [broadcasts_append, List.mem_append] at hb
    rcases hb with hb | hb
    · exact (hintroduced.authored b hb).append _
    · have hname := username_of_call (hmove.call_of_broadcasts hb)
      exact (hintroduced.session _ hname).append _

end Introduced

section Run
variable {conn : Worker → Connection} {events : List Event} {s : Server}

theorem Run.introduced (hrun : Run conn events s) (w : Worker) :
    Introduced (own w events) (s.point w) := by
  have htold : ReceiverTold s (own w events) (s.point w) ∧ Introduced (own w events) (s.point w) :=
    hrun.told (P := fun s h p => ReceiverTold s h p ∧ Introduced h p)
      (fun _ => ⟨⟨⟨rfl, rfl⟩, rfl⟩, by simp [Point.username], by simp [broadcasts]⟩)
      (fun htold hlookup => ⟨htold.1.mono hlookup, htold.2⟩)
      (fun htold hmove => ⟨htold.1.step hmove, htold.2.step (fun hp => (hp ▸ htold.1).2) hmove⟩) w
  exact htold.2

/-- What enters a queue is the delivery of a broadcast. -/
theorem Run.locked_of_enqueued (hrun : Run conn events s) {u : Worker} {msg : Message}
    (hmsg : .enqueued u msg ∈ events) : ∃ w b, .locked w b msg ∈ events := by
  have hfeed : msg ∈ (feed u (notices events)).messages := by
    rw [← (hrun.fed u).messages]
    exact List.mem_append_left _ (mem_enqueued.mpr hmsg)
  obtain ⟨r, hpublish⟩ := exists_publish_of_mem_feed hfeed
  obtain ⟨e, he, hnotice⟩ := List.mem_filterMap.mp hpublish
  cases e with
  | locked w b msg' =>
    cases hnotice
    exact ⟨w, b, he⟩
  | _ => cases hnotice

/-- Queues give back what has entered them. -/
theorem Run.enqueued_of_dequeued (hrun : Run conn events s) {u : Worker} {msg : Message}
    (hmsg : .dequeued u msg ∈ events) : .enqueued u msg ∈ events := by
  have hown : .dequeued u msg ∈ own u events := mem_own hmsg rfl
  have hqueued : dequeues (own u events) ++ (s.user u).mqueue.messages = enqueued u events :=
    hrun.queued u
  rw [← mem_enqueued, ← hqueued]
  exact List.mem_append_left _ (List.mem_filterMap.mpr ⟨_, hown, rfl⟩)

theorem Introduces.validName {h : List Event} {username : List Char}
    (hname : Introduces h username)
    (hfirst : ∀ loginMes ∈ (requests h).head?, ¬BlankLogin loginMes) : ValidName username := by
  obtain ⟨result, loginMes, hhead, hline, hlogin⟩ := hname
  exact (validName_iff hline.length_lt).mpr (hfirst loginMes hhead) username hlogin

end Run

/-- In every run the first line of a worker leads to a session of a valid name, if to any, exactly
if it is not blank. If no first line is blank, every session has a valid name, and so has the sender
field of every delivery. -/
theorem valid_users_iff {conn : Worker → Connection} {events : List Event} {s : Server}
    (hrun : Run conn events s) :
    (∀ w result loginMes, (requests (own w events)).head? = some loginMes →
      ((∀ username, (login result loginMes).username = some username → ValidName username) ↔
        ¬BlankLogin loginMes)) ∧
    ((∀ w, ∀ loginMes ∈ (requests (own w events)).head?, ¬BlankLogin loginMes) →
      (∀ w username, (s.point w).username = some username → ValidName username) ∧
      (∀ w b msg, .locked w b msg ∈ events → msg = s.delivery b ∧ ValidName b.username ∧
        ∀ c ∈ b.username, c ≠ ':' ∧ c ∉ ' ' :: trimmed) ∧
      ∀ u msg, .enqueued u msg ∈ events ∨ .dequeued u msg ∈ events →
        ∃ w b, .locked w b msg ∈ events) := by
  refine ⟨fun w result loginMes hhead => ?_, fun hfirst =>
    ⟨fun w username hname => ?_, fun w b msg hlocked => ?_, fun u msg hmsg => ?_⟩⟩
  · have hline : LineText loginMes.data :=
      (hrun.spoken w).lines loginMes (List.mem_of_mem_head? hhead)
    exact validName_iff hline.length_lt
  · exact ((hrun.introduced w).session username hname).validName (hfirst w)
  · have hown : .locked w b msg ∈ own w events := mem_own hlocked rfl
    have hbroadcast := (hrun.introduced w).authored b (mem_broadcasts hown)
    have hvalid : ValidName b.username := hbroadcast.validName (hfirst w)
    exact ⟨hrun.locked hlocked, hvalid, hvalid.plain⟩
  · rcases hmsg with hmsg | hmsg
    · exact hrun.locked_of_enqueued hmsg
    · exact hrun.locked_of_enqueued (hrun.enqueued_of_dequeued hmsg)

/-- A receiver and a sender in one room, whose first lines are not blank. -/
theorem valid_users_lobby :
    ∃ events s b, Run twoClients events s ∧ .dequeued 0 lobbyDelivery ∈ events ∧
      .locked 1 b lobbyDelivery ∈ events ∧ ValidName b.username := by
  have hexec : ((Server.initial twoClients).exec deliverToReceiver).map
      (fun moves => decide (.dequeued 0 lobbyDelivery ∈ moves.1 ∧
        .locked 1 ⟨"eve".toList, 0, "hi".toList⟩ lobbyDelivery ∈ moves.1 ∧
        (requests (own 0 moves.1)).head? = some ⟨tagRlogin, "bob\n".toList⟩ ∧
        (requests (own 1 moves.1)).head? = some ⟨tagSlogin, "eve\n".toList⟩ ∧
        ∀ e ∈ moves.1, e.worker ∈ [some 0, some 1, none])) = some true := by
    decide +kernel
  obtain ⟨⟨events, s⟩, hs, hreached⟩ := Option.map_eq_some_iff.mp hexec
  obtain ⟨hdequeued, hlocked, hreceiver, hsender, hworkers⟩ := of_decide_eq_true hreached
  have hrun : Run twoClients ([] ++ events) s := Run.start.exec hs
  have hfirst : ∀ w, ∀ loginMes ∈ (requests (own w events)).head?, ¬BlankLogin loginMes := by
    rintro (_ | _ | w) loginMes hhead hblank
    · cases hreceiver.symm.trans hhead
      exact absurd (hblank.blank 'b' (by decide)) (by decide)
    · cases hsender.symm.trans hhead
      exact absurd (hblank.blank 'e' (by decide)) (by decide)
    · have hnone : own (w + 2) events = [] := by
        refine List.filter_eq_nil_iff.mpr fun e he howner => ?_
        have hworker := hworkers e he
        rw [of_decide_eq_true howner] at hworker
        simp at hworker
      rw [hnone] at hhead
      cases hhead
  obtain ⟨-, hdeliveries, -⟩ := (valid_users_iff hrun).2 hfirst
  exact ⟨events, s, _, hrun, hdequeued, hlocked, (hdeliveries 1 _ _ hlocked).2.1⟩

/-- A client whose payload is a carriage return and a newline. -/
def blankClient : Worker → Connection :=
  fun _ => ⟨⟨[], [.data "slogin:\r\n".toList]⟩, ⟨[], []⟩, .success⟩

/-- The payload is long enough, and the name that is stored is empty. -/
theorem blank_login_enters :
    ¬∀ (conn : Worker → Connection) (events : List Event) (s : Server), Run conn events s →
      ∀ w username, (s.point w).username = some username → ValidName username := by
  intro h
  have hexec : ((Server.initial blankClient).exec (List.replicate 3 (0, .proceed))).map
      (fun moves => moves.2.point 0) = some (.senderLoop [] none) := by decide +kernel
  obtain ⟨⟨events, s⟩, hs, hpoint⟩ := Option.map_eq_some_iff.mp hexec
  have hpoint : s.point 0 = .senderLoop [] none := hpoint
  exact (h blankClient _ s (Run.start.exec hs) 0 [] (by rw [hpoint]; rfl)).1 rfl

end CsfAssignments.Chat
