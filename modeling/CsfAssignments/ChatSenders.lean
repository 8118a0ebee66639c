import CsfAssignments.ChatReceivers
import CsfAssignments.SenderSessions

/-!
# Sender programs at the server

A worker whose client is the sender program. Its broadcasts are, in order, what the lines of its
user say, up to the first line that quits, and the program gets a reply to each of these lines.
-/

namespace CsfAssignments.Chat
open Sender Transducers

/-- The lines of a user up to the first one that quits. -/
structure Typed (before : List (List Char)) (quit : List Char) : Prop where
  before : ∀ line ∈ before, InputLine line ∧ ¬"/quit".toList <+: line
  quit : InputLine quit ∧ "/quit".toList <+: quit

theorem Typed.lines {before : List (List Char)} {quit : List Char} (htyped : Typed before quit) :
    ∀ line ∈ before ++ [quit], InputLine line := by
  intro line hline
  rcases List.mem_append.mp hline with hline | hline
  · exact (htyped.before line hline).1
  · rw [List.mem_singleton.mp hline]
    exact htyped.quit.1

/-- What the sender program writes for lines. -/
def typedBytes (lines : List (List Char)) : List Char := (lines.map message).flatMap encode

/-- The client of the worker is the sender program with these lines, on a connection on which
nothing was written before. -/
structure Types (conn : Connection) (username : List Char) (lines : List (List Char)) : Prop where
  stream : ∃ rest, conn.fdbuf.stream =
    encode ⟨tagSlogin, username⟩ ++ (typedBytes lines ++ rest)
  sent : conn.out.sent = []

/-- The broadcasts of a worker are the first things that the lines say. -/
def Followed (s : Server) (username : List Char) (lines : List (List Char)) (h : List Event) :
    Prop :=
  List.Forall₂ (s.Broadcasts username) (broadcasts h) ((said none lines).take (broadcasts h).length)

section Replies

theorem readable_err {text : String} (htext : '\n' ∉ text.toList ∧ Char.ofNat 0 ∉ text.toList ∧
    text.toList.length + 5 < maxLen) : (err text).Readable := by
  have hknown : tagErr ∈ knownTags := by decide
  have htag : tagErr.length = 3 := rfl
  have hsize : (encode (err text)).length = text.toList.length + 5 := by
    rw [length_encode hknown htext.2.1]
    show tagErr.length + text.toList.length + 2 = _
    omega
  exact ⟨⟨hknown, htext.1, htext.2.1, by omega⟩, by omega⟩

/-- The replies to a request are received whole. -/
theorem readable_senderRequest {username u : List Char} {current c : Option RoomId}
    {result : Result} {msg reply : Message}
    (hreply : senderRequest username current result msg = .senderReply reply u c) :
    reply.Readable := by
  unfold senderRequest at hreply
  cases current with
  | none =>
    dsimp only at hreply
    split_ifs at hreply <;> cases hreply <;>
      first | exact readable_ok | exact readable_err (by decide)
  | some r =>
    dsimp only at hreply
    split_ifs at hreply <;> cases hreply <;>
      first | exact readable_ok | exact readable_err (by decide)

/-- A reply that comes next is received whole. -/
theorem readable_next {w : Worker} {s t : Server} {p : Point} {es : List Event} {u : List Char}
    {c : Option RoomId} {reply : Message}
    (hmove : Move w s (code w p) es t (.senderReply reply u c)) : reply.Readable := by
  generalize hnext : Point.senderReply reply u c = next at hmove
  cases p with
  | senderLoop username current =>
    rw [code] at hmove
    cases hmove
    exact readable_senderRequest hnext.symm
  | login =>
    rw [code] at hmove
    cases hmove with
    | @receive _ _ msg conn _ =>
      dsimp only at hnext
      split_ifs at hnext
      cases hlogin : login conn.lastResult msg <;> rw [hlogin] at hnext <;> cases hnext
  | handshake msg login =>
    rw [code] at hmove
    cases hmove with
    | sent _ => cases login <;> cases hnext
    | notSent _ => cases hnext
  | receiverJoin =>
    rw [code] at hmove
    cases hmove
    unfold receiverRequest at hnext
    split_ifs at hnext
  | findRelease caller r =>
    rw [code] at hmove
    cases hmove
    cases caller with
    | sender username =>
      cases hnext
      exact readable_ok
    | receiver => cases hnext
  | broadcastRelease b =>
    rw [code] at hmove
    cases hmove
    cases hnext
    exact readable_ok
  | dequeueWait r =>
    rw [code] at hmove
    cases hmove with
    | semWait _ => cases hnext
    | timeout =>
      dsimp only at hnext
      split_ifs at hnext
  | _ =>
    rw [code] at hmove
    cases hmove <;> cases hnext

end Replies

section Posts
variable {w : Worker} {username quit : List Char} {before : List (List Char)} {s t : Server}
  {h : List Event} {p : Point}

/-- Later messages do not change what the earlier ones ask for. -/
theorem posts_prefix {ms ms' : List Request} (hearlier : ms <+: ms') : posts ms <+: posts ms' := by
  obtain ⟨more, rfl⟩ := hearlier
  induction more using List.reverseRecOn with
  | nil => rw [List.append_nil]
  | append_singleton more m ih =>
    rw [← List.append_assoc, posts_concat]
    exact ih.trans (List.prefix_append _ _)

/-- The broadcasts of a session are the first that its messages ask for. -/
theorem SessionTold.posted (htold : SessionTold w username s h p) :
    ∃ more, List.Forall₂ (s.Broadcasts username) (broadcasts h ++ more) (posts (received h)) := by
  have hreply {msg : Message} (hall : Answered s username (h ++ [.sent w msg])) :
      ∃ more, List.Forall₂ (s.Broadcasts username) (broadcasts h ++ more) (posts (received h)) := by
    have hposts := hall.posts
    rw [received_append, broadcasts_append, show received [.sent w msg] = [] from rfl,
      List.append_nil] at hposts
    exact ⟨[], hposts⟩
  cases p with
  | senderLoop u current => exact ⟨[], (List.append_nil _).symm ▸ htold.2.1.posts⟩
  | senderReply msg u current => exact hreply htold.2.1
  | senderQuit => exact hreply htold.1
  | findAcquire caller name | findBody caller name | findRelease caller r =>
    cases caller with
    | receiver => exact htold.elim
    | sender u => exact hreply htold.2.1
  | broadcastAcquire b =>
    have hposts := (htold.2.1 ok).posts
    rw [List.append_assoc, received_append, broadcasts_append,
      show received ([.locked w b ok] ++ [.sent w ok]) = [] from rfl, List.append_nil] at hposts
    exact ⟨_, hposts⟩
  | broadcasting b visited | enqueueAcquire b visited u | enqueuePush b visited u
  | enqueuePost b visited u | enqueueRelease b visited u | broadcastRelease b =>
    exact hreply htold.2.1
  | deleteUser | ended => exact ⟨[], (List.append_nil _).symm ▸ htold.1.posts⟩
  | _ => exact htold.elim

theorem Followed.mono {lines : List (List Char)} (hfollowed : Followed s username lines h)
    (hlookup : ∀ name r, s.rooms.lookup name = some r → t.rooms.lookup name = some r) :
    Followed t username lines h :=
  List.Forall₂.imp (fun _ _ hpost => ⟨hpost.1, hlookup _ _ hpost.2.1, hpost.2.2⟩) hfollowed

/-- A session that has heard the first of the lines has broadcast the first things they say. -/
theorem SessionTold.followed (htyped : Typed before quit) (htold : SessionTold w username s h p)
    (hheard : received h <+: (before ++ [quit]).map asked) :
    Followed s username (before ++ [quit]) h := by
  obtain ⟨more, hposted⟩ := htold.posted
  have hsaid : posts (received h) <+: said none (before ++ [quit]) := by
    rw [← posts_asked htyped.before htyped.quit.2]
    exact posts_prefix hheard
  have hlen := hposted.length_eq
  rw [List.length_append] at hlen
  have hfirst := List.forall₂_take (broadcasts h).length hposted
  rw [List.take_left, List.prefix_iff_eq_take.mp hsaid, List.take_take,
    min_eq_left (by omega)] at hfirst
  exact hfirst

/-- At the end of the session everything is broadcast. -/
theorem SessionTold.complete (htyped : Typed before quit) (htold : SessionTold w username s h .ended)
    (hheard : received h <+: (before ++ [quit]).map asked) :
    received h = (before ++ [quit]).map asked ∧
      List.Forall₂ (s.Broadcasts username) (broadcasts h) (said none (before ++ [quit])) ∧
      (replies h).length = before.length + 1 := by
  obtain ⟨hall, ms, m, hreceived, hquits, -⟩ := htold
  have hwhole : received h = (before ++ [quit]).map asked := by
    refine hheard.eq_of_length_le ?_
    by_contra hshort
    have hlt : (received h).length ≤ before.length := Nat.lt_succ_iff.mp (by simpa using hshort)
    have hfirst : received h <+: before.map asked := by
      rw [List.map_append] at hheard
      exact List.prefix_of_prefix_length_le hheard (List.prefix_append _ _) (by simpa using hlt)
    have hm : m ∈ before.map asked := hfirst.subset (by rw [hreceived]; simp)
    obtain ⟨line, hline, rfl⟩ := List.mem_map.mp hm
    exact (htyped.before line hline).2 (quits_asked_iff.mp hquits)
  refine ⟨hwhole, ?_, ?_⟩
  · rw [← posts_asked htyped.before htyped.quit.2, ← hwhole]
    exact hall.posts
  · rw [hall.told.length_eq, Transducer.length_outputs, hwhole]
    simp

end Posts

section Typing
variable {w : Worker} {username quit rest : List Char} {before : List (List Char)} {s t : Server}
  {h es : List Event} {p next : Point}

/-- A session with the sender program: it has heard some first lines, and the others are still to
be read. -/
structure Typing (w : Worker) (username : List Char) (lines : List (List Char)) (rest : List Char)
    (s : Server) (h : List Event) (p : Point) : Prop where
  told : SessionTold w username s h p
  heard : received h = (lines.take (received h).length).map asked
  unread : (s.conn w).fdbuf.stream = typedBytes (lines.drop (received h).length) ++ rest
  replied : ∀ reply ∈ replies h, reply.Readable
  reply : ∀ reply u c, p = .senderReply reply u c → reply.Readable

theorem Typing.heard_prefix {lines : List (List Char)} (htyping : Typing w username lines rest s h p) :
    received h <+: lines.map asked := by
  rw [htyping.heard]
  exact (List.take_prefix _ _).map _

theorem Typing.mono {lines : List (List Char)} (htyping : Typing w username lines rest s h p)
    (hlookup : ∀ name r, s.rooms.lookup name = some r → t.rooms.lookup name = some r)
    (hconn : t.conn w = s.conn w) : Typing w username lines rest t h p :=
  { htyping with
    told := htyping.told.mono hlookup
    unread := by rw [hconn]; exact htyping.unread }

/-- Between two requests there is another line to be read. -/
theorem Typing.exists_line (htyped : Typed before quit) {u : List Char} {c : Option RoomId}
    (htyping : Typing w username (before ++ [quit]) rest s h (.senderLoop u c)) :
    (received h).length < (before ++ [quit]).length := by
  by_contra hall
  have hheard := htyping.heard
  rw [List.take_of_length_le (not_lt.mp hall)] at hheard
  refine htyping.told.2.2.2 (asked quit) ?_ (quits_asked_iff.mpr htyped.quit.2)
  rw [hheard]
  simp

/-- What the worker receives is the next line. -/
theorem Typing.receive (htyped : Typed before quit) {u : List Char} {c : Option RoomId}
    (htyping : Typing w username (before ++ [quit]) rest s h (.senderLoop u c))
    {heard : Bool} {msg : Message} {conn : Connection}
    (hreceive : (s.conn w).receive ⟨[], []⟩ = (heard, msg, conn)) :
    ∃ line, msg = (asked line).2 ∧ conn.lastResult = (asked line).1 ∧
      (before ++ [quit]).take ((received h).length + 1) =
        (before ++ [quit]).take (received h).length ++ [line] ∧
      conn.fdbuf.stream = typedBytes ((before ++ [quit]).drop ((received h).length + 1)) ++ rest := by
  have hlt := htyping.exists_line htyped
  have hline := htyped.lines _ (List.getElem_mem hlt)
  have hunread := htyping.unread
  rw [List.drop_eq_getElem_cons hlt, typedBytes, List.map_cons, List.flatMap_cons,
    List.append_assoc] at hunread
  obtain ⟨hmsg, hresult, hbehind⟩ := receive_asked hline hunread hreceive
  exact ⟨_, hmsg, hresult, (List.take_append_getElem hlt).symm, hbehind⟩

/-- No line is taken for the end of the input. -/
theorem asked_ne_eof (line : List Char) : (asked line).1 ≠ .eofOrError := by
  rw [asked]
  dsimp only
  split_ifs <;> decide

/-- The worker hears the next line. -/
private theorem Typing.hear (htyped : Typed before quit) {u : List Char} {c : Option RoomId}
    (htyping : Typing w username (before ++ [quit]) rest s h (.senderLoop u c))
    {heard : Bool} {msg : Message} {conn : Connection}
    (hreceive : (s.conn w).receive ⟨[], []⟩ = (heard, msg, conn)) :
    Typing w username (before ++ [quit]) rest (s.setConn w conn)
      (h ++ [.received w conn.lastResult msg]) (senderRequest u c conn.lastResult msg) := by
  obtain ⟨line, hmsg, hresult, hnext, hbehind⟩ := htyping.receive htyped hreceive
  have hsession : SessionMove w s (code w (.senderLoop u c)) [.received w conn.lastResult msg]
      (s.setConn w conn) (senderRequest u c conn.lastResult msg) :=
    .receive conn (hresult ▸ asked_ne_eof line)
  have hreceived : received (h ++ [.received w conn.lastResult msg]) = received h ++ [asked line] := by
    rw [received_append, hmsg, hresult]
    rfl
  have hreplies : replies (h ++ [.received w conn.lastResult msg]) = replies h := by
    rw [replies_append]
    exact List.append_nil _
  have htold := htyping.told.step hsession
  rw [own_of_worker rfl] at htold
  refine ⟨htold, ?_, ?_, by rw [hreplies]; exact htyping.replied,
    fun reply u c => readable_senderRequest⟩
  · rw [hreceived, List.length_append, List.length_singleton, hnext, List.map_append,
      ← htyping.heard]
    rfl
  · rw [hreceived, List.length_append, List.length_singleton, Server.setConn_conn,
      Function.update_self, hbehind]

/-- The worker replies, or it cannot. -/
private theorem Typing.say (htyped : Typed before quit) {msg : Message} {sent : Point}
    (htyping : Typing w username (before ++ [quit]) rest s h p)
    (hop : code w p = .send msg sent .deleteUser) (hmsg : msg.Readable)
    (hmove : Move w s (code w p) es t next) (hsent : ∀ reply u c, sent ≠ .senderReply reply u c) :
    Typing w username (before ++ [quit]) rest t (h ++ own w es) next ∨
      next = .deleteUser ∧ (t.conn w).lastResult = .eofOrError ∧
        Followed t username (before ++ [quit]) (h ++ own w es) := by
  rw [hop] at hmove
  cases hmove with
  | @sent _ _ _ conn hsend =>
    have hsession : SessionMove w s (code w p) [.sent w msg] (s.setConn w conn) next := by
      rw [hop]
      exact .send conn
    have htold := htyping.told.step hsession
    rw [own_of_worker rfl] at htold ⊢
    have hreceived : received (h ++ [.sent w msg]) = received h := by
      rw [received_append]
      exact List.append_nil _
    refine .inl ⟨htold, by rw [hreceived]; exact htyping.heard, ?_, ?_,
      fun reply u c hreply => absurd hreply (hsent reply u c)⟩
    · rw [hreceived, Server.setConn_conn, Function.update_self, Connection.send_fdbuf hsend]
      exact htyping.unread
    · rw [replies_append]
      exact List.forall_mem_append.mpr ⟨htyping.replied, List.forall_mem_singleton.mpr hmsg⟩
  | notSent hsend =>
    rw [own_nil, List.append_nil, Server.setConn_conn, Function.update_self]
    have hfollowed := htyping.told.followed htyped htyping.heard_prefix
    exact .inr ⟨rfl, Connection.send_false hsend, hfollowed.mono fun _ _ hr => hr⟩

/-- The worker works on a request. -/
private theorem Typing.work (htyping : Typing w username (before ++ [quit]) rest s h p)
    (htalks : (code w p).talks = false) (hmove : Move w s (code w p) es t next) :
    Typing w username (before ++ [quit]) rest t (h ++ own w es) next := by
  have hquiet : received (own w es) = [] ∧ replies (own w es) = [] ∧ t.conn w = s.conn w := by
    generalize code w p = op at hmove htalks
    cases hmove with
    | receive _ | sent _ | notSent _ => cases htalks
    | _ => simp [own, received, replies, Event.worker, Event.heard, Event.reply]
  have hreceived : received (h ++ own w es) = received h := by
    rw [received_append, hquiet.1, List.append_nil]
  refine ⟨htyping.told.step (.other htalks hmove), by rw [hreceived]; exact htyping.heard, ?_, ?_,
    fun reply u c hreply => readable_next (hreply ▸ hmove)⟩
  · rw [hreceived, hquiet.2.2]
    exact htyping.unread
  · rw [replies_append, hquiet.2.1, List.append_nil]
    exact htyping.replied

/-- What a move of the worker leaves of a session: it goes on, or a write has failed and what was
broadcast stays. -/
theorem Typing.step (htyped : Typed before quit)
    (htyping : Typing w username (before ++ [quit]) rest s h p)
    (hmove : Move w s (code w p) es t next) :
    Typing w username (before ++ [quit]) rest t (h ++ own w es) next ∨
      next = .deleteUser ∧ (t.conn w).lastResult = .eofOrError ∧
        Followed t username (before ++ [quit]) (h ++ own w es) := by
  cases p with
  | senderLoop u c =>
    rw [code] at hmove
    cases hmove with
    | receive hreceive =>
      rw [own_of_worker rfl]
      exact .inl (htyping.hear htyped hreceive)
  | senderReply reply u c =>
    exact htyping.say htyped rfl (htyping.reply reply u c rfl) hmove (by simp)
  | senderQuit => exact htyping.say htyped rfl readable_ok hmove (by simp)
  | _ => first | exact htyping.told.elim | exact .inl (htyping.work rfl hmove)

end Typing

section Served
variable {w : Worker} {username quit rest : List Char} {before : List (List Char)} {s t : Server}
  {h es : List Event} {p next : Point}

/-- The events of the login of a sender. -/
def introduction (w : Worker) (username : List Char) : List Event :=
  [.received w .success ⟨tagSlogin, username ++ ['\n']⟩, .sent w ok]

/-- The connection and the events of the worker of a sender program at its program point: before the
login, in the handshake, in the session, or behind a failed write. -/
inductive SenderServed (w : Worker) (username : List Char) (lines : List (List Char))
    (rest : List Char) (s : Server) : List Event → Point → Prop
  | login {p : Point} : p = .start ∨ p = .login →
      (s.conn w).fdbuf.stream = encode ⟨tagSlogin, username⟩ ++ (typedBytes lines ++ rest) →
      SenderServed w username lines rest s [] p
  | handshake : (s.conn w).fdbuf.stream = typedBytes lines ++ rest →
      SenderServed w username lines rest s [.received w .success ⟨tagSlogin, username ++ ['\n']⟩]
        (.handshake ok (.sender username))
  | typing {h : List Event} {p : Point} : Typing w username lines rest s h p →
      SenderServed w username lines rest s (introduction w username ++ h) p
  | failed {h : List Event} {p : Point} : p = .deleteUser ∨ p = .ended →
      (s.conn w).lastResult = .eofOrError → Followed s username lines h →
      SenderServed w username lines rest s h p

theorem broadcasts_introduction (w : Worker) (username : List Char) (h : List Event) :
    broadcasts (introduction w username ++ h) = broadcasts h := rfl

theorem SenderServed.mono {lines : List (List Char)}
    (hserved : SenderServed w username lines rest s h p)
    (hlookup : ∀ name r, s.rooms.lookup name = some r → t.rooms.lookup name = some r)
    (hconn : t.conn w = s.conn w) : SenderServed w username lines rest t h p := by
  cases hserved with
  | login hp hstream => exact .login hp (by rw [hconn]; exact hstream)
  | handshake hstream => exact .handshake (by rw [hconn]; exact hstream)
  | typing htyping => exact .typing (htyping.mono hlookup hconn)
  | failed hp hresult hfollowed =>
    exact .failed hp (by rw [hconn]; exact hresult) (hfollowed.mono hlookup)

/-- The session begins with nothing heard and nothing said. -/
private theorem Typing.start {lines : List (List Char)}
    (hstream : (s.conn w).fdbuf.stream = typedBytes lines ++ rest) :
    Typing w username lines rest s [] (.senderLoop username none) :=
  ⟨⟨rfl, ⟨.nil, .nil⟩, rfl, by simp [Staying, received]⟩, rfl, hstream, by simp [replies], by simp⟩

/-- A move of the worker goes on with the login and with the lines, or a write fails. -/
theorem SenderServed.step (hname : Username username) (htyped : Typed before quit)
    (hserved : SenderServed w username (before ++ [quit]) rest s h p)
    (hmove : Move w s (code w p) es t next) :
    SenderServed w username (before ++ [quit]) rest t (h ++ own w es) next := by
  cases hserved with
  | login hp hstream =>
    rcases hp with rfl | rfl
    · rw [code] at hmove
      cases hmove
      exact .login (.inr rfl) hstream
    · rw [code] at hmove
      cases hmove with
      | @receive _ received msg conn hreceive =>
        obtain ⟨conn', hwhole, hbehind⟩ :=
          (hname.readable (show tagSlogin ∈ knownTags by decide) rfl).receive hstream
        rw [hreceive] at hwhole
        cases hwhole
        have hresult := Connection.receive_true hreceive
        have hchosen : chooseSession ⟨tagSlogin, username ++ ['\n']⟩ = .sender username := by
          rw [chooseSession, if_pos rfl, hname.rightTrim_eq]
        have hpoint : (if conn.lastResult = .eofOrError then Point.deleteUser
            else (Chat.login conn.lastResult ⟨tagSlogin, username ++ ['\n']⟩).point) =
            .handshake ok (.sender username) := by
          rw [hresult, if_neg (by decide), hname.login_eq, hchosen]
          rfl
        rw [own_of_worker rfl, List.nil_append]
        dsimp only
        rw [hpoint, hresult]
        exact .handshake (by rw [Server.setConn_conn, Function.update_self]; exact hbehind)
  | handshake hstream =>
    rw [code] at hmove
    cases hmove with
    | sent hsend =>
      rw [own_of_worker rfl]
      have hstart : Typing w username (before ++ [quit]) rest (s.setConn w _) []
          (.senderLoop username none) :=
        .start (by rw [Server.setConn_conn, Function.update_self, Connection.send_fdbuf hsend,
          hstream])
      exact .typing hstart
    | notSent hsend =>
      rw [own_nil, List.append_nil]
      refine .failed (.inl rfl) ?_ .nil
      rw [Server.setConn_conn, Function.update_self]
      exact Connection.send_false hsend
  | typing htyping =>
    rw [List.append_assoc]
    rcases htyping.step htyped hmove with hgoes | ⟨rfl, hresult, hfollowed⟩
    · exact .typing hgoes
    · exact .failed (.inl rfl) hresult hfollowed
  | failed hp hresult hfollowed =>
    rcases hp with rfl | rfl
    · rw [code] at hmove
      cases hmove
      rw [own_nil, List.append_nil]
      exact .failed (.inr rfl) hresult (hfollowed.mono fun _ _ hr => hr)
    · rw [code] at hmove
      cases hmove

theorem Run.senderServed {conn : Worker → Connection} {events : List Event}
    (hrun : Run conn events s) (hname : Username username) (htyped : Typed before quit)
    (hstream : (conn w).fdbuf.stream =
      encode ⟨tagSlogin, username⟩ ++ (typedBytes (before ++ [quit]) ++ rest)) :
    SenderServed w username (before ++ [quit]) rest s (own w events) (s.point w) :=
  hrun.told_conn (fun s hs => .login (.inl rfl) (by rw [hs]; exact hstream))
    (fun hserved hlookup hconn => hserved.mono hlookup hconn)
    (fun hserved hmove => hserved.step hname htyped hmove)

theorem SenderServed.followed (htyped : Typed before quit)
    (hserved : SenderServed w username (before ++ [quit]) rest s h p) :
    Followed s username (before ++ [quit]) h := by
  cases hserved with
  | login _ _ => exact .nil
  | handshake _ => exact .nil
  | typing htyping =>
    have hfollowed := htyping.told.followed htyped htyping.heard_prefix
    rw [Followed, broadcasts_introduction]
    exact hfollowed
  | failed _ _ hfollowed => exact hfollowed

/-- As long as no write fails the worker ends behind the last line. -/
theorem SenderServed.ended (hserved : SenderServed w username (before ++ [quit]) rest s h .ended)
    (hintact : (s.conn w).lastResult ≠ .eofOrError) :
    ∃ h', h = introduction w username ++ h' ∧
      Typing w username (before ++ [quit]) rest s h' .ended := by
  cases hserved with
  | login hp _ => rcases hp with hp | hp <;> cases hp
  | typing htyping => exact ⟨_, rfl, htyping⟩
  | failed _ hresult _ => exact absurd hresult hintact

/-- Nothing that a program sends is empty. -/
theorem stream_ne_nil {msg : Message} (hmsg : msg.Readable) {stream rest : List Char}
    (hstream : stream = encode msg ++ rest) : stream ≠ [] := by
  intro hempty
  rw [hempty, eq_comm, List.append_eq_nil_iff] at hstream
  have hlen := length_encode hmsg.1.tag_known hmsg.1.data_text
  rw [hstream.1, List.length_nil] at hlen
  omega

/-- When the server is at rest and has read what its clients have sent, the worker has ended. -/
theorem SenderServed.resting {conn : Worker → Connection} {events : List Event}
    (hserved : SenderServed w username (before ++ [quit]) rest s (own w events) (s.point w))
    (hrun : Run conn events s) (hname : Username username) (htyped : Typed before quit)
    (hrest : s.Resting)
    (hread : AwaitsClient w (s.point w) → (s.conn w).fdbuf.stream = []) : s.point w = .ended := by
  by_cases hclient : AwaitsClient w (s.point w)
  · have hempty := hread hclient
    generalize s.point w = p at hserved hclient
    generalize own w events = h at hserved
    cases hserved with
    | login _ hstream =>
      exact absurd hempty
        (stream_ne_nil (hname.readable (show tagSlogin ∈ knownTags by decide) rfl) hstream)
    | handshake _ =>
      rcases hclient with hstart | ⟨next, hop⟩
      · cases hstart
      · cases hop
    | @typing h' _ htyping =>
      obtain ⟨u, c, rfl⟩ : ∃ u c, p = .senderLoop u c := by
        rcases hclient with rfl | ⟨next, hop⟩
        · exact htyping.told.elim
        · cases p with
          | senderLoop u c => exact ⟨u, c, rfl⟩
          | login | receiverJoin => exact htyping.told.elim
          | _ => cases hop
      have hunread := htyping.unread
      rw [hempty, List.drop_eq_getElem_cons (htyping.exists_line htyped), typedBytes, List.map_cons,
        List.flatMap_cons, List.append_assoc, eq_comm, List.append_eq_nil_iff] at hunread
      have hline := htyped.lines _ (List.getElem_mem (htyping.exists_line htyped))
      have hencode := encode_message hline
      rw [hunread.1] at hencode
      exact absurd hencode.symm (by simp)
    | failed hp _ _ =>
      rcases hclient with hstart | ⟨next, hop⟩ <;> rcases hp with rfl | rfl
      · cases hstart
      · cases hstart
      · cases hop
      · cases hop
  · refine (hrest.point hrun hclient).resolve_right ?_
    rintro ⟨r, hpoint, -⟩
    rw [hpoint] at hserved
    generalize own w events = h at hserved
    cases hserved with
    | login hp _ => rcases hp with hp | hp <;> cases hp
    | typing htyping => exact htyping.told.elim
    | failed hp _ _ => rcases hp with hp | hp <;> cases hp

end Served

section Scenario

/-- The programs of a receiver and of a sender, and nobody else. -/
def chatClients : Worker → Connection
  | 0 => freshConnection (encode ⟨tagRlogin, "bob".toList⟩ ++
      encode (Receiver.messageJoined "lobby".toList))
  | 1 => freshConnection (encode ⟨tagSlogin, "eve".toList⟩ ++
      typedBytes (["/join lobby".toList, "hi".toList] ++ ["/quit".toList]))
  | _ => freshConnection []

/-- The sender says something that the receiver is sent, and quits. -/
def chat : List (Worker × Choice) := deliverToReceiver ++ List.replicate 3 (1, .proceed)

theorem receives_bob : Receives (chatClients 0) "bob".toList "lobby".toList :=
  ⟨⟨[], by rw [List.append_nil]; exact stream_freshConnection _⟩, rfl⟩

theorem username_eve : Username "eve".toList := ⟨by decide, chars_of_all (by decide), by decide⟩

theorem typed_eve : Typed ["/join lobby".toList, "hi".toList] "/quit".toList := by
  refine ⟨?_, ⟨⟨by decide, by decide, by decide +kernel⟩, by decide⟩⟩
  intro line hline
  rcases List.mem_pair.mp hline with rfl | rfl
  · exact ⟨⟨by decide, by decide, by decide +kernel⟩, by decide⟩
  · exact ⟨⟨by decide, by decide, by decide +kernel⟩, by decide⟩

theorem types_eve : Types (chatClients 1) "eve".toList
    (["/join lobby".toList, "hi".toList] ++ ["/quit".toList]) :=
  ⟨⟨[], by rw [List.append_nil]; exact stream_freshConnection _⟩, rfl⟩

theorem chatClients_idle {w : Worker} (hw : w ≠ 0) (hw' : w ≠ 1) :
    chatClients w = freshConnection [] := by
  unfold chatClients
  split
  · exact absurd rfl hw
  · exact absurd rfl hw'
  · rfl

/-- The conversation comes to rest with everything read and no failed write. -/
theorem exists_chat : ∃ events s, Run chatClients events s ∧ s.Resting ∧
    (∀ w, AwaitsClient w (s.point w) → (s.conn w).fdbuf.stream = []) ∧
    (∀ w, (s.conn w).lastResult ≠ .eofOrError) ∧ s.point 1 = .ended ∧
    broadcasts events = [greeting] := by
  have hexec : ((Server.initial chatClients).exec chat).map
      (fun moves => decide (moves.2.point 0 = .dequeueWait 0 ∧ moves.2.point 1 = .ended ∧
        (moves.2.user 0).mqueue.avail = 0 ∧ (moves.2.conn 0).lastResult = .success ∧
        (moves.2.conn 1).lastResult = .success ∧ broadcasts moves.1 = [greeting])) = some true := by
    decide +kernel
  obtain ⟨⟨events, s⟩, hs, hreached⟩ := Option.map_eq_some_iff.mp hexec
  obtain ⟨hreceiver, hsender, havail, hconn, hconn', hbroadcasts⟩ :=
    of_decide_eq_true hreached
  have havail : (s.user 0).mqueue.avail = 0 := havail
  have hother {w : Worker} (hw : w ≠ 0) (hw' : w ≠ 1) :
      s.point w = .start ∧ s.conn w = freshConnection [] := by
    have hothers : ∀ move ∈ chat, move.1 = 0 ∨ move.1 = 1 := by decide
    have hne : ∀ move ∈ chat, move.1 ≠ w := fun move hmove hmove' =>
      (hothers move hmove).elim (fun h => hw (hmove' ▸ h)) fun h => hw' (hmove' ▸ h)
    exact ⟨Server.exec_point hne hs, (Server.exec_conn hne hs).trans (chatClients_idle hw hw')⟩
  have hserved : ¬AwaitsClient 0 (s.point 0) := by
    rw [hreceiver]
    rintro (hstart | ⟨next, hop⟩)
    · cases hstart
    · cases hop
  have hended : ¬AwaitsClient 1 (s.point 1) := by
    rw [hsender]
    rintro (hstart | ⟨next, hop⟩)
    · cases hstart
    · cases hop
  refine ⟨[] ++ events, s, Run.start.exec hs, ?_, ?_, ?_, hsender, hbroadcasts⟩
  · intro w choice hchoice hclient
    by_cases hw : w = 0
    · subst hw
      rw [Server.step, hreceiver]
      cases choice with
      | timeout => exact absurd rfl hchoice
      | proceed | member u => simp [code, Server.execute, havail]
    by_cases hw' : w = 1
    · subst hw'
      rw [Server.step, hsender]
      rfl
    · exact absurd (.inl (hother hw hw').1) hclient
  · intro w hclient
    by_cases hw : w = 0
    · exact absurd (hw ▸ hclient) hserved
    by_cases hw' : w = 1
    · exact absurd (hw' ▸ hclient) hended
    · rw [(hother hw hw').2, stream_freshConnection]
  · intro w
    by_cases hw : w = 0
    · rw [hw, show (s.conn 0).lastResult = .success from hconn]
      decide
    by_cases hw' : w = 1
    · rw [hw', show (s.conn 1).lastResult = .success from hconn']
      decide
    · rw [(hother hw hw').2]
      decide

end Scenario

section Programs
variable {conn : Worker → Connection} {events : List Event} {s : Server} {w : Worker}
  {username quit : List Char} {before : List (List Char)} {client : Connection}

/-- What is broadcast when the worker has ended. -/
theorem Run.broadcast_typed (hrun : Run conn events s) (hname : Username username)
    (htyped : Typed before quit) (htypes : Types (conn w) username (before ++ [quit]))
    (hintact : (s.conn w).lastResult ≠ .eofOrError) (hended : s.point w = .ended) :
    List.Forall₂ (s.Broadcasts username) (broadcasts (own w events))
      (said none (before ++ [quit])) := by
  obtain ⟨rest, hstream⟩ := htypes.stream
  have hserved := hrun.senderServed hname htyped hstream
  rw [hended] at hserved
  obtain ⟨h, hevents, htyping⟩ := hserved.ended hintact
  rw [hevents, broadcasts_introduction]
  exact (htyping.told.complete htyped htyping.heard_prefix).2.1

/-- What a user types is what is broadcast. In every reachable state of the server the broadcasts
of the worker of a sender program are, in order and with its username, the first things that the
lines of its user say, each in the room it is said in. As long as the program is connected they are
all of them once the server is at rest and has read what was sent. -/
theorem typed_broadcast (hrun : Run conn events s) (hname : Username username)
    (htyped : Typed before quit) (htypes : Types (conn w) username (before ++ [quit])) :
    List.Forall₂ (s.Broadcasts username) (broadcasts (own w events))
        ((said none (before ++ [quit])).take (broadcasts (own w events)).length) ∧
      ((s.conn w).lastResult ≠ .eofOrError → s.Resting →
        (AwaitsClient w (s.point w) → (s.conn w).fdbuf.stream = []) →
        List.Forall₂ (s.Broadcasts username) (broadcasts (own w events))
          (said none (before ++ [quit]))) := by
  obtain ⟨rest, hstream⟩ := htypes.stream
  have hserved := hrun.senderServed hname htyped hstream
  refine ⟨hserved.followed htyped, fun hintact hrest hread => ?_⟩
  exact hrun.broadcast_typed hname htyped htypes hintact
    (hserved.resting hrun hname htyped hrest hread)

theorem typed_broadcast_hi : ∃ events s, Run chatClients events s ∧
    List.Forall₂ (s.Broadcasts "eve".toList) (broadcasts (own 1 events))
      [("lobby".toList, "hi".toList)] := by
  obtain ⟨events, s, hrun, hrest, hread, hintact, -⟩ := exists_chat
  exact ⟨events, s, hrun,
    (typed_broadcast hrun username_eve typed_eve types_eve).2 (hintact 1) hrest (hread 1)⟩

/-- The sender program ends. When its worker has ended without a failed write, the program has been
given a reply to the login and to each line up to the first that quits: whatever its further input
is, it sends the messages of exactly these lines and returns behind the reply to the last one. -/
theorem sender_returns (hrun : Run conn events s) (hname : Username username)
    (htyped : Typed before quit) (htypes : Types (conn w) username (before ++ [quit]))
    (hintact : (s.conn w).lastResult ≠ .eofOrError) (hended : s.point w = .ended)
    (hclient : client.fdbuf.stream = (s.conn w).out.sent)
    (hsend : (client.send ⟨tagSlogin, username⟩).1 = true) {rounds : ℕ}
    (hrounds : before.length < rounds) (more : List (List Char)) :
    ∃ effects, Sender.main username (before ++ quit :: more) rounds client = .ok (true, effects) ∧
      effects.map Prod.fst = before ++ [quit] ∧
      effects.flatMap (fun round => round.2.sent) = (before ++ [quit]).map message := by
  obtain ⟨rest, hstream⟩ := htypes.stream
  have hserved := hrun.senderServed hname htyped hstream
  have hwritten := hrun.written w fun _ => hintact
  rw [hended] at hserved
  obtain ⟨h, hevents, htyping⟩ := hserved.ended hintact
  rw [htypes.sent, List.nil_append, hevents] at hwritten
  have hlen := (htyping.told.complete htyped htyping.heard_prefix).2.2
  have hreplies : client.fdbuf.stream = (ok :: replies h).flatMap encode ++ [] := by
    rw [hclient, hwritten, List.append_nil]
    rfl
  exact Sender.main_of_stream (fun line hline => (htyped.before line hline).2) htyped.quit.2
    htyping.replied hlen hsend hreplies hrounds

theorem sender_returns_hi : ∃ events s effects, Run chatClients events s ∧
    Sender.main "eve".toList ["/join lobby".toList, "hi".toList, "/quit".toList, "more".toList] 3
      (freshConnection (s.conn 1).out.sent) = .ok (true, effects) ∧
    effects.flatMap (fun round => round.2.sent) =
      [⟨tagJoin, "lobby".toList⟩, ⟨tagSendall, "hi".toList⟩, ⟨tagQuit, []⟩] := by
  obtain ⟨events, s, hrun, -, -, hintact, hended, -⟩ := exists_chat
  obtain ⟨effects, hmain, -, hsent⟩ := sender_returns hrun username_eve typed_eve types_eve
    (hintact 1) hended (stream_freshConnection (s.conn 1).out.sent) rfl
    (show ["/join lobby".toList, "hi".toList].length < 3 by decide) ["more".toList]
  exact ⟨events, s, effects, hrun, hmain, hsent⟩

end Programs

end CsfAssignments.Chat
