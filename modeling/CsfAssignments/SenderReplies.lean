import CsfAssignments.RequestLines
import CsfAssignments.WorkerHistory

/-!
# Replies to a sender

Whether a session has one reply for each line of its client. Every request has one reply before
the next request is read, whatever the other workers do, so the question is whether every request
is one line. A line that does not fit the buffer makes two requests or more.
-/

namespace CsfAssignments.Chat

/-- The session of a sender has taken every line as one request and has replied to each of them
once, but for the last one. -/
structure OnePerLine (lines : List (List Char)) (rest : List Char) (conn : Connection)
    (h : List Event) (p : Point) : Prop where
  requests_le : (requests h).length ≤ lines.length
  unread : (requests h).length < lines.length →
    conn.fdbuf.stream = wire (lines.drop (requests h).length) ++ rest
  replies_le : (replies h).length ≤ (requests h).length
  waiting : (requests h).length ≤ (replies h).length + 1
  replied : ∀ username current, p = .senderLoop username current →
    (replies h).length = (requests h).length
  /-- The session ends with the last line, or when a reply cannot be written. -/
  ended : p = .deleteUser ∨ p = .ended → conn.lastResult = .success →
    (replies h).length = lines.length

/-- In every run of the server, and at every point of it, the session of a logged-in sender that
writes these lines has one reply for each of them. -/
def RepliesPerLine (lines : List (List Char)) : Prop :=
  ∀ conn earlier s w username current rest schedule events s', Run conn earlier s →
    s.point w = .senderLoop username current → (s.conn w).fdbuf.stream = wire lines ++ rest →
    s.exec schedule = some (events, s') →
    OnePerLine lines rest (s'.conn w) (own w events) (s'.point w)

/-- A sender is working on its reply. -/
def Point.Replying : Point → Prop
  | .senderReply _ _ _ | .findAcquire (.sender _) _ | .findBody (.sender _) _
  | .findRelease (.sender _) _ | .broadcastAcquire _ | .broadcasting _ _ | .enqueueAcquire _ _ _
  | .enqueuePush _ _ _ | .enqueuePost _ _ _ | .enqueueRelease _ _ _ | .broadcastRelease _ => True
  | _ => False

/-- Where a request that is not to quit leads: to a reply, a room or a broadcast. -/
theorem senderRequest_cases {username : List Char} {current : Option RoomId} {result : Result}
    {msg : Message} (hresult : result ≠ .eofOrError)
    (hquit : result = .success → msg.tag ≠ tagQuit) :
    (∃ reply current', senderRequest username current result msg =
        .senderReply reply username current') ∨
      (∃ name, senderRequest username current result msg =
        .findAcquire (.sender username) name) ∨
      ∃ b, b.username = username ∧ senderRequest username current result msg =
        .broadcastAcquire b := by
  unfold senderRequest
  rw [if_neg hresult]
  by_cases hinvalid : result = .invalidMsg
  · rw [if_pos hinvalid]
    exact .inl ⟨_, _, rfl⟩
  have hsuccess := Result.eq_success hresult hinvalid
  rw [if_neg hinvalid]
  by_cases hjoin : msg.tag = tagJoin
  · rw [if_pos hjoin]
    split_ifs
    · exact .inr (.inl ⟨_, rfl⟩)
    · exact .inl ⟨_, _, rfl⟩
  rw [if_neg hjoin]
  by_cases hleave : msg.tag = tagLeave
  · rw [if_pos hleave]
    split_ifs <;> exact .inl ⟨_, _, rfl⟩
  rw [if_neg hleave]
  by_cases hsendall : msg.tag = tagSendall
  · rw [if_pos hsendall]
    cases current with
    | none => exact .inl ⟨_, _, rfl⟩
    | some r =>
      dsimp only
      split_ifs
      · exact .inr (.inr ⟨_, rfl, rfl⟩)
      · exact .inl ⟨_, _, rfl⟩
  · rw [if_neg hsendall, if_neg (hquit hsuccess)]
    exact .inl ⟨_, _, rfl⟩

/-- Every request but the one to quit leads to a reply. -/
theorem replying_senderRequest {username : List Char} {current : Option RoomId} {result : Result}
    {msg : Message} (hresult : result ≠ .eofOrError)
    (hquit : result = .success → msg.tag ≠ tagQuit) :
    (senderRequest username current result msg).Replying := by
  rcases senderRequest_cases hresult hquit with ⟨_, _, h⟩ | ⟨_, h⟩ | ⟨_, -, h⟩
  all_goals
    rw [h]
    trivial

theorem senderRequest_quit {username : List Char} {current : Option RoomId} {msg : Message}
    (hquit : msg.tag = tagQuit) : senderRequest username current .success msg = .senderQuit := by
  have htags : tagQuit ≠ tagJoin ∧ tagQuit ≠ tagLeave ∧ tagQuit ≠ tagSendall := by decide
  unfold senderRequest
  rw [hquit, if_neg (by decide), if_neg (by decide), if_neg htags.1, if_neg htags.2.1,
    if_neg htags.2.2, if_pos rfl]

/-- The connection and the events of a sender at its program point, when every line fits the
buffer. -/
def ReplyTold (before : List (List Char)) (quit rest : List Char) (conn : Connection)
    (h : List Event) : Point → Prop
  | .senderLoop _ _ => (requests h).length ≤ before.length ∧
      conn.fdbuf.stream = wire ((before ++ [quit]).drop (requests h).length) ++ rest ∧
      (replies h).length = (requests h).length
  | .senderQuit => (requests h).length = before.length + 1 ∧
      (replies h).length + 1 = (requests h).length
  | .deleteUser | .ended => (requests h).length ≤ before.length + 1 ∧
      ((requests h).length ≤ before.length →
        conn.fdbuf.stream = wire ((before ++ [quit]).drop (requests h).length) ++ rest) ∧
      ((replies h).length + 1 = (requests h).length ∧ conn.lastResult = .eofOrError ∨
        (replies h).length = (requests h).length ∧ (requests h).length = before.length + 1)
  | p => p.Replying ∧ (requests h).length ≤ before.length ∧
      conn.fdbuf.stream = wire ((before ++ [quit]).drop (requests h).length) ++ rest ∧
      (replies h).length + 1 = (requests h).length

section Step
variable {before : List (List Char)} {quit rest : List Char} {w : Worker} {s t : Server}
  {p next : Point} {es h : List Event} {conn : Connection}

theorem ReplyTold.onePerLine (htold : ReplyTold before quit rest conn h p) :
    OnePerLine (before ++ [quit]) rest conn h p := by
  have hlines : (before ++ [quit]).length = before.length + 1 := by simp
  cases p with
  | senderLoop username current =>
    obtain ⟨hle, hstream, hreplies⟩ := htold
    exact ⟨by omega, fun _ => hstream, by omega, by omega, fun _ _ _ => hreplies, by simp⟩
  | senderQuit =>
    obtain ⟨hall, hreplies⟩ := htold
    exact ⟨by omega, fun hlt => by omega, by omega, by omega, by simp, by simp⟩
  | deleteUser | ended =>
    obtain ⟨hle, hstream, hreplies⟩ := htold
    refine ⟨by omega, fun hlt => hstream (by omega), by omega, by omega, by simp, ?_⟩
    intro _ hsuccess
    rw [hsuccess] at hreplies
    rcases hreplies with ⟨-, hfailed, -⟩ | ⟨hreplies, hall⟩
    omega
  | _ =>
    obtain ⟨hp, hle, hstream, hreplies⟩ := htold
    exact ⟨by omega, fun _ => hstream, by omega, by omega, by simp, by simp⟩

/-- A message that is not about to quit, at a point behind the request. -/
theorem ReplyTold.of_replying (hp : p.Replying) (hle : (requests h).length ≤ before.length)
    (hstream : conn.fdbuf.stream = wire ((before ++ [quit]).drop (requests h).length) ++ rest)
    (hreplies : (replies h).length + 1 = (requests h).length) :
    ReplyTold before quit rest conn h p := by
  cases p <;> first | exact ⟨hp, hle, hstream, hreplies⟩ | exact hp.elim

section Counts
variable (h : List Event) (w : Worker) (result : Result) (msg : Message)

theorem length_requests_received :
    (requests (h ++ [.received w result msg])).length = (requests h).length + 1 := by
  rw [requests_append, List.length_append]
  rfl

theorem replies_received : replies (h ++ [.received w result msg]) = replies h := by
  rw [replies_append]
  exact List.append_nil _

theorem requests_sent : requests (h ++ [.sent w msg]) = requests h := by
  rw [requests_append]
  exact List.append_nil _

theorem length_replies_sent :
    (replies (h ++ [.sent w msg])).length = (replies h).length + 1 := by
  rw [replies_append, List.length_append]
  rfl

end Counts

/-- The next request. -/
private theorem senderLoop_step (hconv : Conversation before quit)
    (hfit : ∀ line ∈ before, line.length + 1 < maxLen) {username : List Char}
    {current : Option RoomId} (htold : ReplyTold before quit rest (s.conn w) h
      (.senderLoop username current))
    {received : Bool} {msg : Message} (hreceive : (s.conn w).receive ⟨[], []⟩ =
      (received, msg, conn)) :
    ReplyTold before quit rest conn (h ++ [.received w conn.lastResult msg])
      (senderRequest username current conn.lastResult msg) := by
  obtain ⟨hle, hstream, hreplies⟩ := htold
  have hcount := length_requests_received h w conn.lastResult msg
  have hsame := replies_received h w conn.lastResult msg
  rcases hle.lt_or_eq with hlt | hall
  · have hmem : before[(requests h).length] ∈ before := List.getElem_mem hlt
    have hdrop : (before ++ [quit]).drop (requests h).length =
        before[(requests h).length] :: (before ++ [quit]).drop ((requests h).length + 1) := by
      rw [List.drop_eq_getElem_cons (by simp; omega), List.getElem_append_left hlt]
    generalize before[(requests h).length] = line at hmem hdrop
    have hline := hconv.newline_notMem line hmem
    have htext := hconv.nul_notMem line hmem
    have hshort := hfit line hmem
    rw [hdrop, wire_cons, List.append_assoc, List.cons_append] at hstream
    obtain ⟨fdbuf, hrest, hread⟩ := (s.conn w).receive_line hline htext hshort hstream ⟨[], []⟩
    rw [hreceive] at hread
    obtain ⟨-, rfl, rfl⟩ := hread
    refine ReplyTold.of_replying (replying_senderRequest ?_ ?_) (by omega) ?_ ?_
    · dsimp only
      split_ifs <;> decide
    · exact fun _ htag => hconv.not_quit line hmem (quitLine_of_tag hline htext (by omega) htag)
    · rw [hcount]
      exact hrest
    · rw [hcount, hsame, hreplies]
  · rw [hall, List.drop_left, wire_cons, wire_nil, List.append_assoc, List.cons_append,
      List.nil_append] at hstream
    obtain ⟨htag, hresult⟩ := hconv.quit.receive hstream hreceive
    rw [hresult, senderRequest_quit htag]
    rw [hresult] at hcount hsame
    exact ⟨by rw [hcount, hall], by rw [hcount, hsame, hreplies]⟩

theorem ReplyTold.step (hconv : Conversation before quit)
    (hfit : ∀ line ∈ before, line.length + 1 < maxLen)
    (htold : ReplyTold before quit rest (s.conn w) h p) (hmove : Move w s (code w p) es t next) :
    ReplyTold before quit rest (t.conn w) (h ++ own w es) next := by
  cases p with
  | senderLoop username current =>
    rw [code] at hmove
    cases hmove with
    | receive hreceive =>
      rw [own_of_worker rfl, Server.setConn_conn, Function.update_self]
      exact senderLoop_step hconv hfit htold hreceive
  | senderReply msg username current =>
    obtain ⟨-, hle, hstream, hreplies⟩ := htold
    rw [code] at hmove
    cases hmove with
    | @sent _ _ _ conn hsend =>
      rw [own_of_worker rfl, Server.setConn_conn, Function.update_self]
      have hstream' : conn.fdbuf.stream = wire ((before ++ [quit]).drop (requests h).length) ++
          rest := by rw [Connection.send_fdbuf hsend, hstream]
      exact ⟨by rwa [requests_sent], by rwa [requests_sent],
        by rw [requests_sent, length_replies_sent, hreplies]⟩
    | notSent hsend =>
      rw [own_nil, List.append_nil, Server.setConn_conn, Function.update_self]
      refine ⟨by omega, fun _ => ?_, .inl ⟨hreplies, Connection.send_false hsend⟩⟩
      rw [Connection.send_fdbuf hsend]
      exact hstream
  | senderQuit =>
    obtain ⟨hall, hreplies⟩ := htold
    rw [code] at hmove
    cases hmove with
    | sent hsend =>
      rw [own_of_worker rfl, Server.setConn_conn, Function.update_self]
      have hcount : (replies (h ++ [.sent w ok])).length = (requests h).length := by
        rw [length_replies_sent, hreplies]
      exact ⟨by rw [requests_sent]; omega, by rw [requests_sent]; exact fun hle => by omega,
        .inr ⟨by rw [requests_sent, hcount], by rw [requests_sent, hall]⟩⟩
    | notSent hsend =>
      rw [own_nil, List.append_nil, Server.setConn_conn, Function.update_self]
      exact ⟨by omega, fun hle => by omega, .inl ⟨hreplies, Connection.send_false hsend⟩⟩
  | deleteUser =>
    rw [code] at hmove
    cases hmove
    rw [own_nil, List.append_nil]
    exact htold
  | findAcquire caller name | findRelease caller r =>
    rw [code] at hmove
    cases hmove
    rw [own_nil, List.append_nil]
    cases caller with
    | sender username => exact htold
    | receiver => exact htold.1.elim
  | findBody caller name =>
    cases caller with
    | receiver => exact htold.1.elim
    | sender username =>
      rw [code] at hmove
      cases hmove <;> (rw [own_nil, List.append_nil]; exact htold)
  | broadcastAcquire b =>
    obtain ⟨-, hle, hstream, hreplies⟩ := htold
    rw [code] at hmove
    cases hmove
    rw [own_of_worker rfl]
    have hsame (msg : Message) : requests (h ++ [.locked w b msg]) = requests h ∧
        replies (h ++ [.locked w b msg]) = replies h := by
      rw [requests_append, replies_append]
      exact ⟨List.append_nil _, List.append_nil _⟩
    exact .of_replying trivial (by rwa [(hsame _).1]) (by rwa [(hsame _).1])
      (by rwa [(hsame _).1, (hsame _).2])
  | broadcasting b visited =>
    rw [code] at hmove
    cases hmove <;> (rw [own_nil, List.append_nil]; exact htold)
  | enqueuePush b visited u =>
    rw [code] at hmove
    cases hmove
    exact (List.append_nil h).symm ▸ htold
  | ended =>
    rw [code] at hmove
    cases hmove
  | _ =>
    first
      | exact htold.1.elim
      | (rw [code] at hmove; cases hmove; rw [own_nil, List.append_nil]; exact htold)

end Step

/-- One reply for each line, when every line before the last one fits the buffer. -/
theorem repliesPerLine_of_fit {before : List (List Char)} {quit : List Char}
    (hconv : Conversation before quit) (hfit : ∀ line ∈ before, line.length + 1 < maxLen) :
    RepliesPerLine (before ++ [quit]) := by
  intro conn earlier s w username current rest schedule events s' _ hpoint hstream hexec
  have htold : ReplyTold before quit rest (s'.conn w) ([] ++ own w events) (s'.point w) :=
    Server.exec_told (P := fun s h p => ReplyTold before quit rest (s.conn w) h p)
      (fun htold _ hconn => hconn ▸ htold) (fun htold hmove => htold.step hconv hfit hmove)
      (by rw [hpoint]; exact ⟨Nat.zero_le _, hstream, rfl⟩) hexec
  exact htold.onePerLine

end CsfAssignments.Chat
