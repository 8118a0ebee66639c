import CsfAssignments.ServerMoves

/-!
# The login handshake

The replies to the first line of a client, whatever the other workers do meanwhile. An invalid
message is refused without an exception, and the tag is checked behind the `ok`, so a login
can have two or three replies.
-/

namespace CsfAssignments.Chat
open RobustIO

theorem Connection.receive_out {conn conn' : Connection} {m msg : Message} {received : Bool}
    (h : conn.receive m = (received, msg, conn')) : conn'.out = conn.out := by
  rw [Connection.receive] at h
  split at h
  · cases h
    rfl
  · cases h
    rfl
  · dsimp only at h
    split_ifs at h <;> cases h <;> rfl

/-- When no result of `write` is left, everything is accepted. -/
theorem Connection.send_of_outgoing_nil {conn : Connection} (msg : Message)
    (h : conn.out.outgoing = []) :
    ∃ conn', conn.send msg = (true, conn') ∧ conn'.out.outgoing = [] := by
  have hwritten : ∃ out, rioWriten conn.out (encode msg) = (true, out) ∧ out.outgoing = [] := by
    rw [rioWriten, h]
    cases encode msg with
    | nil => exact ⟨_, rfl, rfl⟩
    | cons c bytes => exact ⟨_, rfl, rfl⟩
  obtain ⟨out, hout, hempty⟩ := hwritten
  exact ⟨_, by rw [Connection.send, hout], hempty⟩

/-- The replies of a worker from its first message to the session or the exception, when no
send fails; other workers may move in between. -/
inductive Handshakes (w : Worker) : Server → List Message → Server → Prop
  | done {s : Server} : (∀ msg next, s.point w ≠ .handshake msg next) → Handshakes w s [] s
  | other {s s₁ s₂ : Server} {v : Worker} {choice : Choice} {es : List Event}
      {replies : List Message} : v ≠ w → s.step v choice = some (es, s₁) →
      Handshakes w s₁ replies s₂ → Handshakes w s replies s₂
  | reply {s s₁ s₂ : Server} {choice : Choice} {msg m : Message} {next : Login}
      {replies : List Message} : s.point w = .handshake m next →
      s.step w choice = some ([.sent w msg], s₁) →
      Handshakes w s₁ replies s₂ → Handshakes w s (msg :: replies) s₂

/-- The replies, when none fails. -/
def Login.replies : Login → List Message
  | .reply msg next => msg :: next.replies
  | _ => []

/-- The point behind the replies, when none fails. -/
def Login.outcome : Login → Point
  | .reply _ next => next.outcome
  | other => other.point

/-- Exactly one reply, which is `ok` if a session of the right kind begins and otherwise
`err`. -/
def OneReply (loginMes : Message) (replies : List Message) (p : Point) : Prop :=
  ∃ reply, replies = [reply] ∧
    ((reply.tag = tagOk ∧
        ((loginMes.tag = tagSlogin ∧ ∃ username, p = .senderLoop username none) ∨
          (loginMes.tag = tagRlogin ∧ p = .receiverJoin))) ∨
      (reply.tag = tagErr ∧ p = .deleteUser))

/-- A reply that was sent leads to what comes behind it. -/
theorem step_handshake {s s' : Server} {w : Worker} {choice : Choice} {m msg : Message}
    {next : Login} (hpoint : s.point w = .handshake m next)
    (hstep : s.step w choice = some ([.sent w msg], s')) : msg = m ∧ s'.point w = next.point := by
  obtain ⟨t, p, hmove, rfl⟩ := step_move hstep
  rw [hpoint, code] at hmove
  cases hmove
  exact ⟨rfl, by simp⟩

theorem step_login {s s' : Server} {w : Worker} {choice : Choice} {result : Result}
    {loginMes : Message} (hlogin : s.point w = .login)
    (hstep : s.step w choice = some ([.received w result loginMes], s'))
    (hline : result ≠ .eofOrError) :
    s'.point w = (login result loginMes).point ∧ (s'.conn w).out = (s.conn w).out := by
  obtain ⟨t, p, hmove, rfl⟩ := step_move hstep
  rw [hlogin, code] at hmove
  cases hmove with
  | receive hreceive => exact ⟨by simp [hline], by simp [Connection.receive_out hreceive]⟩

/-- The replies of a handshake are those of its login. -/
theorem Handshakes.replies_eq {w : Worker} {s s' : Server} {replies : List Message}
    (h : Handshakes w s replies s') {next : Login} (hpoint : s.point w = next.point) :
    replies = next.replies ∧ s'.point w = next.outcome := by
  induction h generalizing next with
  | done hdone =>
    cases next with
    | reply msg next => exact absurd hpoint (hdone msg next)
    | throw => exact ⟨rfl, hpoint⟩
    | sender username => exact ⟨rfl, hpoint⟩
    | receiver username => exact ⟨rfl, hpoint⟩
  | other hvw hstep _ ih => exact ih (by rw [step_point_of_ne hvw hstep, hpoint])
  | reply hshake hstep _ ih =>
    cases next with
    | reply msg next =>
      obtain ⟨rfl, hnext⟩ := step_handshake hpoint hstep
      obtain ⟨hreplies, houtcome⟩ := ih hnext
      exact ⟨by rw [hreplies]; rfl, houtcome⟩
    | throw => simp [hpoint, Login.point] at hshake
    | sender username => simp [hpoint, Login.point] at hshake
    | receiver username => simp [hpoint, Login.point] at hshake

/-- When nothing is left to fail, every reply is sent. -/
theorem exists_handshakes {w : Worker} {s : Server} {next : Login}
    (hpoint : s.point w = next.point) (hwrites : (s.conn w).out.outgoing = []) :
    ∃ s', Handshakes w s next.replies s' := by
  induction next generalizing s with
  | reply msg next ih =>
    obtain ⟨conn, hsend, hconn⟩ := Connection.send_of_outgoing_nil msg hwrites
    have hstep : s.step w .proceed =
        some ([.sent w msg], (s.setConn w conn).goto w next.point) := by
      simp [Server.step, hpoint, Login.point, code, Server.execute, hsend,
        Connection.send_true hsend]
    obtain ⟨s', h⟩ :=
      ih (s := (s.setConn w conn).goto w next.point) (by simp) (by simpa using hconn)
    exact ⟨s', .reply hpoint hstep h⟩
  | throw => exact ⟨s, .done (by simp [hpoint, Login.point])⟩
  | sender username => exact ⟨s, .done (by simp [hpoint, Login.point])⟩
  | receiver username => exact ⟨s, .done (by simp [hpoint, Login.point])⟩

theorem outcome_checkLogin (loginMes : Message) :
    OneReply loginMes (checkLogin loginMes).replies (checkLogin loginMes).outcome ↔
      loginMes.tag = tagSlogin ∨ loginMes.tag = tagRlogin ∨ ¬hasNewline loginMes.data ∨
        loginMes.data.length ≤ 1 ∨ findFirstNotOf (rightTrim loginMes.data) alphabet ≠ npos := by
  have hrefused (text : String) :
      OneReply loginMes (Login.reply (err text) .throw).replies
        (Login.reply (err text) .throw).outcome := ⟨err text, rfl, .inr ⟨rfl, rfl⟩⟩
  rw [checkLogin]
  by_cases hnewline : hasNewline loginMes.data
  · rw [if_neg (not_not_intro hnewline)]
    by_cases hname : loginMes.data.length ≤ 1 ∨
        findFirstNotOf (rightTrim loginMes.data) alphabet ≠ npos
    · rw [if_pos hname]
      exact iff_of_true (hrefused _) (.inr (.inr (.inr hname)))
    · rw [if_neg hname, chooseSession]
      by_cases hslogin : loginMes.tag = tagSlogin
      · rw [if_pos hslogin]
        exact iff_of_true ⟨ok, rfl, .inl ⟨rfl, .inl ⟨hslogin, _, rfl⟩⟩⟩ (.inl hslogin)
      · rw [if_neg hslogin]
        by_cases hrlogin : loginMes.tag = tagRlogin
        · rw [if_pos hrlogin]
          exact iff_of_true ⟨ok, rfl, .inl ⟨rfl, .inr ⟨hrlogin, rfl⟩⟩⟩ (.inr (.inl hrlogin))
        · rw [if_neg hrlogin]
          refine iff_of_false ?_ (by simp [hslogin, hrlogin, hnewline, hname])
          rintro ⟨reply, hreplies, -⟩
          simp [Login.replies] at hreplies
  · rw [if_pos hnewline]
    exact iff_of_true (hrefused _) (.inr (.inr (.inl hnewline)))

/-- An invalid message is refused at least twice. -/
theorem outcome_invalid (loginMes : Message) :
    ¬OneReply loginMes (login .invalidMsg loginMes).replies
      (login .invalidMsg loginMes).outcome := by
  have hmore : ∃ reply rest, (checkLogin loginMes).replies = reply :: rest := by
    rw [checkLogin]
    split_ifs <;> exact ⟨_, _, rfl⟩
  obtain ⟨reply, rest, hrest⟩ := hmore
  rintro ⟨first, hreplies, -⟩
  simp [login, Login.replies, hrest] at hreplies

/-- The login handshake is right exactly on a valid message with a login tag or with a payload
that is refused. -/
theorem login_handshake_iff {w : Worker} {s s₁ s₂ : Server} {choice : Choice} {result : Result}
    {loginMes : Message} {replies : List Message} (hlogin : s.point w = .login)
    (hstep : s.step w choice = some ([.received w result loginMes], s₁))
    (hline : result ≠ .eofOrError) (hreplies : Handshakes w s₁ replies s₂) :
    OneReply loginMes replies (s₂.point w) ↔
      result = .success ∧
        (loginMes.tag = tagSlogin ∨ loginMes.tag = tagRlogin ∨ ¬hasNewline loginMes.data ∨
          loginMes.data.length ≤ 1 ∨
          findFirstNotOf (rightTrim loginMes.data) alphabet ≠ npos) := by
  obtain ⟨rfl, houtcome⟩ := hreplies.replies_eq (step_login hlogin hstep hline).1
  rw [houtcome]
  cases result with
  | success => simpa [login] using outcome_checkLogin loginMes
  | eofOrError => exact absurd rfl hline
  | invalidMsg => simpa using outcome_invalid loginMes

/-- A server whose first worker has its user, and the line its client sends. -/
def loginServer (line : String) : Server :=
  ((Server.initial fun _ => ⟨⟨[], [.data line.toList]⟩, ⟨[], []⟩, .success⟩).setUser 0
    ⟨true, ⟨0, []⟩⟩).goto 0 .login

private theorem loginServer_handshakes {line : String} {result : Result} {loginMes : Message}
    (hline : result ≠ .eofOrError)
    (hreceive : ((loginServer line).step 0 .proceed).map Prod.fst =
      some [.received 0 result loginMes]) :
    ∃ s₁ s₂, (loginServer line).step 0 .proceed = some ([.received 0 result loginMes], s₁) ∧
      Handshakes 0 s₁ (login result loginMes).replies s₂ := by
  obtain ⟨⟨es, s₁⟩, hstep, rfl⟩ := Option.map_eq_some_iff.mp hreceive
  obtain ⟨hpoint, hout⟩ := step_login rfl hstep hline
  obtain ⟨s₂, h⟩ := exists_handshakes hpoint (by rw [hout]; rfl)
  exact ⟨s₁, s₂, hstep, h⟩

theorem login_handshake_slogin :
    ∃ s₁ s₂ replies,
      (loginServer "slogin:alice\n").step 0 .proceed =
        some ([.received 0 .success ⟨tagSlogin, "alice\n".toList⟩], s₁) ∧
      Handshakes 0 s₁ replies s₂ ∧ OneReply ⟨tagSlogin, "alice\n".toList⟩ replies (s₂.point 0) := by
  obtain ⟨s₁, s₂, hstep, hreplies⟩ := loginServer_handshakes (by decide)
    (show ((loginServer "slogin:alice\n").step 0 .proceed).map Prod.fst =
      some [.received 0 .success ⟨tagSlogin, "alice\n".toList⟩] by decide +kernel)
  exact ⟨s₁, s₂, _, hstep, hreplies,
    (login_handshake_iff rfl hstep (by decide) hreplies).mpr ⟨rfl, .inl rfl⟩⟩

/-- A line with an unknown tag and a good name is answered `err`, `ok` and `err`. -/
theorem login_handshake_fails :
    ∃ s₁ s₂ replies,
      (loginServer "foo:alice\n").step 0 .proceed =
        some ([.received 0 .invalidMsg ⟨"foo".toList, "alice\n".toList⟩], s₁) ∧
      Handshakes 0 s₁ replies s₂ ∧ replies.map Message.tag = [tagErr, tagOk, tagErr] ∧
      ¬OneReply ⟨"foo".toList, "alice\n".toList⟩ replies (s₂.point 0) := by
  obtain ⟨s₁, s₂, hstep, hreplies⟩ := loginServer_handshakes (by decide)
    (show ((loginServer "foo:alice\n").step 0 .proceed).map Prod.fst =
      some [.received 0 .invalidMsg ⟨"foo".toList, "alice\n".toList⟩] by decide +kernel)
  refine ⟨s₁, s₂, _, hstep, hreplies, by decide +kernel, ?_⟩
  rintro ⟨reply, hone, -⟩
  have hthree : (login .invalidMsg ⟨"foo".toList, "alice\n".toList⟩).replies.length = 3 := by
    decide +kernel
  rw [hone] at hthree
  cases hthree

end CsfAssignments.Chat
