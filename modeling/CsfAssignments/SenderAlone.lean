import CsfAssignments.LoginHandshake
import CsfAssignments.SenderReplies

/-!
# A sender alone

The moves of a worker while no other one moves. A sender that is alone on the server gets through
every line that fits the buffer, and so to the first one that does not; this line is taken as two
requests.
-/

namespace CsfAssignments.Chat

/-- The moves of a schedule in which the worker hears this many requests. -/
def Server.Leads (s : Server) (w : Worker) (n : ℕ) (s' : Server) : Prop :=
  ∃ schedule events, s.exec schedule = some (events, s') ∧ (requests (own w events)).length = n

/-- No lock is held, nobody is in a room and what a worker writes is accepted. -/
structure Calm (s : Server) (w : Worker) : Prop where
  free : ∀ l, s.owner l = none
  empty : ∀ r, (s.room r).members = []
  writable : (s.conn w).out.outgoing = []

section Alone
variable {s s₁ s₂ : Server} {w : Worker} {n m : ℕ} {username : List Char}
  {current : Option RoomId}

theorem Server.Leads.refl (s : Server) (w : Worker) : s.Leads w 0 s := ⟨[], [], rfl, rfl⟩

theorem Server.Leads.trans (h₁ : s.Leads w n s₁) (h₂ : s₁.Leads w m s₂) :
    s.Leads w (n + m) s₂ := by
  obtain ⟨schedule, events, hexec, hn⟩ := h₁
  obtain ⟨more, es, hmore, hm⟩ := h₂
  refine ⟨schedule ++ more, events ++ es, Server.exec_append hexec hmore, ?_⟩
  rw [own_append, requests_append, List.length_append, hn, hm]

/-- A move of the worker itself. -/
theorem Server.Leads.move {es : List Event} (h : s.step w .proceed = some (es, s₁))
    (hn : (requests (own w es)).length = n) : s.Leads w n s₁ := by
  refine ⟨[(w, .proceed)], es ++ [], ?_, by rwa [List.append_nil]⟩
  rw [Server.exec, h]
  rfl

theorem step_eq {p : Point} (hpoint : s.point w = p) (choice : Choice) :
    s.step w choice = s.execute w choice (code w p) := by
  rw [Server.step, hpoint]

/-- Writing a message to a connection that accepts everything. -/
theorem send_alone {p sent failed : Point} {msg : Message} (hcalm : Calm s w)
    (hpoint : s.point w = p) (hcode : code w p = .send msg sent failed) :
    ∃ s', s.Leads w 0 s' ∧ Calm s' w ∧ s'.point w = sent ∧
      (s'.conn w).fdbuf = (s.conn w).fdbuf := by
  obtain ⟨conn, hsend, hout⟩ := Connection.send_of_outgoing_nil msg hcalm.writable
  have hstep : s.step w .proceed = some ([.sent w msg], (s.setConn w conn).goto w sent) := by
    rw [step_eq hpoint, hcode]
    simp only [Server.execute, hsend, if_true]
    rw [if_neg (by simp [Connection.send_true hsend])]
  refine ⟨_, .move hstep (by rw [own_of_worker rfl]; rfl), ⟨hcalm.free, hcalm.empty, ?_⟩, ?_, ?_⟩
  · simpa using hout
  · simp
  · simpa using Connection.send_fdbuf hsend

/-- Taking a free lock. -/
theorem acquire_alone {p next : Point} {l : Lock} {b : Option Broadcast} (hpoint : s.point w = p)
    (hcode : code w p = .acquire l b next) (hfree : s.owner l = none) :
    ∃ s', s.Leads w 0 s' ∧ s'.point w = next ∧ (∀ k, k ≠ l → s'.owner k = s.owner k) ∧
      s'.room = s.room ∧ s'.conn = s.conn := by
  have hstep : s.step w .proceed = some ((b.map fun b => .locked w b (s.delivery b)).toList,
      (s.setOwner l (some w)).goto w next) := by
    rw [step_eq hpoint, hcode, Server.execute, if_pos hfree]
  refine ⟨_, .move hstep ?_, by simp, fun k hk => by simp [hk], rfl, rfl⟩
  cases b with
  | none => rfl
  | some b =>
    show (requests (own w [.locked w b _])).length = 0
    rw [own_of_worker rfl]
    rfl

/-- Giving a lock back. -/
theorem release_alone {p next : Point} {l : Lock} (hpoint : s.point w = p)
    (hcode : code w p = .release l next) :
    ∃ s', s.Leads w 0 s' ∧ s'.point w = next ∧ s'.owner l = none ∧
      (∀ k, k ≠ l → s'.owner k = s.owner k) ∧ s'.room = s.room ∧ s'.conn = s.conn := by
  have hstep : s.step w .proceed = some ([], (s.setOwner l none).goto w next) := by
    rw [step_eq hpoint, hcode, Server.execute]
  exact ⟨_, .move hstep rfl, by simp, by simp, fun k hk => by simp [hk], rfl, rfl⟩

/-- Finding a room, or creating an empty one. -/
theorem findRoom_alone {p : Point} {name : List Char} {next : RoomId → Point}
    (hpoint : s.point w = p) (hcode : code w p = .findRoom name next)
    (hempty : ∀ r, (s.room r).members = []) :
    ∃ s' r, s.Leads w 0 s' ∧ s'.point w = next r ∧ s'.owner = s.owner ∧
      (∀ r, (s'.room r).members = []) ∧ s'.conn = s.conn := by
  have hstep : s.step w .proceed = some ([],
      (s.findOrCreateRoom name).2.goto w (next (s.findOrCreateRoom name).1)) := by
    rw [step_eq hpoint, hcode]
    rfl
  refine ⟨_, (s.findOrCreateRoom name).1, .move hstep rfl, by simp, ?_⟩
  unfold Server.findOrCreateRoom
  split
  · exact ⟨rfl, hempty, rfl⟩
  · refine ⟨rfl, fun r => ?_, rfl⟩
    by_cases hr : r = s.rooms.length
    · subst hr
      simp
    · simp [hr, hempty r]

theorem find_alone {name : List Char} (hcalm : Calm s w)
    (hpoint : s.point w = .findAcquire (.sender username) name) :
    ∃ s' r, s.Leads w 0 s' ∧ Calm s' w ∧ s'.point w = .senderReply ok username (some r) ∧
      s'.conn w = s.conn w := by
  obtain ⟨s₁, hacquire, hpoint₁, howner₁, hroom₁, hconn₁⟩ :=
    acquire_alone hpoint rfl (hcalm.free .server)
  obtain ⟨s₂, r, hfind, hpoint₂, howner₂, hempty₂, hconn₂⟩ :=
    findRoom_alone hpoint₁ rfl (by rw [hroom₁]; exact hcalm.empty)
  obtain ⟨s₃, hrelease, hpoint₃, hfree₃, howner₃, hroom₃, hconn₃⟩ := release_alone hpoint₂ rfl
  refine ⟨s₃, r, (hacquire.trans hfind).trans hrelease, ⟨fun l => ?_, ?_, ?_⟩, hpoint₃, ?_⟩
  · by_cases hl : l = .server
    · rw [hl, hfree₃]
    · rw [howner₃ l hl, howner₂, howner₁ l hl, hcalm.free]
  · rwa [hroom₃]
  · rw [hconn₃, hconn₂, hconn₁, hcalm.writable]
  · rw [hconn₃, hconn₂, hconn₁]

theorem broadcast_alone {b : Broadcast} (hcalm : Calm s w)
    (hpoint : s.point w = .broadcastAcquire b) :
    ∃ s', s.Leads w 0 s' ∧ Calm s' w ∧ s'.point w = .senderReply ok b.username (some b.room) ∧
      s'.conn w = s.conn w := by
  obtain ⟨s₁, hacquire, hpoint₁, howner₁, hroom₁, hconn₁⟩ :=
    acquire_alone hpoint rfl (hcalm.free (.room b.room))
  have hlast : s₁.step w .proceed = some ([], s₁.goto w (.broadcastRelease b)) := by
    have hnone : ∀ u ∈ (s₁.room b.room).members, u ∈ [] := by simp [hroom₁, hcalm.empty]
    rw [step_eq hpoint₁, code]
    simp only [Server.execute]
    rw [if_pos hnone]
  obtain ⟨s₃, hrelease, hpoint₃, hfree₃, howner₃, hroom₃, hconn₃⟩ :=
    @release_alone (s₁.goto w (.broadcastRelease b)) w _ _ _ (by simp; rfl) rfl
  refine ⟨s₃, (hacquire.trans (.move hlast rfl)).trans hrelease, ⟨fun l => ?_, ?_, ?_⟩, hpoint₃, ?_⟩
  · by_cases hl : l = .room b.room
    · rw [hl, hfree₃]
    · rw [howner₃ l hl, Server.goto_owner, howner₁ l hl, hcalm.free]
  · intro r
    rw [hroom₃, Server.goto_room, hroom₁, hcalm.empty]
  · rw [hconn₃, Server.goto_conn, hconn₁, hcalm.writable]
  · rw [hconn₃, Server.goto_conn, hconn₁]

/-- Reading the next request. -/
theorem receive_alone {p : Point} {next : Result → Message → Point} {received : Bool}
    {msg : Message} {conn : Connection} (hpoint : s.point w = p)
    (hcode : code w p = .receive next)
    (hreceive : (s.conn w).receive ⟨[], []⟩ = (received, msg, conn)) :
    s.Leads w 1 ((s.setConn w conn).goto w (next conn.lastResult msg)) := by
  have hstep : s.step w .proceed = some ([.received w conn.lastResult msg],
      (s.setConn w conn).goto w (next conn.lastResult msg)) := by
    rw [step_eq hpoint, hcode]
    simp only [Server.execute, hreceive]
  refine .move hstep ?_
  rw [own_of_worker rfl]
  rfl

/-- A line that fits the buffer is one request, which a calm server answers at once. -/
theorem line_alone {line u : List Char} (hcalm : Calm s w)
    (hpoint : s.point w = .senderLoop username current) (hnewline : '\n' ∉ line)
    (hnul : Char.ofNat 0 ∉ line) (hquit : ¬QuitLine line) (hlen : line.length + 1 < maxLen)
    (hstream : (s.conn w).fdbuf.stream = line ++ '\n' :: u) :
    ∃ s' current', s.Leads w 1 s' ∧ Calm s' w ∧ s'.point w = .senderLoop username current' ∧
      (s'.conn w).fdbuf.stream = u := by
  obtain ⟨conn, hreceive, hrest, hout, hresult⟩ : ∃ conn,
      (s.conn w).receive ⟨[], []⟩ = (decide ((parse (line ++ ['\n'])).tag ∈ knownTags),
        parse (line ++ ['\n']), conn) ∧ conn.fdbuf.stream = u ∧ conn.out = (s.conn w).out ∧
      conn.lastResult ≠ .eofOrError := by
    obtain ⟨fdbuf, hrest, hreceive⟩ :=
      (s.conn w).receive_line hnewline hnul hlen hstream ⟨[], []⟩
    refine ⟨_, hreceive, hrest, rfl, ?_⟩
    dsimp only
    split_ifs <;> decide
  have htag : conn.lastResult = .success → (parse (line ++ ['\n'])).tag ≠ tagQuit :=
    fun _ htag => hquit (quitLine_of_tag hnewline hnul (by omega) htag)
  have hleads := receive_alone hpoint rfl hreceive
  set s₁ := (s.setConn w conn).goto w
    (senderRequest username current conn.lastResult (parse (line ++ ['\n']))) with hs₁
  have hcalm₁ : Calm s₁ w := ⟨hcalm.free, hcalm.empty, by simp [hs₁, hout, hcalm.writable]⟩
  have hstream₁ : (s₁.conn w).fdbuf.stream = u := by simp [hs₁, hrest]
  have hpoint₁ : s₁.point w =
      senderRequest username current conn.lastResult (parse (line ++ ['\n'])) := by simp [hs₁]
  rcases @senderRequest_cases username current _ _ hresult htag with
    ⟨reply, current', h⟩ | ⟨name, h⟩ | ⟨b, rfl, h⟩
  · obtain ⟨s₂, hreply, hcalm₂, hpoint₂, hfdbuf⟩ := send_alone hcalm₁ (hpoint₁.trans h) rfl
    exact ⟨s₂, current', hleads.trans hreply, hcalm₂, hpoint₂, by rw [hfdbuf, hstream₁]⟩
  · obtain ⟨s₂, r, hfound, hcalm₂, hpoint₂, hsame⟩ := find_alone hcalm₁ (hpoint₁.trans h)
    obtain ⟨s₃, hreply, hcalm₃, hpoint₃, hfdbuf⟩ := send_alone hcalm₂ hpoint₂ rfl
    exact ⟨s₃, some r, (hleads.trans hfound).trans hreply, hcalm₃, hpoint₃,
      by rw [hfdbuf, hsame, hstream₁]⟩
  · obtain ⟨s₂, hsent, hcalm₂, hpoint₂, hsame⟩ := broadcast_alone hcalm₁ (hpoint₁.trans h)
    obtain ⟨s₃, hreply, hcalm₃, hpoint₃, hfdbuf⟩ := send_alone hcalm₂ hpoint₂ rfl
    exact ⟨s₃, some b.room, (hleads.trans hsent).trans hreply, hcalm₃, hpoint₃,
      by rw [hfdbuf, hsame, hstream₁]⟩

/-- As many requests as lines that fit the buffer. -/
theorem lines_alone {lines : List (List Char)} {u : List Char} (hcalm : Calm s w)
    (hpoint : s.point w = .senderLoop username current)
    (hlines : ∀ line ∈ lines, '\n' ∉ line ∧ Char.ofNat 0 ∉ line ∧ ¬QuitLine line ∧
      line.length + 1 < maxLen)
    (hstream : (s.conn w).fdbuf.stream = wire lines ++ u) :
    ∃ s' current', s.Leads w lines.length s' ∧ s'.point w = .senderLoop username current' ∧
      (s'.conn w).fdbuf.stream = u := by
  induction lines generalizing s current with
  | nil => exact ⟨s, current, .refl s w, hpoint, hstream⟩
  | cons line lines ih =>
    rw [List.forall_mem_cons] at hlines
    obtain ⟨⟨hnewline, hnul, hquit, hlen⟩, hrest⟩ := hlines
    rw [wire_cons, List.append_assoc, List.cons_append] at hstream
    obtain ⟨s₁, current₁, hleads, hcalm₁, hpoint₁, hstream₁⟩ :=
      line_alone hcalm hpoint hnewline hnul hquit hlen hstream
    obtain ⟨s₂, current₂, hmore, hpoint₂, hstream₂⟩ := ih hcalm₁ hpoint₁ hrest hstream₁
    refine ⟨s₂, current₂, ?_, hpoint₂, hstream₂⟩
    rw [List.length_cons, Nat.add_comm]
    exact hleads.trans hmore

/-- A sender that has logged in as the only client of a server. -/
theorem exists_login (lines : List (List Char)) :
    ∃ conn earlier s, Run conn earlier s ∧ Calm s 0 ∧
      s.point 0 = .senderLoop "eve".toList none ∧ (s.conn 0).fdbuf.stream = wire lines := by
  set conn : Worker → Connection := fun _ =>
    freshConnection ("slogin:eve\n".toList ++ wire lines) with hconn
  obtain ⟨s₁, hnew, hpoint₁, hcalm₁, hconn₁⟩ : ∃ s₁, (Server.initial conn).Leads 0 0 s₁ ∧
      s₁.point 0 = .login ∧ Calm s₁ 0 ∧ s₁.conn = conn :=
    ⟨((Server.initial conn).setUser 0 ⟨true, ⟨0, []⟩⟩).goto 0 .login, .move rfl rfl, by simp,
      ⟨fun _ => rfl, fun _ => rfl, rfl⟩, rfl⟩
  have hstream : (s₁.conn 0).fdbuf.stream = "slogin:eve".toList ++ '\n' :: wire lines := by
    rw [hconn₁]
    exact stream_freshConnection _
  have hparse : parse ("slogin:eve".toList ++ ['\n']) = ⟨tagSlogin, "eve\n".toList⟩ := by
    decide +kernel
  have hknown : tagSlogin ∈ knownTags := by decide
  obtain ⟨fdbuf, hrest, hreceive⟩ :=
    (s₁.conn 0).receive_line (by decide) (by decide) (by decide) hstream ⟨[], []⟩
  rw [hparse, if_pos hknown] at hreceive
  obtain ⟨s₂, hheard, hpoint₂, hcalm₂, hstream₂⟩ : ∃ s₂, s₁.Leads 0 1 s₂ ∧
      s₂.point 0 = .handshake ok (.sender "eve".toList) ∧ Calm s₂ 0 ∧
      (s₂.conn 0).fdbuf.stream = wire lines := by
    refine ⟨_, receive_alone hpoint₁ rfl hreceive, ?_, ⟨hcalm₁.free, hcalm₁.empty, ?_⟩, ?_⟩
    · rw [Server.goto_point, Function.update_self]
      show (if Result.success = .eofOrError then Point.deleteUser else
        (login .success ⟨tagSlogin, "eve\n".toList⟩).point) = .handshake ok (.sender "eve".toList)
      decide +kernel
    · simpa using hcalm₁.writable
    · simpa using hrest
  obtain ⟨s₃, hsent, hcalm₃, hpoint₃, hfdbuf₃⟩ := send_alone hcalm₂ hpoint₂ rfl
  obtain ⟨schedule, events, hexec, -⟩ := (hnew.trans hheard).trans hsent
  exact ⟨conn, _, s₃, Run.start.exec hexec, hcalm₃, hpoint₃, by rw [hfdbuf₃, hstream₂]⟩

/-- The first line that does not fit the buffer. -/
private theorem exists_first_long {before : List (List Char)}
    (hlong : ¬∀ line ∈ before, line.length + 1 < maxLen) :
    ∃ short long after, before = short ++ long :: after ∧
      (∀ line ∈ short, line.length + 1 < maxLen) ∧ maxLen ≤ long.length + 1 := by
  induction before with
  | nil => exact absurd (fun _ h => absurd h List.not_mem_nil) hlong
  | cons line before ih =>
    by_cases hline : line.length + 1 < maxLen
    · rw [List.forall_mem_cons] at hlong
      obtain ⟨short, long, after, rfl, hshort, hle⟩ := ih fun h => hlong ⟨hline, h⟩
      exact ⟨line :: short, long, after, rfl, List.forall_mem_cons.mpr ⟨hline, hshort⟩, hle⟩
    · exact ⟨[], line, before, rfl, by simp, not_lt.mp hline⟩

/-- What is behind the cut of a line that does not fit stays in the stream. -/
theorem long_alone {long u : List Char} (hpoint : s.point w = .senderLoop username current)
    (hnewline : '\n' ∉ long) (hnul : Char.ofNat 0 ∉ long) (hlong : maxLen ≤ long.length + 1)
    (hstream : (s.conn w).fdbuf.stream = long ++ '\n' :: u) :
    ∃ s', s.Leads w 1 s' ∧ u.length < (s'.conn w).fdbuf.stream.length := by
  have hcut : (long.take 254).length + 1 = maxLen := by
    rw [maxLen] at hlong ⊢
    simp
    omega
  have hsplit : (s.conn w).fdbuf.stream = long.take 254 ++ (long.drop 254 ++ '\n' :: u) := by
    rw [hstream, ← List.append_assoc, List.take_append_drop]
  obtain ⟨fdbuf, hrest, hreceive⟩ := (s.conn w).receive_cut
    (fun h => hnewline (List.mem_of_mem_take h)) (fun h => hnul (List.mem_of_mem_take h)) hcut
    hsplit ⟨[], []⟩
  refine ⟨_, receive_alone hpoint rfl hreceive, ?_⟩
  rw [Server.goto_conn, Server.setConn_conn, Function.update_self, hrest]
  simp only [List.length_append, List.length_cons]
  omega

end Alone

/-- A client that is alone on the server gets two replies to the first line that does not fit. -/
theorem fit_of_repliesPerLine {before : List (List Char)} {quit : List Char}
    (hconv : Conversation before quit) (hreplies : RepliesPerLine (before ++ [quit])) :
    ∀ line ∈ before, line.length + 1 < maxLen := by
  by_contra hlong
  obtain ⟨short, long, after, rfl, hshort, hle⟩ := exists_first_long hlong
  obtain ⟨conn, earlier, s, hrun, hcalm, hpoint, hstream⟩ :=
    exists_login (short ++ long :: after ++ [quit])
  have hclean {line : List Char} (h : line ∈ short ++ long :: after) :
      '\n' ∉ line ∧ Char.ofNat 0 ∉ line ∧ ¬QuitLine line :=
    ⟨hconv.newline_notMem line h, hconv.nul_notMem line h, hconv.not_quit line h⟩
  have hlong' : long ∈ short ++ long :: after := by simp
  have hwire : wire (short ++ long :: after ++ [quit]) =
      wire short ++ (long ++ '\n' :: wire (after ++ [quit])) := by
    rw [List.append_assoc, List.cons_append, wire_append, wire_cons]
  obtain ⟨s₁, current, hleads, hpoint₁, hstream₁⟩ := lines_alone hcalm hpoint
    (fun line h => ⟨(hclean (List.mem_append_left _ h)).1, (hclean (List.mem_append_left _ h)).2.1,
      (hclean (List.mem_append_left _ h)).2.2, hshort line h⟩) (hstream.trans hwire)
  obtain ⟨s₂, hmore, hrest⟩ :=
    long_alone hpoint₁ (hclean hlong').1 (hclean hlong').2.1 hle hstream₁
  obtain ⟨schedule, events, hexec, hcount⟩ := hleads.trans hmore
  have hone := hreplies conn earlier s 0 "eve".toList none [] schedule events s₂ hrun hpoint
    (by rw [List.append_nil, hstream]) hexec
  have hunread := hone.unread (by rw [hcount]; simp)
  have hdrop : (short ++ long :: after ++ [quit]).drop (short.length + 1) = after ++ [quit] := by
    simp
  rw [hcount, hdrop, List.append_nil] at hunread
  rw [hunread] at hrest
  exact lt_irrefl _ hrest

/-- The session of a logged-in sender has one reply for each line of its client, up to the first
request to quit, exactly if every line before that has at most 254 characters with its newline. -/
theorem one_reply_per_line_iff {before : List (List Char)} {quit : List Char}
    (hconv : Conversation before quit) :
    RepliesPerLine (before ++ [quit]) ↔ ∀ line ∈ before, line.length + 1 < maxLen :=
  ⟨fit_of_repliesPerLine hconv, repliesPerLine_of_fit hconv⟩

theorem one_reply_per_line_two :
    RepliesPerLine (["join:lobby".toList, "sendall:hi".toList] ++ ["quit:".toList]) ↔
      ∀ line ∈ ["join:lobby".toList, "sendall:hi".toList], line.length + 1 < maxLen := by
  have hother : ∀ line ∈ ["join:lobby".toList, "sendall:hi".toList], line.head? ≠ some 'q' := by
    decide
  exact one_reply_per_line_iff
    ⟨by decide, by decide, fun line hline h => hother line hline h.head?, quitLine_quit⟩

/-- A `sendall` of 255 characters with its newline, as many as the protocol allows. -/
def longRequest : List Char := "sendall:".toList ++ List.replicate 246 'x'

/-- The request is answered twice before the client is heard again. -/
theorem one_reply_per_line_fails :
    Conversation [longRequest] "quit:".toList ∧ longRequest.length + 1 = maxLen ∧
      ¬RepliesPerLine ([longRequest] ++ ["quit:".toList]) ∧
      ∃ events s, Run (fun _ => freshConnection
          ("slogin:eve\n".toList ++ wire [longRequest, "quit:".toList])) events s ∧
        replies (own 0 events) = [ok, err "don't join a room", err "wrong message"] ∧
        (s.conn 0).fdbuf.stream = wire ["quit:".toList] := by
  have hconv : Conversation [longRequest] "quit:".toList := by
    have hother : ∀ line ∈ [longRequest], line.head? ≠ some 'q' := by decide +kernel
    exact ⟨by decide +kernel, by decide +kernel, fun line hline h => hother line hline h.head?,
      quitLine_quit⟩
  refine ⟨hconv, by decide +kernel, fun h => ?_, ?_⟩
  · have hlt := fit_of_repliesPerLine hconv h longRequest (List.mem_singleton_self _)
    exact absurd hlt (by decide +kernel)
  · have hexec : ((Server.initial fun _ => freshConnection
        ("slogin:eve\n".toList ++ wire [longRequest, "quit:".toList])).exec
          (List.replicate 7 (0, .proceed))).map
        (fun moves => decide (replies (own 0 moves.1) =
          [ok, err "don't join a room", err "wrong message"] ∧
          (moves.2.conn 0).fdbuf.stream = wire ["quit:".toList])) = some true := by
      decide +kernel
    obtain ⟨⟨events, s⟩, hs, hreached⟩ := Option.map_eq_some_iff.mp hexec
    obtain ⟨hreplies, hstream⟩ := of_decide_eq_true hreached
    exact ⟨_, s, Run.start.exec hs, hreplies, hstream⟩

end CsfAssignments.Chat
