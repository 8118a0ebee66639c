import CsfAssignments.RoomDelivery
import CsfAssignments.ServerDeadlock
import CsfAssignments.ServerProgress

/-!
# The server at rest

When no worker can move unless a client does, everything that was said has been heard: no lock is
held, all queues are empty, and a receiver that is still in its room has been sent every message
broadcast there since it joined.
-/

namespace CsfAssignments.Chat
open LockOrdering TopicFeeds

section Stock

/-- The messages that a worker has been promised by its semaphore and not taken yet. -/
def Point.claims : Point → ℕ
  | .dequeueAcquire _ | .dequeuePop _ => 1
  | _ => 0

/-- The user whose queue has a message that has not been posted yet. -/
def Point.posting : Point → Option Worker
  | .enqueuePost _ _ u => some u
  | _ => none

/-- What an operation does to the promises of its point. -/
def Operation.Keeps (p : Point) : Operation → Prop
  | .pushBack u _ next => p.posting = none ∧ next.posting = some u ∧ next.claims = p.claims
  | .semPost u next => p.posting = some u ∧ next.posting = none ∧ next.claims = p.claims
  | .semTimedwait next timeout => p.posting = none ∧ next.posting = none ∧ p.claims = 0 ∧
      next.claims = 1 ∧ ∀ result, (timeout result).posting = none ∧ (timeout result).claims = 0
  | .popFront next => p.posting = none ∧ p.claims = 1 ∧
      ∀ msg, (next msg).posting = none ∧ (next msg).claims = 0
  | .newUser next | .deleteUser next | .acquire _ _ next | .release _ next | .insertMember _ next
  | .eraseMember _ next =>
      p.posting = none ∧ next.posting = none ∧ next.claims = p.claims
  | .receive next => p.posting = none ∧
      ∀ result msg, (next result msg).posting = none ∧ (next result msg).claims = p.claims
  | .send _ sent failed => p.posting = none ∧
      (sent.posting = none ∧ sent.claims = p.claims) ∧ failed.posting = none ∧
      failed.claims = p.claims
  | .findRoom _ next => p.posting = none ∧
      ∀ r, (next r).posting = none ∧ (next r).claims = p.claims
  | .nextMember _ _ next last => p.posting = none ∧
      (∀ u, (next u).posting = none ∧ (next u).claims = p.claims) ∧
      last.posting = none ∧ last.claims = p.claims
  | .halt => True

theorem idle_login (next : Login) : next.point.posting = none ∧ next.point.claims = 0 := by
  cases next <;> exact ⟨rfl, rfl⟩

theorem idle_senderRequest (username : List Char) (current : Option RoomId) (result : Result)
    (msg : Message) : (senderRequest username current result msg).posting = none ∧
      (senderRequest username current result msg).claims = 0 := by
  unfold senderRequest
  cases current with
  | none =>
    dsimp only
    split_ifs <;> exact ⟨rfl, rfl⟩
  | some r =>
    dsimp only
    split_ifs <;> exact ⟨rfl, rfl⟩

theorem idle_receiverRequest (result : Result) (msg : Message) :
    (receiverRequest result msg).posting = none ∧ (receiverRequest result msg).claims = 0 := by
  unfold receiverRequest
  split_ifs <;> exact ⟨rfl, rfl⟩

theorem code_keeps (w : Worker) (p : Point) : (code w p).Keeps p := by
  cases p with
  | login =>
    refine ⟨rfl, fun result msg => ?_⟩
    dsimp only
    split_ifs
    · exact ⟨rfl, rfl⟩
    · exact idle_login _
  | handshake msg next => exact ⟨rfl, idle_login next, rfl, rfl⟩
  | senderLoop username current => exact ⟨rfl, idle_senderRequest username current⟩
  | receiverJoin => exact ⟨rfl, idle_receiverRequest⟩
  | findRelease caller r => cases caller <;> exact ⟨rfl, rfl, rfl⟩
  | dequeueWait r =>
    refine ⟨rfl, rfl, rfl, rfl, fun result => ?_⟩
    dsimp only
    split_ifs <;> exact ⟨rfl, rfl⟩
  | ended => trivial
  | _ => simp [code, Operation.Keeps, Point.posting, Point.claims]

/-- Somebody has put a message into the queue of a user and not posted it yet. -/
def Server.Unposted (s : Server) (u : Worker) : Prop := ∃ w, (s.point w).posting = some u

open Classical in
/-- A queue holds the messages that its semaphore promises, that its owner has been promised, and
that are still to be posted. -/
def Stocked (s : Server) : Prop :=
  ∀ u, (s.user u).mqueue.messages.length =
    (s.user u).mqueue.avail + (s.point u).claims + if s.Unposted u then 1 else 0

theorem serves_of_posting {w u : Worker} {p : Point} (h : p.posting = some u) :
    .queue u ∈ (stage w p).locks ∧ ∃ b visited, (stage w p).serves = some (b, visited, u) := by
  cases p with
  | enqueuePost b visited v =>
    cases h
    exact ⟨List.mem_cons_self, b, visited, rfl⟩
  | _ => cases h

theorem claims_of_member {w : Worker} {p : Point} (h : (stage w p).member = none) :
    p.claims = 0 := by
  cases p <;> first | rfl | cases h

variable {s t : Server} {w : Worker} {op : Operation} {es : List Event} {next : Point}

/-- Only one worker posts to a queue. -/
theorem Safe.posting_unique (hsafe : Safe s) {u v w : Worker}
    (hv : (s.point v).posting = some u) (hw : (s.point w).posting = some u) : v = w :=
  hsafe.owner_unique (serves_of_posting hv).1 (serves_of_posting hw).1

/-- The others post what they posted. -/
private theorem unposted_goto {u : Worker} (hpoint : t.point = s.point) :
    (t.goto w next).Unposted u ↔
      next.posting = some u ∨ ∃ v, v ≠ w ∧ (s.point v).posting = some u := by
  constructor
  · rintro ⟨v, hv⟩
    by_cases hvw : v = w
    · subst hvw
      rw [Server.goto_point, Function.update_self] at hv
      exact .inl hv
    · rw [Server.goto_point, Function.update_of_ne hvw, hpoint] at hv
      exact .inr ⟨v, hvw, hv⟩
  · rintro (h | ⟨v, hvw, hv⟩)
    · exact ⟨w, by rwa [Server.goto_point, Function.update_self]⟩
    · exact ⟨v, by rwa [Server.goto_point, Function.update_of_ne hvw, hpoint]⟩

/-- A worker that posts to no queue before and after its move changes nothing for the others. -/
private theorem unposted_quiet {u : Worker} (hpoint : t.point = s.point)
    (hp : (s.point w).posting ≠ some u) (hnext : next.posting ≠ some u) :
    (t.goto w next).Unposted u ↔ s.Unposted u := by
  rw [unposted_goto hpoint, or_iff_right hnext]
  exact ⟨fun ⟨v, _, hv⟩ => ⟨v, hv⟩, fun ⟨v, hv⟩ => ⟨v, fun h => hp (h ▸ hv), hv⟩⟩

/-- A user that nobody else knows gets no messages. -/
private theorem not_unposted_of_start (hsafe : Safe s) {u : Worker} (hu : s.stage u = absent) :
    ¬s.Unposted u := by
  rintro ⟨v, hv⟩
  obtain ⟨b, visited, hserves⟩ := (serves_of_posting (w := v) hv).2
  have hmember := (hsafe.member _ u).mp (hsafe.serves v b visited u hserves).1
  rw [hu] at hmember
  cases hmember

private theorem posting_ne {p : Point} (hp : p.posting = none) (u : Worker) : p.posting ≠ some u :=
  hp ▸ (Option.some_ne_none u).symm

private theorem claims_goto (hpoint : t.point = s.point) {u : Worker}
    (hclaims : u = w → next.claims = (s.point w).claims) :
    ((t.goto w next).point u).claims = (s.point u).claims := by
  by_cases hu : u = w
  · subst hu
    rw [Server.goto_point, Function.update_self, hclaims rfl]
  · rw [Server.goto_point, Function.update_of_ne hu, hpoint]

open Classical in
/-- A move that touches one queue keeps the stock of the others. -/
private theorem Stocked.of_queue (hstock : Stocked s) (hpoint : t.point = s.point) {v : Worker}
    (hothers : ∀ u, u ≠ v → (t.user u).mqueue = (s.user u).mqueue ∧
      (u = w → next.claims = (s.point w).claims) ∧ (s.point w).posting ≠ some u ∧
      next.posting ≠ some u)
    (hv : (t.user v).mqueue.messages.length = (t.user v).mqueue.avail +
      ((t.goto w next).point v).claims + if (t.goto w next).Unposted v then 1 else 0) :
    Stocked (t.goto w next) := by
  intro u
  by_cases hu : u = v
  · subst hu
    exact hv
  · obtain ⟨hqueue, hclaims, hp, hnext⟩ := hothers u hu
    rw [Server.goto_user, hqueue, claims_goto hpoint hclaims, unposted_quiet hpoint hp hnext]
    exact hstock u

/-- A move that touches no queue. -/
private theorem Stocked.quiet (hstock : Stocked s) (hpoint : t.point = s.point)
    (hqueues : ∀ u, (t.user u).mqueue = (s.user u).mqueue)
    (h : (s.point w).posting = none ∧ next.posting = none ∧
      next.claims = (s.point w).claims) : Stocked (t.goto w next) := by
  obtain ⟨hp, hnext, hclaims⟩ := h
  intro u
  rw [Server.goto_user, hqueues u, claims_goto hpoint fun _ => hclaims,
    unposted_quiet hpoint (posting_ne hp u) (posting_ne hnext u)]
  exact hstock u

/-- A worker that touches its own queue and posts to none. -/
private theorem Stocked.of_own (hstock : Stocked s) {queue : MessageQueue}
    (hp : (s.point w).posting = none) (hnext : next.posting = none)
    (hlen : queue.messages.length + ((s.user w).mqueue.avail + (s.point w).claims) =
      (s.user w).mqueue.messages.length + (queue.avail + next.claims)) :
    Stocked ((s.setQueue w queue).goto w next) := by
  have hpoint : (s.setQueue w queue).point = s.point := rfl
  refine hstock.of_queue hpoint (v := w) (fun u hu => ⟨by simp [hu], fun h => absurd h hu,
    posting_ne hp u, posting_ne hnext u⟩) ?_
  have hw := hstock w
  rw [unposted_quiet hpoint (posting_ne hp w) (posting_ne hnext w), Server.goto_point,
    Function.update_self, Server.setQueue_user, Function.update_self]
  dsimp only
  omega

/-- The queue of a new user is empty, and nobody posts to it. -/
private theorem Stocked.newUser (hstock : Stocked s) (hsafe : Safe s)
    (habsent : s.stage w = absent) (hp : (s.point w).posting = none)
    (hnext : next.posting = none) (hzero : next.claims = 0) :
    Stocked ((s.setUser w ⟨true, ⟨0, []⟩⟩).goto w next) := by
  have hpoint : (s.setUser w ⟨true, ⟨0, []⟩⟩).point = s.point := rfl
  refine hstock.of_queue hpoint (v := w) (fun u hu => ⟨by simp [hu], fun h => absurd h hu,
    posting_ne hp u, posting_ne hnext u⟩) ?_
  have hnone : ¬((s.setUser w ⟨true, ⟨0, []⟩⟩).goto w next).Unposted w := by
    rw [unposted_quiet hpoint (posting_ne hp w) (posting_ne hnext w)]
    exact not_unposted_of_start hsafe habsent
  rw [if_neg hnone, Server.goto_point, Function.update_self, hzero]
  simp

/-- A message that is put into a queue is to be posted. -/
private theorem Stocked.pushBack (hstock : Stocked s) (hsafe : Safe s) {u : Worker}
    {b : Broadcast} (hlocks : .queue u ∈ (s.stage w).locks) (hp : (s.point w).posting = none)
    (hnext : next.posting = some u) (hclaims : next.claims = (s.point w).claims) :
    Stocked ((s.setQueue u { (s.user u).mqueue with
      messages := (s.user u).mqueue.messages ++ [s.delivery b] }).goto w next) := by
  have hpoint (queue : MessageQueue) : (s.setQueue u queue).point = s.point := rfl
  refine hstock.of_queue (hpoint _) (v := u) (fun v hv => ⟨by simp [hv], fun _ => hclaims,
    posting_ne hp v, by rw [hnext]; exact fun h => hv (Option.some.inj h).symm⟩) ?_
  have hbefore : ¬s.Unposted u := by
    rintro ⟨v, hv⟩
    have hvw : v = w := hsafe.owner_unique (serves_of_posting (w := v) hv).1 hlocks
    rw [hvw, hp] at hv
    cases hv
  have hlen := hstock u
  rw [if_neg hbefore] at hlen
  rw [if_pos ((unposted_goto (hpoint _)).mpr (.inl hnext)),
    claims_goto (hpoint _) fun _ => hclaims,
    Server.setQueue_user, Function.update_self]
  simp only [List.length_append, List.length_singleton]
  omega

/-- A message that has been posted is promised by the semaphore. -/
private theorem Stocked.semPost (hstock : Stocked s) (hsafe : Safe s) {u : Worker}
    (hp : (s.point w).posting = some u) (hnext : next.posting = none)
    (hclaims : next.claims = (s.point w).claims) :
    Stocked ((s.setQueue u { (s.user u).mqueue with
      avail := (s.user u).mqueue.avail + 1 }).goto w next) := by
  have hpoint (queue : MessageQueue) : (s.setQueue u queue).point = s.point := rfl
  refine hstock.of_queue (hpoint _) (v := u) (fun v hv => ⟨by simp [hv], fun _ => hclaims,
    by rw [hp]; exact fun h => hv (Option.some.inj h).symm, posting_ne hnext v⟩) ?_
  have hafter : ¬((s.setQueue u { (s.user u).mqueue with
      avail := (s.user u).mqueue.avail + 1 }).goto w next).Unposted u := by
    rw [unposted_goto (hpoint _), hnext]
    rintro (h | ⟨v, hvw, hv⟩)
    · cases h
    · exact hvw (hsafe.posting_unique hv hp)
  have hlen := hstock u
  rw [if_pos ⟨w, hp⟩] at hlen
  rw [if_neg hafter, claims_goto (hpoint _) fun _ => hclaims, Server.setQueue_user, Function.update_self]
  dsimp only
  omega

/-- The queues of the server keep their stock. -/
theorem Stocked.move (hstock : Stocked s) (hsafe : Safe s)
    (htyped : op.Typed w (s.stage w)) (hkeeps : op.Keeps (s.point w))
    (hmove : Move w s op es t next) : Stocked (t.goto w next) := by
  have hpoint := hmove.point_eq
  cases hmove with
  | newUser =>
    obtain ⟨habsent, hidle⟩ := htyped
    exact hstock.newUser hsafe habsent hkeeps.1 hkeeps.2.1
      (claims_of_member (by rw [hidle]; rfl))
  | deleteUser =>
    refine hstock.quiet hpoint (fun u => ?_) hkeeps
    by_cases hu : u = w
    · subst hu
      simp
    · simp [hu]
  | receive _ => exact hstock.quiet hpoint (fun _ => rfl) ⟨hkeeps.1, hkeeps.2 _ _⟩
  | sent _ => exact hstock.quiet hpoint (fun _ => rfl) ⟨hkeeps.1, hkeeps.2.1⟩
  | notSent _ => exact hstock.quiet hpoint (fun _ => rfl) ⟨hkeeps.1, hkeeps.2.2⟩
  | findRoom _ | createRoom _ => exact hstock.quiet hpoint (fun _ => rfl) ⟨hkeeps.1, hkeeps.2 _⟩
  | nextMember _ _ => exact hstock.quiet hpoint (fun _ => rfl) ⟨hkeeps.1, hkeeps.2.1 _⟩
  | lastMember _ => exact hstock.quiet hpoint (fun _ => rfl) ⟨hkeeps.1, hkeeps.2.2⟩
  | pushBack =>
    obtain ⟨hp, hnext, hclaims⟩ := hkeeps
    obtain ⟨visited, hσ, -⟩ := htyped
    exact hstock.pushBack hsafe (by rw [hσ]; exact List.mem_cons_self) hp hnext hclaims
  | semPost =>
    obtain ⟨hp, hnext, hclaims⟩ := hkeeps
    exact hstock.semPost hsafe hp hnext hclaims
  | semWait havail =>
    obtain ⟨hp, hnext, hzero, hone, -⟩ := hkeeps
    refine hstock.of_own hp hnext ?_
    dsimp only
    omega
  | timeout =>
    obtain ⟨hp, -, hzero, -, htimeout⟩ := hkeeps
    obtain ⟨hnext, hclaim⟩ := htimeout (s.conn w).lastResult
    exact hstock.quiet hpoint (fun _ => rfl) ⟨hp, hnext, hclaim.trans hzero.symm⟩
  | @popFront next msg messages hmessages =>
    obtain ⟨hp, hone, hnext⟩ := hkeeps
    obtain ⟨hposting, hzero⟩ := hnext msg
    refine hstock.of_own hp hposting ?_
    rw [hmessages, List.length_cons]
    dsimp only
    omega
  | _ => exact hstock.quiet hpoint (fun _ => rfl) hkeeps

theorem Run.stocked {conn : Worker → Connection} {events : List Event} {s : Server}
    (hrun : Run conn events s) : Stocked s := by
  induction hrun with
  | start =>
    intro u
    have hnone : ¬(Server.initial conn).Unposted u := fun ⟨_, hv⟩ => by cases hv
    rw [if_neg hnone]
    rfl
  | @step events s s' es w choice hrun hstep ih =>
    obtain ⟨t, next, hmove, rfl⟩ := step_move hstep
    exact ih.move hrun.safe (code_typed w _) (code_keeps w _) hmove

end Stock

section Rest
variable {conn : Worker → Connection} {events : List Event} {s : Server} {w : Worker}

/-- A worker without a thread, or one that reads from its client. -/
def AwaitsClient (w : Worker) (p : Point) : Prop :=
  p = .start ∨ ∃ next, code w p = .receive next

/-- Nobody can move unless a client does or a wait times out. -/
def Server.Resting (s : Server) : Prop :=
  ∀ w choice, choice ≠ .timeout → ¬AwaitsClient w (s.point w) → s.step w choice = none

/-- As long as the server is not at rest, a move brings it closer. -/
private theorem exists_rest {n : ℕ} (hrun : Run conn events s)
    (hn : ∀ w, s.point w ≠ .start → w < n) :
    ∃ schedule es s', (∀ move ∈ schedule, s.point move.1 ≠ .start ∧ move.2 ≠ .timeout) ∧
      s.exec schedule = some (es, s') ∧ s'.Resting := by
  induction hwork : s.work n using Nat.strong_induction_on generalizing s events with
  | _ work ih =>
    by_cases hrest : s.Resting
    · exact ⟨[], [], s, nofun, rfl, hrest⟩
    · obtain ⟨w, choice, hchoice, hclient, hsome⟩ : ∃ w choice, choice ≠ .timeout ∧
          ¬AwaitsClient w (s.point w) ∧ s.step w choice ≠ none := by
        simpa [Server.Resting] using hrest
      have hstart : s.point w ≠ .start := fun h => hclient (.inl h)
      obtain ⟨⟨es, s₁⟩, hstep⟩ := Option.ne_none_iff_exists'.mp hsome
      have hlt := step_work_lt (hn w hstart) (fun r u hu => hn u (hrun.safe.started hu)) hstart
        hchoice hstep
      have hstarted := step_started hstart hstep
      obtain ⟨schedule, more, s', hmoves, hexec, hrest'⟩ := ih (s₁.work n) (hwork ▸ hlt)
        (.step w choice hrun hstep) (fun v hv => hn v ((hstarted v).mp hv)) rfl
      refine ⟨(w, choice) :: schedule, es ++ more, s', ?_, ?_, hrest'⟩
      · refine List.forall_mem_cons.mpr ⟨⟨hstart, hchoice⟩, fun move hmove => ?_⟩
        exact ⟨(hstarted _).mp (hmoves move hmove).1, (hmoves move hmove).2⟩
      · rw [Server.exec, hstep, Option.bind_some, hexec]
        rfl

/-- The server settles. Whatever state it has reached, the moves of the workers that have started,
other than a wait that times out, end after a bounded number in every schedule, and some of them
bring it to rest. -/
theorem server_settles (hrun : Run conn events s) :
    (∃ bound, ∀ schedule es s',
      (∀ move ∈ schedule, s.point move.1 ≠ .start ∧ move.2 ≠ .timeout) →
        s.exec schedule = some (es, s') → schedule.length ≤ bound) ∧
      ∃ schedule es s', (∀ move ∈ schedule, s.point move.1 ≠ .start ∧ move.2 ≠ .timeout) ∧
        s.exec schedule = some (es, s') ∧ s'.Resting := by
  obtain ⟨n, hn⟩ := hrun.started_lt
  exact ⟨hrun.drains, exists_rest hrun hn⟩

theorem server_settles_visited :
    ∃ events s, Run twoClients events s ∧ s.point 0 ≠ .start ∧ s.point 1 ≠ .start ∧
      (∃ bound, ∀ schedule es s',
        (∀ move ∈ schedule, s.point move.1 ≠ .start ∧ move.2 ≠ .timeout) →
          s.exec schedule = some (es, s') → schedule.length ≤ bound) ∧
      ∃ schedule es s', (∀ move ∈ schedule, s.point move.1 ≠ .start ∧ move.2 ≠ .timeout) ∧
        s.exec schedule = some (es, s') ∧ s'.Resting := by
  have hexec : ((Server.initial twoClients).exec visitReceiver).map
      (fun moves => decide (moves.2.point 0 ≠ .start ∧ moves.2.point 1 ≠ .start)) = some true := by
    decide +kernel
  obtain ⟨⟨events, s⟩, hs, hreached⟩ := Option.map_eq_some_iff.mp hexec
  obtain ⟨hreceiver, hsender⟩ := of_decide_eq_true hreached
  have hrun : Run twoClients ([] ++ events) s := Run.start.exec hs
  exact ⟨_, s, hrun, hreceiver, hsender, server_settles hrun⟩

/-- The operations that may block. -/
theorem exists_step (hfree : ∀ l, s.Wants w l → s.owner l = none)
    (hwait : ∀ next timeout, code w (s.point w) = .semTimedwait next timeout →
      0 < (s.user w).mqueue.avail)
    (hfront : ∀ next, code w (s.point w) = .popFront next → (s.user w).mqueue.messages ≠ [])
    (hended : code w (s.point w) ≠ .halt) :
    ∃ choice, choice ≠ .timeout ∧ (s.step w choice).isSome := by
  cases hop : code w (s.point w) with
  | acquire l b next =>
    have hl : s.owner l = none := hfree l (by rw [Server.Wants, hop]; rfl)
    refine ⟨.proceed, by simp, ?_⟩
    rw [Server.step, hop, Server.execute, if_pos hl]
    rfl
  | nextMember r visited next last =>
    by_cases hall : ∀ u ∈ (s.room r).members, u ∈ visited
    · refine ⟨.proceed, by simp, ?_⟩
      simp only [Server.step, hop, Server.execute, if_pos hall, Option.isSome_some]
    · obtain ⟨u, hu⟩ : ∃ u, u ∈ (s.room r).members ∧ u ∉ visited := by simpa using hall
      refine ⟨.member u, by simp, ?_⟩
      simp only [Server.step, hop, Server.execute, if_pos hu, Option.isSome_some]
  | semTimedwait next timeout =>
    refine ⟨.proceed, by simp, ?_⟩
    simp only [Server.step, hop, Server.execute, if_pos (hwait next timeout hop),
      Option.isSome_some]
  | popFront next =>
    obtain ⟨msg, messages, hcons⟩ := List.exists_cons_of_ne_nil (hfront next hop)
    refine ⟨.proceed, by simp, ?_⟩
    simp only [Server.step, hop, Server.execute, hcons, Option.isSome_some]
  | halt => exact absurd hop hended
  | _ =>
    refine ⟨.proceed, by simp, ?_⟩
    rw [Server.step, hop]
    rfl

/-- A worker that holds a lock is at no operation that waits for a client or a message. -/
theorem moves_of_locks {p : Point} {l : Lock} (hl : l ∈ (stage w p).locks) :
    ¬AwaitsClient w p ∧ (∀ next timeout, code w p ≠ .semTimedwait next timeout) ∧
      code w p ≠ .halt := by
  refine ⟨?_, fun next timeout hop => ?_, fun hop => ?_⟩
  · rintro (rfl | ⟨next, hop⟩)
    · cases hl
    · have htyped := code_typed w p
      rw [hop] at htyped
      rw [htyped.1] at hl
      cases hl
  · rw [locks_of_semTimedwait hop] at hl
    cases hl
  · cases p with
    | ended => cases hl
    | _ => cases hop

/-- The front of a queue is there for a worker that has been promised it. -/
theorem Stocked.front (hstock : Stocked s) {next : Message → Point}
    (hop : code w (s.point w) = .popFront next) : (s.user w).mqueue.messages ≠ [] := by
  have hkeeps := code_keeps w (s.point w)
  rw [hop] at hkeeps
  have hlen := hstock w
  rw [hkeeps.2.1] at hlen
  intro hnil
  rw [hnil, List.length_nil] at hlen
  omega

/-- At rest no lock is held. -/
theorem Server.Resting.owner (hrest : s.Resting) (hrun : Run conn events s) (l : Lock) :
    s.owner l = none := by
  by_contra howner
  obtain ⟨v, hv⟩ := Option.ne_none_iff_exists'.mp howner
  have hrank (l : Lock) : l.rank ≤ 2 := by cases l <;> simp [Lock.rank]
  obtain ⟨u, m, hholds, hfree⟩ := hrun.safe.ordered.exists_unblocked hrank hv
  obtain ⟨hclient, hwait, hended⟩ := moves_of_locks ((hrun.safe.owner m u).mp hholds)
  obtain ⟨choice, hchoice, hstep⟩ := exists_step
    (fun l' hwants => Option.eq_none_iff_forall_ne_some.mpr (hfree l' hwants))
    (fun next timeout hop => absurd hop (hwait next timeout))
    (fun next hop => hrun.stocked.front hop) hended
  rw [hrest u choice hchoice hclient] at hstep
  cases hstep

/-- At rest a worker that does not wait for its client has ended, or it waits for a message and its
queue is empty. -/
theorem Server.Resting.point (hrest : s.Resting) (hrun : Run conn events s)
    (hclient : ¬AwaitsClient w (s.point w)) :
    s.point w = .ended ∨ ∃ r, s.point w = .dequeueWait r ∧ (s.user w).mqueue = ⟨0, []⟩ := by
  by_contra hneither
  rw [not_or, not_exists] at hneither
  obtain ⟨hended, hwaits⟩ := hneither
  obtain ⟨choice, hchoice, hstep⟩ : ∃ choice, choice ≠ .timeout ∧ (s.step w choice).isSome := by
    refine exists_step (fun l _ => hrest.owner hrun l) (fun next timeout hop => ?_)
      (fun next hop => hrun.stocked.front hop) fun hop => ?_
    · obtain ⟨r, hr⟩ : ∃ r, s.point w = .dequeueWait r := by
        cases hp : s.point w with
        | dequeueWait r => exact ⟨r, rfl⟩
        | _ =>
          rw [hp] at hop
          cases hop
      by_contra havail
      have hunposted : ¬s.Unposted w := by
        rintro ⟨v, hv⟩
        have howner := (hrun.safe.owner _ v).mpr (serves_of_posting (w := v) hv).1
        rw [hrest.owner hrun] at howner
        cases howner
      have hlen := hrun.stocked w
      rw [if_neg hunposted, hr, Nat.eq_zero_of_not_pos havail] at hlen
      refine hwaits r ⟨hr, ?_⟩
      have hmessages := List.length_eq_zero_iff.mp hlen
      have hzero := Nat.eq_zero_of_not_pos havail
      cases hqueue : (s.user w).mqueue with
      | mk avail messages =>
        rw [hqueue] at hmessages hzero
        rw [show avail = 0 from hzero, show messages = [] from hmessages]
    · cases hp : s.point w with
      | ended => exact hended hp
      | _ =>
        rw [hp] at hop
        cases hop
  rw [hrest w choice hchoice hclient] at hstep
  cases hstep

/-- At rest a user in a room waits for a message. -/
theorem Server.Resting.waits (hrest : s.Resting) (hrun : Run conn events s) {r : RoomId}
    (hmember : (s.stage w).member = some r) :
    ∃ r, s.point w = .dequeueWait r ∧ (s.user w).mqueue = ⟨0, []⟩ := by
  refine (hrest.point hrun fun hclient => ?_).resolve_left fun hended => ?_
  · rcases hclient with hstart | ⟨next, hop⟩
    · rw [Server.stage, hstart] at hmember
      cases hmember
    · have htyped := code_typed w (s.point w)
      rw [hop] at htyped
      rw [Server.stage, htyped.1] at hmember
      cases hmember
  · rw [Server.stage, hended] at hmember
    cases hmember

/-- At rest the client of a user in its room has been sent all that was broadcast there. -/
theorem Server.Resting.written_eq (hrest : s.Resting) (hrun : Run conn events s) {u : Worker}
    {r : RoomId} {before after : List (Notice RoomId Worker Message)}
    (hjoined : notices events = before ++ .subscribe u r :: after)
    (hmember : u ∈ (s.room r).members) : written (own u events) = ok :: topicLog r after := by
  obtain ⟨hentered, hmessages, -⟩ := hrun.segment_eq hjoined
  have hstage : (s.stage u).member = some r := (hrun.safe.member r u).mp hmember
  have hpending : s.pending r u = [] := by
    rw [Server.pending, if_pos hmember, Server.running, hrest.owner hrun]
  have hone : (subscriptions u (before ++ .subscribe u r :: after)).length ≤ 1 := by
    rw [← hjoined, subscriptions_notices, hentered.1]
    exact le_refl 1
  have htopic : (feed u (before ++ .subscribe u r :: after)).topic ≠ none := by
    rw [← hjoined, (hrun.fed u).topic, hstage]
    exact Option.some_ne_none r
  have hsegment : segment u r after = topicLog r after :=
    congrArg (topicLog r) (takeWhile_of_subscribed hone htopic)
  obtain ⟨r', hpoint, hempty⟩ := hrest.waits hrun hstage
  have htold := hrun.receiverTold u
  rw [hpoint] at htold
  have hqueued : dequeues (own u events) ++ (s.user u).mqueue.messages = enqueued u events :=
    hrun.queued u
  rw [hempty, List.append_nil] at hqueued
  rw [hpending, List.append_nil, hsegment] at hmessages
  rw [htold.2, hqueued, hmessages]

/-- Everything said is heard. When the server is at rest, no lock is held; every worker waits for
its client, has ended, or waits for a message with an empty queue; and the client of a user that is
still in its room has been sent `ok` and then every message broadcast in the room since it joined,
in the order of the broadcasts. -/
theorem resting_delivered (hrun : Run conn events s) (hrest : s.Resting) :
    (∀ l, s.owner l = none) ∧
      (∀ w, AwaitsClient w (s.point w) ∨ s.point w = .ended ∨
        ∃ r, s.point w = .dequeueWait r ∧ (s.user w).mqueue = ⟨0, []⟩) ∧
      ∀ u r before after, notices events = before ++ .subscribe u r :: after →
        u ∈ (s.room r).members → written (own u events) = ok :: topicLog r after := by
  refine ⟨hrest.owner hrun, fun w => ?_, fun u r before after => hrest.written_eq hrun⟩
  by_cases hclient : AwaitsClient w (s.point w)
  · exact .inl hclient
  · exact .inr (hrest.point hrun hclient)

end Rest

theorem resting_delivered_one_message :
    ∃ events s, Run twoClients events s ∧ s.Resting ∧
      written (own 0 events) = [ok, lobbyDelivery] := by
  have hexec : ((Server.initial twoClients).exec deliverToReceiver).map
      (fun moves => decide (notices moves.1 = [.subscribe 0 0, .publish 0 lobbyDelivery] ∧
        moves.2.point 0 = .dequeueWait 0 ∧ (moves.2.user 0).mqueue.avail = 0 ∧
        moves.2.point 1 = .senderLoop "eve".toList (some 0) ∧ 0 ∈ (moves.2.room 0).members)) =
      some true := by
    decide +kernel
  obtain ⟨⟨events, s⟩, hs, hreached⟩ := Option.map_eq_some_iff.mp hexec
  obtain ⟨hnotices, hreceiver, havail, hsender, hmember⟩ := of_decide_eq_true hreached
  have havail : (s.user 0).mqueue.avail = 0 := havail
  have hrun : Run twoClients ([] ++ events) s := Run.start.exec hs
  have hrest : s.Resting := by
    intro w choice hchoice hclient
    by_cases hw : w = 0
    · subst hw
      rw [Server.step, hreceiver]
      cases choice with
      | timeout => exact absurd rfl hchoice
      | proceed | member u => simp [code, Server.execute, havail]
    by_cases hw' : w = 1
    · subst hw'
      exact absurd (.inr ⟨_, by rw [hsender]; rfl⟩) hclient
    · have hothers : ∀ move ∈ deliverToReceiver, move.1 = 0 ∨ move.1 = 1 := by decide
      have hne : ∀ move ∈ deliverToReceiver, move.1 ≠ w := fun move hmove hmove' =>
        (hothers move hmove).elim (fun h => hw (hmove' ▸ h)) fun h => hw' (hmove' ▸ h)
      have hpoint := Server.exec_point hne hs
      exact absurd (.inl hpoint) hclient
  exact ⟨_, s, hrun, hrest,
    (resting_delivered hrun hrest).2.2 0 0 [] [.publish 0 lobbyDelivery] hnotices hmember⟩

end CsfAssignments.Chat
