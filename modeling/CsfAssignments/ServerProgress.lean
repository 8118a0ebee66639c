import CsfAssignments.ServerSafety
import Mathlib.Algebra.BigOperators.Ring.Finset
import Mathlib.Algebra.Order.BigOperators.Group.Finset

/-!
# The server makes progress

Without new clients and without timeouts the workers that have started make only finitely many
moves. Every program point has a weight that its operation lowers; a broadcast pays for the
members that it may still visit, a message in a queue for its delivery, and the bytes of a client
for the requests in them.
-/

namespace CsfAssignments.Chat
open RobustIO

section Input

/-- The results of `read` that are left, and the bytes in them. -/
def incomingSize : List ReadResult → ℕ
  | [] => 0
  | .data bytes :: incoming => bytes.length + 1 + incomingSize incoming
  | .interrupted :: incoming | .failed :: incoming => 1 + incomingSize incoming

/-- What a client still sends. -/
def inputSize (rp : Rio) : ℕ := rp.unread.length + incomingSize rp.incoming

theorem refill_size {n : ℕ} {incoming : List ReadResult} {bytes : Option (List Char)} {rp : Rio}
    (h : refill n incoming = (bytes, rp)) :
    inputSize rp + (bytes.getD []).length ≤ incomingSize incoming := by
  induction incoming with
  | nil =>
    cases h
    rfl
  | cons result incoming ih =>
    cases result with
    | interrupted =>
      have hle := ih h
      rw [incomingSize]
      omega
    | failed =>
      cases h
      simp [inputSize, incomingSize]
    | data bytes =>
      cases h
      simp only [inputSize, incomingSize, Option.getD_some, List.length_take, List.length_drop]
      omega

theorem rioRead_size {rp rp' : Rio} {n : ℕ} {bytes : Option (List Char)}
    (h : rioRead rp n = (bytes, rp')) :
    inputSize rp' + (bytes.getD []).length ≤ inputSize rp := by
  obtain ⟨unread, incoming⟩ := rp
  cases unread with
  | nil =>
    exact (refill_size h).trans (Nat.le_add_left _ _)
  | cons c unread =>
    cases h
    simp only [inputSize, Option.getD_some, List.length_take, List.length_drop]
    omega

theorem readLoop_size {rounds : ℕ} {rp rp' : Rio} {usrbuf : List Char}
    {line : Option (List Char)} (h : readLoop rounds rp usrbuf = (line, rp')) :
    inputSize rp' ≤ inputSize rp ∧
      ∀ bytes, line = some bytes → inputSize rp' + bytes.length ≤ inputSize rp + usrbuf.length := by
  induction rounds generalizing rp usrbuf with
  | zero =>
    cases h
    exact ⟨le_rfl, fun bytes hbytes => by cases hbytes; rfl⟩
  | succ rounds ih =>
    rw [readLoop] at h
    split at h
    · rename_i rp₁ hread
      have hle := rioRead_size hread
      cases h
      refine ⟨by omega, ?_⟩
      rintro bytes ⟨⟩
    · rename_i rp₁ hread
      have hle := rioRead_size hread
      cases h
      exact ⟨by omega, fun bytes hbytes => by cases hbytes; omega⟩
    · rename_i c more rp₁ hread
      have hle := rioRead_size hread
      rw [Option.getD_some, List.length_cons] at hle
      split_ifs at h with hc
      · cases h
        refine ⟨by omega, fun bytes hbytes => ?_⟩
        cases hbytes
        rw [List.length_append, List.length_singleton]
        omega
      · obtain ⟨hle', hbytes⟩ := ih h
        refine ⟨by omega, fun bytes heq => ?_⟩
        have hlen := hbytes bytes heq
        rw [List.length_append, List.length_singleton] at hlen
        omega

/-- A connection that has not ended has received at least one byte. -/
theorem Connection.receive_size (conn : Connection) (m : Message) :
    inputSize (conn.receive m).2.2.fdbuf ≤ inputSize conn.fdbuf ∧
      ((conn.receive m).2.2.lastResult ≠ .eofOrError →
        inputSize (conn.receive m).2.2.fdbuf < inputSize conn.fdbuf) := by
  rcases hread : rioReadlineb conn.fdbuf maxLen with ⟨line, fdbuf⟩
  obtain ⟨hle, hline⟩ := readLoop_size hread
  rcases line with _ | _ | ⟨c, line⟩
  · simp [Connection.receive, hread, hle]
  · simp [Connection.receive, hread, hle]
  · have hlen := hline _ rfl
    rw [List.length_cons, List.length_nil] at hlen
    rw [conn.receive_read hread (List.cons_ne_nil c line) m]
    exact ⟨hle, fun _ => by dsimp only; omega⟩

end Input

section Weights

/-- The moves up to the next one of the client, and one for a wait. -/
def Login.weight : Login → ℕ
  | .reply _ next => next.weight + 1
  | .throw => 1
  | .sender _ | .receiver _ => 3

/-- The members that a broadcast among `n` workers may still visit. -/
def unvisited (n : ℕ) (visited : List Worker) : ℕ :=
  ((Finset.range n).filter (· ∉ visited)).card

/-- A bound on the moves of a worker from a point, among `n` workers. -/
def Point.weight (n : ℕ) : Point → ℕ
  | .start | .ended => 0
  | .deleteUser => 1
  | .senderQuit | .receiverRefuse _ => 2
  | .login | .senderLoop _ _ | .receiverJoin => 3
  | .handshake _ next => next.weight + 1
  | .senderReply _ _ _ => 4
  | .broadcastRelease _ => 5
  | .broadcasting _ visited => 10 * unvisited n visited + 6
  | .enqueueRelease _ visited u => 10 * unvisited n (u :: visited) + 7
  | .enqueuePost _ visited u => 10 * unvisited n (u :: visited) + 13
  | .enqueuePush _ visited u => 10 * unvisited n (u :: visited) + 14
  | .enqueueAcquire _ visited u => 10 * unvisited n (u :: visited) + 15
  | .broadcastAcquire _ => 10 * n + 7
  | .removeRelease _ => 2
  | .removeErase _ => 3
  | .removeAcquire _ | .dequeueWait _ => 4
  | .deliver _ _ | .joinReply _ => 5
  | .dequeueRelease _ _ | .addRelease _ => 6
  | .dequeuePop _ | .addInsert _ => 7
  | .dequeueAcquire _ | .addAcquire _ => 8
  | .findRelease _ _ => 9
  | .findBody _ _ => 10
  | .findAcquire _ _ => 11

/-- What a byte of a client pays for. -/
def requestWeight (n : ℕ) : ℕ := 10 * n + 20

/-- What an operation does to the weight of its worker. A post pays for the delivery of the
message, and a byte of the client for its request. -/
def Operation.Falls (n weight : ℕ) : Operation → Prop
  | .newUser _ | .halt => True
  | .deleteUser next | .acquire _ _ next | .release _ next | .insertMember _ next
  | .eraseMember _ next | .pushBack _ _ next => next.weight n < weight
  | .receive next => (∀ msg, (next .eofOrError msg).weight n < weight) ∧
      ∀ result msg, (next result msg).weight n < weight + requestWeight n
  | .send _ sent failed => sent.weight n < weight ∧ failed.weight n < weight
  | .findRoom _ next => ∀ r, (next r).weight n < weight
  | .nextMember _ visited next last => last.weight n < weight ∧
      ∀ u < n, u ∉ visited → (next u).weight n < weight
  | .semPost _ next => next.weight n + 5 < weight
  | .semTimedwait next _ => next.weight n < weight + 5
  | .popFront next => ∀ msg, (next msg).weight n < weight

theorem unvisited_nil (n : ℕ) : unvisited n [] = n := by
  simp [unvisited]

theorem unvisited_cons {n : ℕ} {visited : List Worker} {u : Worker} (hu : u < n)
    (hvisited : u ∉ visited) : unvisited n (u :: visited) < unvisited n visited := by
  refine Finset.card_lt_card ⟨fun v hv => ?_, fun hsubset => ?_⟩
  · simp only [Finset.mem_filter, List.mem_cons, not_or] at hv ⊢
    exact ⟨hv.1, hv.2.2⟩
  · have hmem := hsubset (Finset.mem_filter.mpr ⟨Finset.mem_range.mpr hu, hvisited⟩)
    exact (Finset.mem_filter.mp hmem).2 List.mem_cons_self

theorem Login.weight_point (n : ℕ) (next : Login) : next.point.weight n = next.weight := by
  cases next <;> rfl

theorem Login.one_le_weight (next : Login) : 1 ≤ next.weight := by
  cases next <;> simp [weight]

theorem weight_login (result : Result) (loginMes : Message) :
    (login result loginMes).weight ≤ 6 := by
  have hchoose : (chooseSession loginMes).weight ≤ 4 := by
    unfold chooseSession
    split_ifs <;> simp [Login.weight]
  have hcheck : (checkLogin loginMes).weight ≤ 5 := by
    unfold checkLogin
    split_ifs
    · simp [Login.weight]
    · exact Nat.succ_le_succ hchoose
    · simp [Login.weight]
  unfold login
  split_ifs
  · simp only [Login.weight]
    omega
  · omega

theorem weight_senderRequest (n : ℕ) (username : List Char) (current : Option RoomId)
    (result : Result) (msg : Message) :
    (senderRequest username current result msg).weight n ≤ 10 * n + 11 := by
  unfold senderRequest
  cases current with
  | none =>
    dsimp only
    split_ifs <;> simp only [Point.weight] <;> omega
  | some r =>
    dsimp only
    split_ifs <;> simp only [Point.weight] <;> omega

theorem weight_receiverRequest (n : ℕ) (result : Result) (msg : Message) :
    (receiverRequest result msg).weight n ≤ 11 := by
  unfold receiverRequest
  split_ifs <;> simp [Point.weight]

/-- Every operation of the code lowers the weight of its worker. -/
theorem code_falls (n : ℕ) (w : Worker) (p : Point) : (code w p).Falls n (p.weight n) := by
  cases p with
  | login =>
    refine ⟨fun msg => by simp [Point.weight], fun result msg => ?_⟩
    have hle := weight_login result msg
    dsimp only
    split_ifs
    · simp only [Point.weight, requestWeight]
      omega
    · rw [Login.weight_point]
      simp only [Point.weight, requestWeight]
      omega
  | handshake msg next =>
    have hpoint := next.weight_point n
    have hpos := next.one_le_weight
    exact ⟨hpoint ▸ Nat.lt_succ_self _, Nat.lt_succ_of_le hpos⟩
  | senderLoop username current =>
    refine ⟨fun msg => by simp [senderRequest, Point.weight], fun result msg => ?_⟩
    have hle := weight_senderRequest n username current result msg
    show _ < 3 + requestWeight n
    rw [requestWeight]
    omega
  | receiverJoin =>
    refine ⟨fun msg => by simp [receiverRequest, Point.weight], fun result msg => ?_⟩
    have hle := weight_receiverRequest n result msg
    show _ < 3 + requestWeight n
    rw [requestWeight]
    omega
  | findRelease caller r => cases caller <;> simp [code, Operation.Falls, Caller.found, Point.weight]
  | broadcasting b visited =>
    refine ⟨by simp [Point.weight], fun u hu hvisited => ?_⟩
    have hlt := unvisited_cons hu hvisited
    simp only [Point.weight]
    omega
  | broadcastAcquire b => simp [code, Operation.Falls, Point.weight, unvisited_nil]
  | _ => simp [code, Operation.Falls, Point.weight]

end Weights

section Work
variable {n : ℕ} {s t s' : Server} {w : Worker} {op : Operation} {es : List Event} {next : Point}

namespace Server

/-- What a worker and its client still have to do. -/
def share (n : ℕ) (s : Server) (w : Worker) : ℕ :=
  (s.point w).weight n + 5 * (s.user w).mqueue.avail +
    requestWeight n * inputSize (s.conn w).fdbuf

/-- What `n` workers and their clients still have to do. -/
def work (n : ℕ) (s : Server) : ℕ := ∑ w ∈ Finset.range n, s.share n w

end Server

/-- The work gets less when a worker has less to do, even after a payment to one other. -/
private theorem sum_lt_of_payment {f f' : ℕ → ℕ} {u k : ℕ} (hw : w < n)
    (hothers : ∀ v, v ≠ w → f' v ≤ f v + if v = u then k else 0)
    (hself : f' w + k < f w + if w = u then k else 0) :
    ∑ v ∈ Finset.range n, f' v < ∑ v ∈ Finset.range n, f v := by
  have hmem := Finset.mem_range.mpr hw
  rw [← Finset.add_sum_erase _ f hmem, ← Finset.add_sum_erase _ f' hmem]
  have hle : ∑ v ∈ (Finset.range n).erase w, f' v ≤
      ∑ v ∈ (Finset.range n).erase w, (f v + if v = u then k else 0) :=
    Finset.sum_le_sum fun v hv => hothers v (Finset.ne_of_mem_erase hv)
  rw [Finset.sum_add_distrib, Finset.sum_ite_eq'] at hle
  by_cases hu : w = u
  · subst hu
    rw [if_neg (Finset.notMem_erase w _)] at hle
    rw [if_pos rfl] at hself
    omega
  · rw [if_neg hu] at hself
    split_ifs at hle <;> omega

/-- Only a post adds to what another worker has to do. -/
theorem Move.share_le {v : Worker} (hmove : Move w s op es t next) (hv : v ≠ w) :
    (t.goto w next).share n v ≤
      s.share n v + match op with
        | .semPost u _ => if v = u then 5 else 0
        | _ => 0 := by
  have hpoint : (t.goto w next).point v = s.point v := by
    rw [Server.goto_point, Function.update_of_ne hv, hmove.point_eq]
  have hconn : (t.goto w next).conn v = s.conn v := by
    cases hmove <;> simp [Function.update_of_ne hv]
  rw [Server.share, Server.share, hpoint, hconn, Server.goto_user]
  cases hmove with
  | newUser | deleteUser | semWait _ | popFront _ => simp [Function.update_of_ne hv]
  | @pushBack u b _ =>
    by_cases hu : v = u
    · subst hu
      simp
    · simp [Function.update_of_ne hu]
  | @semPost u _ =>
    by_cases hu : v = u
    · subst hu
      simp
      omega
    · simp [Function.update_of_ne hu]
  | _ => exact le_refl _

/-- A move of a worker that is no wait and no new client lowers the work. -/
theorem Move.work_lt (hw : w < n) (hfalls : op.Falls n ((s.point w).weight n))
    (hmembers : ∀ r, ∀ u ∈ (s.room r).members, u < n) (hnew : ∀ next, op ≠ .newUser next)
    (hwait : ∀ next timeout, op ≠ .semTimedwait next timeout) (hmove : Move w s op es t next) :
    (t.goto w next).work n < s.work n := by
  have hothers (v : Worker) (hv : v ≠ w) := hmove.share_le (n := n) hv
  have hself : (t.goto w next).share n w = next.weight n + 5 * (t.user w).mqueue.avail +
      requestWeight n * inputSize (t.conn w).fdbuf := by
    rw [Server.share, Server.goto_point, Function.update_self]
    rfl
  -- all moves but a post leave the others as they are
  have hquiet (hle : ∀ v, v ≠ w → (t.goto w next).share n v ≤ s.share n v)
      (hlt : (t.goto w next).share n w < s.share n w) : (t.goto w next).work n < s.work n :=
    sum_lt_of_payment (u := w) (k := 0) hw (fun v hv => (hle v hv).trans (Nat.le_add_right _ _))
      (by simpa using hlt)
  have hsame (hle : ∀ v, v ≠ w → (t.goto w next).share n v ≤ s.share n v)
      (havail : (t.user w).mqueue.avail = (s.user w).mqueue.avail)
      (hconn : (t.conn w).fdbuf = (s.conn w).fdbuf)
      (hlt : next.weight n < (s.point w).weight n) : (t.goto w next).work n < s.work n :=
    hquiet hle (by rw [hself, Server.share, havail, hconn]; omega)
  cases hmove with
  | newUser => exact absurd rfl (hnew _)
  | semWait _ | timeout => exact absurd rfl (hwait _ _)
  | @receive next received msg conn hreceive =>
    obtain ⟨hle, hlt⟩ := (s.conn w).receive_size ⟨[], []⟩
    rw [hreceive] at hle hlt
    dsimp only at hle hlt
    refine hquiet hothers ?_
    rw [hself, Server.share, Server.setConn_conn, Function.update_self, Server.setConn_user]
    by_cases heof : conn.lastResult = .eofOrError
    · have hpaid := Nat.mul_le_mul_left (requestWeight n) hle
      have hnext := hfalls.1 msg
      rw [heof]
      omega
    · have hpaid := Nat.mul_le_mul_left (requestWeight n) (hlt heof)
      have hnext := hfalls.2 conn.lastResult msg
      rw [Nat.mul_succ] at hpaid
      omega
  | sent hsend => exact hsame hothers rfl (by simpa using Connection.send_fdbuf hsend) hfalls.1
  | notSent hsend => exact hsame hothers rfl (by simpa using Connection.send_fdbuf hsend) hfalls.2
  | findRoom _ => exact hsame hothers rfl rfl (hfalls _)
  | createRoom _ => exact hsame hothers rfl rfl (hfalls _)
  | nextMember hmember hvisited =>
    exact hsame hothers rfl rfl (hfalls.2 _ (hmembers _ _ hmember) hvisited)
  | lastMember _ => exact hsame hothers rfl rfl hfalls.1
  | popFront _ => exact hsame hothers (by simp) rfl (hfalls _)
  | deleteUser => exact hsame hothers (by simp) rfl hfalls
  | @pushBack u b next =>
    refine hsame hothers ?_ rfl hfalls
    by_cases hu : w = u
    · subst hu
      simp
    · simp [Function.update_of_ne hu]
  | @semPost u next =>
    refine sum_lt_of_payment (u := u) (k := 5) hw hothers ?_
    have hfalls : next.weight n + 5 < (s.point w).weight n := hfalls
    rw [hself, Server.share, Server.setQueue_conn]
    by_cases hu : w = u
    · subst hu
      rw [if_pos rfl, Server.setQueue_user, Function.update_self]
      dsimp only
      omega
    · rw [if_neg hu, Server.setQueue_user, Function.update_of_ne hu]
      omega
  | _ => exact hsame hothers rfl rfl hfalls

/-- A wait that goes on takes a message that has been paid for. -/
theorem step_semWait {choice : Choice} {timeout : Result → Point}
    (hop : code w (s.point w) = .semTimedwait next timeout) (hchoice : choice ≠ .timeout)
    (hstep : s.step w choice = some (es, s')) : 0 < (s.user w).mqueue.avail ∧
      s' = (s.setQueue w { (s.user w).mqueue with avail := (s.user w).mqueue.avail - 1 }).goto w
        next := by
  rw [Server.step, hop] at hstep
  cases choice with
  | timeout => exact absurd rfl hchoice
  | proceed | member u =>
    simp only [Server.execute] at hstep
    split_ifs at hstep with havail
    cases hstep
    exact ⟨havail, rfl⟩

/-- No worker starts twice. -/
theorem Move.next_ne_start {p : Point} (hmove : Move w s (code w p) es t next) :
    next ≠ .start := by
  cases p with
  | login =>
    rw [code] at hmove
    cases hmove with
    | @receive _ _ msg conn _ =>
      dsimp only
      split_ifs
      · rintro ⟨⟩
      · cases login conn.lastResult msg <;> rintro ⟨⟩
  | handshake msg login =>
    rw [code] at hmove
    cases hmove with
    | sent _ => cases login <;> rintro ⟨⟩
    | notSent _ => rintro ⟨⟩
  | senderLoop username current =>
    rw [code] at hmove
    cases hmove
    unfold senderRequest
    cases current with
    | none =>
      dsimp only
      split_ifs <;> rintro ⟨⟩
    | some r =>
      dsimp only
      split_ifs <;> rintro ⟨⟩
  | receiverJoin =>
    rw [code] at hmove
    cases hmove
    unfold receiverRequest
    split_ifs <;> rintro ⟨⟩
  | findRelease caller r =>
    rw [code] at hmove
    cases hmove
    cases caller <;> rintro ⟨⟩
  | dequeueWait r =>
    rw [code] at hmove
    cases hmove with
    | semWait _ => rintro ⟨⟩
    | timeout =>
      dsimp only
      split_ifs <;> rintro ⟨⟩
  | _ =>
    rw [code] at hmove
    cases hmove <;> rintro ⟨⟩

/-- Every move but a new client and a timeout lowers the work. -/
theorem step_work_lt {choice : Choice} (hw : w < n)
    (hmembers : ∀ r, ∀ u ∈ (s.room r).members, u < n) (hstart : s.point w ≠ .start)
    (hchoice : choice ≠ .timeout) (hstep : s.step w choice = some (es, s')) :
    s'.work n < s.work n := by
  have hfalls := code_falls n w (s.point w)
  by_cases hwait : ∃ next timeout, code w (s.point w) = .semTimedwait next timeout
  · obtain ⟨next, timeout, hop⟩ := hwait
    rw [hop] at hfalls
    obtain ⟨havail, rfl⟩ := step_semWait hop hchoice hstep
    have hmove : Move w s (.semTimedwait next timeout) []
        (s.setQueue w { (s.user w).mqueue with avail := (s.user w).mqueue.avail - 1 }) next :=
      .semWait havail
    refine sum_lt_of_payment (u := w) (k := 0) hw
      (fun v hv => (hmove.share_le hv).trans (by simp)) ?_
    have hfalls : next.weight n < (s.point w).weight n + 5 := hfalls
    simp only [Server.share, Server.goto_point, Server.goto_user, Server.goto_conn,
      Server.setQueue_user, Server.setQueue_conn, Function.update_self]
    omega
  · obtain ⟨t, next, hmove, rfl⟩ := step_move hstep
    exact hmove.work_lt hw hfalls hmembers (fun _ hop => hstart (start_of_newUser hop))
      fun next timeout hop => hwait ⟨next, timeout, hop⟩

end Work

section Runs
variable {conn : Worker → Connection} {events : List Event} {s : Server}

/-- Only finitely many workers have started. -/
theorem Run.started_lt (hrun : Run conn events s) : ∃ n, ∀ w, s.point w ≠ .start → w < n := by
  induction hrun with
  | start => exact ⟨0, fun w hw => absurd rfl hw⟩
  | step v choice _ hstep ih =>
    obtain ⟨n, hn⟩ := ih
    refine ⟨max n (v + 1), fun w hw => ?_⟩
    by_cases hv : v = w
    · exact hv ▸ lt_of_lt_of_le (Nat.lt_succ_self v) (le_max_right _ _)
    · rw [step_point_of_ne hv hstep] at hw
      exact lt_of_lt_of_le (hn w hw) (le_max_left _ _)

/-- A member of a room has started. -/
theorem Safe.started {r : RoomId} {u : Worker} (hsafe : Safe s) (hu : u ∈ (s.room r).members) :
    s.point u ≠ .start := by
  intro hstart
  have hmember := (hsafe.member r u).mp hu
  rw [Server.stage, hstart] at hmember
  cases hmember

/-- A move starts no other worker. -/
theorem step_started {s' : Server} {w : Worker} {choice : Choice} {es : List Event}
    (hstart : s.point w ≠ .start) (hstep : s.step w choice = some (es, s')) (v : Worker) :
    s'.point v ≠ .start ↔ s.point v ≠ .start := by
  by_cases hv : w = v
  · subst hv
    obtain ⟨t, next, hmove, rfl⟩ := step_move hstep
    rw [Server.goto_point, Function.update_self]
    exact iff_of_true hmove.next_ne_start hstart
  · rw [step_point_of_ne hv hstep]

private theorem exec_length_le {n : ℕ} {schedule : List (Worker × Choice)} {es : List Event}
    {s' : Server} (hrun : Run conn events s) (hn : ∀ w, s.point w ≠ .start → w < n)
    (hmoves : ∀ move ∈ schedule, s.point move.1 ≠ .start ∧ move.2 ≠ .timeout)
    (hexec : s.exec schedule = some (es, s')) : schedule.length ≤ s.work n := by
  induction schedule generalizing s events es with
  | nil => exact Nat.zero_le _
  | cons move schedule ih =>
    obtain ⟨w, choice⟩ := move
    obtain ⟨⟨hstart, hchoice⟩, hrest⟩ := List.forall_mem_cons.mp hmoves
    obtain ⟨es₁, s₁, more, hstep, hmore, rfl⟩ := Server.exec_cons hexec
    have hlt := step_work_lt (hn w hstart) (fun r u hu => hn u (hrun.safe.started hu)) hstart
      hchoice hstep
    have hstarted := step_started hstart hstep
    have hle := ih (.step w choice hrun hstep) (fun v hv => hn v ((hstarted v).mp hv))
      (fun move hmove => ⟨(hstarted _).mpr (hrest move hmove).1, (hrest move hmove).2⟩) hmore
    rw [List.length_cons]
    omega

/-- The moves of the workers that have started, other than a wait that times out, end after a
bounded number. -/
theorem Run.drains (hrun : Run conn events s) :
    ∃ bound, ∀ schedule es s',
      (∀ move ∈ schedule, s.point move.1 ≠ .start ∧ move.2 ≠ .timeout) →
        s.exec schedule = some (es, s') → schedule.length ≤ bound := by
  obtain ⟨n, hn⟩ := hrun.started_lt
  exact ⟨s.work n, fun schedule es s' hmoves hexec => exec_length_le hrun hn hmoves hexec⟩

end Runs

end CsfAssignments.Chat
