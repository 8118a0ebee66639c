import CsfAssignments.ServerMoves

/-!
# Stages of a worker

What a program point says about its worker: whether its user exists, the locks it holds, the
room its user is in, and how far a broadcast has come. Every operation of the code changes the
stage in one way, which is the only fact about the code that the invariants need.
-/

namespace CsfAssignments.Chat

/-- `serves` is the member whose queue a broadcast works on, with the members before it, and
`owes` a broadcast with the members that have its message. -/
structure Stage where
  owns : Bool
  locks : List Lock
  member : Option RoomId
  serves : Option (Broadcast × List Worker × Worker)
  owes : Option (Broadcast × List Worker)

/-- A worker without a user. -/
def absent : Stage := ⟨false, [], none, none, none⟩

/-- A worker whose user nobody else knows. -/
def idle : Stage := ⟨true, [], none, none, none⟩

def stage (w : Worker) : Point → Stage
  | .start | .ended => absent
  | .findBody _ _ | .findRelease _ _ => ⟨true, [.server], none, none, none⟩
  | .broadcasting b visited => ⟨true, [.room b.room], none, none, some (b, visited)⟩
  | .enqueueAcquire b visited u =>
      ⟨true, [.room b.room], none, some (b, visited, u), some (b, visited)⟩
  | .enqueuePush b visited u =>
      ⟨true, [.queue u, .room b.room], none, some (b, visited, u), some (b, visited)⟩
  | .enqueuePost b visited u | .enqueueRelease b visited u =>
      ⟨true, [.queue u, .room b.room], none, some (b, visited, u), some (b, u :: visited)⟩
  | .broadcastRelease b => ⟨true, [.room b.room], none, none, none⟩
  | .addInsert r => ⟨true, [.room r], none, none, none⟩
  | .addRelease r => ⟨true, [.room r], some r, none, none⟩
  | .joinReply r | .dequeueWait r | .dequeueAcquire r | .deliver r _ | .removeAcquire r =>
      ⟨true, [], some r, none, none⟩
  | .dequeuePop r | .dequeueRelease r _ => ⟨true, [.queue w], some r, none, none⟩
  | .removeErase r => ⟨true, [.room r], some r, none, none⟩
  | .removeRelease r => ⟨true, [.room r], none, none, none⟩
  | _ => idle

/-- The stages at which an operation may stand and to which it leads. -/
def Operation.Typed (w : Worker) (σ : Stage) : Operation → Prop
  | .newUser next => σ = absent ∧ stage w next = idle
  | .deleteUser next => σ = idle ∧ stage w next = absent
  | .receive next => σ = idle ∧ ∀ result msg, stage w (next result msg) = idle
  | .send _ sent failed => σ.owes = none ∧ stage w sent = σ ∧ stage w failed = σ
  | .acquire l none next => stage w next = { σ with locks := l :: σ.locks } ∧
      ∀ r, l = .room r → σ.owes = none
  | .acquire l (some b) next => l = .room b.room ∧ σ = idle ∧
      stage w next = { σ with locks := [l], owes := some (b, []) }
  | .release l next => σ.locks = l :: (stage w next).locks ∧
      stage w next = { σ with locks := (stage w next).locks, serves := none } ∧
      ∀ r, l = .room r → σ.owes = none
  | .findRoom _ next => σ.owes = none ∧ σ.serves = none ∧ ∀ r, stage w (next r) = σ
  | .insertMember r next => σ = ⟨true, [.room r], none, none, none⟩ ∧
      stage w next = { σ with member := some r }
  | .eraseMember r next => σ = ⟨true, [.room r], some r, none, none⟩ ∧
      stage w next = { σ with member := none }
  | .nextMember r visited next last => ∃ b, b.room = r ∧
      σ = ⟨true, [.room r], none, none, some (b, visited)⟩ ∧
      (∀ u, stage w (next u) = { σ with serves := some (b, visited, u) }) ∧
      stage w last = { σ with owes := none }
  | .pushBack u b next => ∃ visited,
      σ = ⟨true, [.queue u, .room b.room], none, some (b, visited, u), some (b, visited)⟩ ∧
      stage w next = { σ with owes := some (b, u :: visited) }
  | .semPost u next => (∃ b visited, σ.serves = some (b, visited, u)) ∧ stage w next = σ
  | .semTimedwait next timeout => σ.owns = true ∧ σ.owes = none ∧ stage w next = σ ∧
      ∀ result, stage w (timeout result) = σ
  | .popFront next => σ.owns = true ∧ σ.owes = none ∧ ∀ msg, stage w (next msg) = σ
  | .halt => True

@[simp] theorem stage_login (w : Worker) (next : Login) : stage w next.point = idle := by
  cases next <;> rfl

@[simp] theorem stage_senderRequest (w : Worker) (username : List Char) (current : Option RoomId)
    (result : Result) (msg : Message) :
    stage w (senderRequest username current result msg) = idle := by
  unfold senderRequest
  cases current with
  | none =>
    dsimp only
    split_ifs <;> rfl
  | some r =>
    dsimp only
    split_ifs <;> rfl

@[simp] theorem stage_receiverRequest (w : Worker) (result : Result) (msg : Message) :
    stage w (receiverRequest result msg) = idle := by
  rw [receiverRequest]
  split_ifs <;> rfl

@[simp] theorem stage_found (w : Worker) (caller : Caller) (r : RoomId) :
    stage w (caller.found r) = idle := by
  cases caller <;> rfl

/-- The code respects the stages. -/
theorem code_typed (w : Worker) (p : Point) : (code w p).Typed w (stage w p) := by
  cases p with
  | start => exact ⟨rfl, rfl⟩
  | login =>
    refine ⟨rfl, fun result msg => ?_⟩
    dsimp only
    split_ifs
    · rfl
    · exact stage_login w _
  | handshake msg next => exact ⟨rfl, stage_login w next, rfl⟩
  | senderLoop username current => exact ⟨rfl, stage_senderRequest w username current⟩
  | findAcquire caller name => exact ⟨rfl, by simp⟩
  | findRelease caller r =>
    rw [code, Operation.Typed, stage_found]
    exact ⟨rfl, rfl, by simp⟩
  | enqueueRelease b visited u => exact ⟨rfl, rfl, by simp⟩
  | receiverJoin => exact ⟨rfl, stage_receiverRequest w⟩
  | enqueueAcquire b visited u => exact ⟨rfl, by simp⟩
  | enqueuePost b visited u => exact ⟨⟨b, visited, rfl⟩, rfl⟩
  | enqueuePush b visited u => exact ⟨visited, rfl, rfl⟩
  | broadcasting b visited => exact ⟨b, rfl, rfl, fun u => rfl, rfl⟩
  | dequeueWait r =>
    refine ⟨rfl, rfl, rfl, fun result => ?_⟩
    dsimp only
    split_ifs <;> rfl
  | dequeueAcquire r => exact ⟨rfl, by simp⟩
  | dequeueRelease r msg => exact ⟨rfl, rfl, by simp⟩
  | ended => trivial
  | _ => simp [code, Operation.Typed, stage, idle, absent]

section Moves
variable {s t : Server} {w : Worker} {op : Operation} {es : List Event} {next : Point}
  {σ : Stage}

theorem Move.locks_cases (htyped : op.Typed w σ) (hmove : Move w s op es t next) :
    (t.owner = s.owner ∧ (stage w next).locks = σ.locks) ∨
      (∃ l, s.owner l = none ∧ t = s.setOwner l (some w) ∧ (stage w next).locks = l :: σ.locks) ∨
      ∃ l, t = s.setOwner l none ∧ σ.locks = l :: (stage w next).locks := by
  cases hmove with
  | @acquire l _ hfree => exact .inr (.inl ⟨l, hfree, rfl, by rw [htyped.1]⟩)
  | @broadcast l b _ hfree =>
    obtain ⟨-, rfl, hnext⟩ := htyped
    exact .inr (.inl ⟨l, hfree, rfl, by rw [hnext]; rfl⟩)
  | @release l => exact .inr (.inr ⟨l, rfl, htyped.1⟩)
  | nextMember _ _ =>
    obtain ⟨b, -, rfl, hnext, -⟩ := htyped
    exact .inl ⟨rfl, by rw [hnext]⟩
  | lastMember _ =>
    obtain ⟨b, -, rfl, -, hlast⟩ := htyped
    exact .inl ⟨rfl, by rw [hlast]⟩
  | pushBack =>
    obtain ⟨visited, rfl, hnext⟩ := htyped
    exact .inl ⟨rfl, by rw [hnext]⟩
  | _ => exact .inl ⟨rfl, by simp_all [Operation.Typed, idle, absent]⟩

/-- Nobody enters or leaves a room. -/
def Steady (es : List Event) : Prop := ∀ e ∈ es, ∀ u r, e ≠ .joined u r ∧ e ≠ .left u r

theorem steady_nil : Steady [] := fun _ he => absurd he List.not_mem_nil

theorem steady_singleton {e : Event} (he : ∀ u r, e ≠ .joined u r ∧ e ≠ .left u r) :
    Steady [e] := by
  intro e' he' u r
  rw [List.mem_singleton.mp he']
  exact he u r

/-- A user enters a room or leaves it with the lock of the room. -/
theorem Move.member_cases (htyped : op.Typed w σ) (hmove : Move w s op es t next) :
    (Steady es ∧ (stage w next).member = σ.member ∧
        ((∀ r, (t.room r).members = (s.room r).members) ∨
          ∃ name, t = s.createRoom name)) ∨
      (∃ r, es = [.joined w r] ∧ .room r ∈ σ.locks ∧ σ.member = none ∧
        (stage w next).member = some r ∧ (stage w next).owes = none ∧
        t = s.setMembers r ((s.room r).members.insert w)) ∨
      ∃ r, es = [.left w r] ∧ .room r ∈ σ.locks ∧ σ.member = some r ∧
        (stage w next).member = none ∧ σ.owes = none ∧
        t = s.setMembers r ((s.room r).members.erase w) := by
  cases hmove with
  | @insertMember r =>
    obtain ⟨rfl, hnext⟩ := htyped
    exact .inr (.inl ⟨r, rfl, List.mem_singleton_self _, rfl, by rw [hnext], by rw [hnext], rfl⟩)
  | @eraseMember r =>
    obtain ⟨rfl, hnext⟩ := htyped
    exact .inr (.inr ⟨r, rfl, List.mem_singleton_self _, rfl, by rw [hnext], rfl, rfl⟩)
  | @createRoom name _ _ => exact .inl ⟨steady_nil, by rw [htyped.2.2], .inr ⟨name, rfl⟩⟩
  | acquire _ => exact .inl ⟨steady_nil, by rw [htyped.1], .inl fun _ => rfl⟩
  | broadcast _ =>
    exact .inl ⟨steady_singleton (by simp), by rw [htyped.2.2], .inl fun _ => rfl⟩
  | release => exact .inl ⟨steady_nil, by rw [htyped.2.1], .inl fun _ => rfl⟩
  | nextMember _ _ =>
    obtain ⟨b, -, rfl, hnext, -⟩ := htyped
    exact .inl ⟨steady_nil, by rw [hnext], .inl fun _ => rfl⟩
  | lastMember _ =>
    obtain ⟨b, -, rfl, -, hlast⟩ := htyped
    exact .inl ⟨steady_nil, by rw [hlast], .inl fun _ => rfl⟩
  | pushBack =>
    obtain ⟨visited, rfl, hnext⟩ := htyped
    exact .inl ⟨steady_singleton (by simp), by rw [hnext], .inl fun _ => rfl⟩
  | receive _ =>
    exact .inl ⟨steady_singleton (by simp), by rw [htyped.2, htyped.1], .inl fun _ => rfl⟩
  | sent _ => exact .inl ⟨steady_singleton (by simp), by rw [htyped.2.1], .inl fun _ => rfl⟩
  | popFront _ => exact .inl ⟨steady_singleton (by simp), by rw [htyped.2.2], .inl fun _ => rfl⟩
  | _ =>
    exact .inl ⟨steady_nil, by simp_all [Operation.Typed, idle, absent], .inl fun _ => rfl⟩

theorem alive_setQueue (s : Server) (u : Worker) (mqueue : MessageQueue) (v : Worker) :
    ((s.setQueue u mqueue).user v).alive = (s.user v).alive := by
  by_cases hv : v = u
  · subst hv
    simp
  · simp [hv]

/-- A worker creates and deletes its own user only. -/
theorem Move.alive_cases (htyped : op.Typed w σ) (hmove : Move w s op es t next) :
    (∀ u, u ≠ w → (t.user u).alive = (s.user u).alive) ∧
      ((s.user w).alive = σ.owns → (t.user w).alive = (stage w next).owns) := by
  cases hmove with
  | newUser => exact ⟨fun u hu => by simp [hu], fun _ => by simp [htyped.2, idle]⟩
  | deleteUser => exact ⟨fun u hu => by simp [hu], fun _ => by simp [htyped.2, absent]⟩
  | acquire _ => exact ⟨fun _ _ => rfl, fun h => by rw [htyped.1]; exact h⟩
  | broadcast _ => exact ⟨fun _ _ => rfl, fun h => by rw [htyped.2.2]; exact h⟩
  | release => exact ⟨fun _ _ => rfl, fun h => by rw [htyped.2.1]; exact h⟩
  | nextMember _ _ =>
    obtain ⟨b, -, rfl, hnext, -⟩ := htyped
    exact ⟨fun _ _ => rfl, fun h => by rw [hnext]; exact h⟩
  | lastMember _ =>
    obtain ⟨b, -, rfl, -, hlast⟩ := htyped
    exact ⟨fun _ _ => rfl, fun h => by rw [hlast]; exact h⟩
  | pushBack =>
    obtain ⟨visited, rfl, hnext⟩ := htyped
    exact ⟨fun v _ => alive_setQueue s _ _ v, fun h => by rw [alive_setQueue, hnext]; exact h⟩
  | semPost =>
    exact ⟨fun v _ => alive_setQueue s _ _ v, fun h => by rw [alive_setQueue, htyped.2, h]⟩
  | semWait _ =>
    exact ⟨fun v _ => alive_setQueue s _ _ v, fun h => by rw [alive_setQueue, htyped.2.2.1, h]⟩
  | popFront _ =>
    exact ⟨fun v _ => alive_setQueue s _ _ v, fun h => by rw [alive_setQueue, htyped.2.2, h]⟩
  | _ => exact ⟨fun _ _ => rfl, fun h => by simp_all [Operation.Typed, idle]⟩

/-- A broadcast serves members it has found under the lock. -/
theorem Move.serves_cases (htyped : op.Typed w σ) (hmove : Move w s op es t next) {b : Broadcast}
    {visited : List Worker} {u : Worker} (h : (stage w next).serves = some (b, visited, u)) :
    t.room = s.room ∧
      (σ.serves = some (b, visited, u) ∨ (u ∈ (s.room b.room).members ∧ u ∉ visited)) := by
  cases hmove with
  | acquire _ => exact ⟨rfl, .inl (by rwa [htyped.1] at h)⟩
  | broadcast _ =>
    obtain ⟨-, rfl, hnext⟩ := htyped
    exact ⟨rfl, .inl (by rwa [hnext] at h)⟩
  | release =>
    rw [htyped.2.1] at h
    cases h
  | createRoom _ =>
    rw [htyped.2.2, htyped.2.1] at h
    cases h
  | insertMember | eraseMember =>
    obtain ⟨rfl, hnext⟩ := htyped
    rw [hnext] at h
    cases h
  | nextMember hmember hvisited =>
    obtain ⟨b, rfl, rfl, hnext, -⟩ := htyped
    rw [hnext] at h
    cases h
    exact ⟨rfl, .inr ⟨hmember, hvisited⟩⟩
  | lastMember _ =>
    obtain ⟨b, -, rfl, -, hlast⟩ := htyped
    exact ⟨rfl, .inl (by rwa [hlast] at h)⟩
  | pushBack =>
    obtain ⟨visited, rfl, hnext⟩ := htyped
    exact ⟨rfl, .inl (by rwa [hnext] at h)⟩
  | _ => exact ⟨rfl, .inl (by simp_all [Operation.Typed, idle, absent])⟩

end Moves

end CsfAssignments.Chat
