import CsfAssignments.ServerStages

/-!
# The rooms of the server

Every name in the map has one `Room` with this name, every pointer to a room comes from the
map, and no entry of the map changes.
-/

namespace CsfAssignments.Chat

/-- The room a worker has a pointer to. -/
def Point.room : Point → Option RoomId
  | .senderLoop _ current | .senderReply _ _ current => current
  | .findRelease _ r | .addAcquire r | .addInsert r | .addRelease r | .joinReply r
  | .dequeueWait r | .dequeueAcquire r | .dequeuePop r | .dequeueRelease r _ | .deliver r _
  | .removeAcquire r | .removeErase r | .removeRelease r => some r
  | .broadcastAcquire b | .broadcasting b _ | .enqueueAcquire b _ _ | .enqueuePush b _ _
  | .enqueuePost b _ _ | .enqueueRelease b _ _ | .broadcastRelease b => some b.room
  | _ => none

/-- The arguments of the call of `broadcast_message` a worker is at. -/
def Point.call : Point → Option Broadcast
  | .broadcastAcquire b => some b
  | _ => none

theorem room_of_member {w : Worker} {p : Point} {r : RoomId} (h : (stage w p).member = some r) :
    p.room = some r := by
  cases p <;> simp_all [stage, Point.room, idle, absent]

theorem room_of_owes {w : Worker} {p : Point} {b : Broadcast} {reached : List Worker}
    (h : (stage w p).owes = some (b, reached)) : p.room = some b.room := by
  cases p <;> simp_all [stage, Point.room, idle, absent]

@[simp] theorem room_login (next : Login) : next.point.room = none := by
  cases next <;> rfl

theorem room_senderRequest {username : List Char} {current : Option RoomId} {result : Result}
    {msg : Message} {r : RoomId} (h : (senderRequest username current result msg).room = some r) :
    current = some r := by
  unfold senderRequest at h
  cases current with
  | none =>
    dsimp only at h
    split_ifs at h <;> cases h
  | some r' =>
    dsimp only at h
    split_ifs at h <;> first | exact h | cases h

@[simp] theorem room_receiverRequest (result : Result) (msg : Message) :
    (receiverRequest result msg).room = none := by
  unfold receiverRequest
  split_ifs <;> rfl

@[simp] theorem room_found (caller : Caller) (r : RoomId) : (caller.found r).room = some r := by
  cases caller <;> rfl

theorem lookup_createRoom (s : Server) (name name' : List Char) :
    (s.createRoom name').rooms.lookup name =
      (s.rooms.lookup name).or (if name = name' then some s.rooms.length else none) := by
  rw [Server.createRoom_rooms, List.lookup_append, List.lookup_cons]
  by_cases h : name = name'
  · simp [h]
  · simp [beq_false_of_ne h, h]

/-- A worker gets its pointers from the map. -/
theorem Move.room {w : Worker} {s t : Server} {p next : Point} {es : List Event} {r : RoomId}
    (h : Move w s (code w p) es t next) (hr : next.room = some r) :
    p.room = some r ∨ ∃ name, t.rooms.lookup name = some r := by
  cases p with
  | login =>
    rw [code] at h
    cases h
    dsimp only at hr
    split_ifs at hr
    · cases hr
    · rw [room_login] at hr
      cases hr
  | findBody caller name =>
    rw [code] at h
    cases h with
    | findRoom hlookup =>
      obtain rfl := Option.some.inj hr
      exact .inr ⟨name, hlookup⟩
    | createRoom hlookup =>
      obtain rfl := Option.some.inj hr
      refine .inr ⟨name, ?_⟩
      rw [lookup_createRoom, hlookup, if_pos rfl]
      rfl
  | senderLoop username current =>
    rw [code] at h
    cases h
    exact .inl (room_senderRequest hr)
  | dequeueWait r' =>
    rw [code] at h
    cases h with
    | semWait _ => exact .inl hr
    | timeout =>
      dsimp only at hr
      split_ifs at hr <;> exact .inl hr
  | handshake msg loginNext =>
    rw [code] at h
    cases h with
    | sent _ =>
      rw [room_login] at hr
      cases hr
    | notSent _ => cases hr
  | findRelease caller r' =>
    rw [code] at h
    cases h
    rw [room_found] at hr
    exact .inl hr
  | receiverJoin =>
    rw [code] at h
    cases h
    rw [room_receiverRequest] at hr
    cases hr
  | _ =>
    rw [code] at h
    cases h <;> first | exact .inl hr | cases hr

/-- A broadcast takes the lock of its room at the beginning of the call. -/
theorem Move.locked {w v : Worker} {s t : Server} {p next : Point} {es : List Event}
    {b : Broadcast} {msg : Message} (h : Move w s (code w p) es t next)
    (he : .locked v b msg ∈ es) : p.call = some b ∧ msg = s.delivery b := by
  generalize hop : code w p = op at h
  cases h with
  | broadcast _ =>
    cases List.mem_singleton.mp he
    refine ⟨?_, rfl⟩
    cases p <;> first | cases hop; rfl | cases hop
  | _ => simp at he

/-- The map and the rooms it names. -/
structure RoomMap (s : Server) : Prop where
  name : ∀ name r, s.rooms.lookup name = some r → r < s.rooms.length ∧ (s.room r).roomName = name
  pointer : ∀ w r, (s.point w).room = some r → ∃ name, s.rooms.lookup name = some r

/-- No entry of the map changes. -/
theorem Move.lookup {w : Worker} {s t : Server} {op : Operation} {es : List Event} {next : Point}
    (h : Move w s op es t next) {name : List Char} {r : RoomId}
    (hr : s.rooms.lookup name = some r) : t.rooms.lookup name = some r := by
  cases h with
  | createRoom _ => rw [lookup_createRoom, hr, Option.some_or]
  | _ => exact hr

theorem Move.length_rooms {w : Worker} {s t : Server} {op : Operation} {es : List Event}
    {next : Point} (h : Move w s op es t next) : s.rooms.length ≤ t.rooms.length := by
  cases h <;> simp

/-- No room changes its name. -/
theorem Move.roomName {w : Worker} {s t : Server} {op : Operation} {es : List Event}
    {next : Point} (h : Move w s op es t next) {r : RoomId} (hr : r < s.rooms.length) :
    (t.room r).roomName = (s.room r).roomName := by
  have hset (r' : RoomId) (members : List Worker) :
      ((s.setMembers r' members).room r).roomName = (s.room r).roomName := by
    by_cases heq : r = r'
    · subst heq
      simp
    · simp [Function.update_of_ne heq]
  cases h with
  | insertMember => exact hset _ _
  | eraseMember => exact hset _ _
  | createRoom _ => simp [Function.update_of_ne hr.ne]
  | _ => rfl

/-- No delivery in a room of the map changes. -/
theorem Move.delivery {w : Worker} {s t : Server} {op : Operation} {es : List Event}
    {next : Point} (h : Move w s op es t next) {b : Broadcast} (hb : b.room < s.rooms.length) :
    (t.goto w next).delivery b = s.delivery b := by
  rw [Server.delivery, Server.delivery, Server.goto_room, h.roomName hb]

/-- A new entry of the map names a new room. -/
theorem Move.lookup_cases {w : Worker} {s t : Server} {op : Operation} {es : List Event}
    {next : Point} (h : Move w s op es t next) {name : List Char} {r : RoomId}
    (hr : t.rooms.lookup name = some r) :
    s.rooms.lookup name = some r ∨ (r < t.rooms.length ∧ (t.room r).roomName = name) := by
  cases h with
  | @createRoom name' _ hlookup =>
    rw [lookup_createRoom] at hr
    cases hold : s.rooms.lookup name with
    | some r' => exact .inl (by rwa [hold] at hr)
    | none =>
      rw [hold, Option.none_or] at hr
      split_ifs at hr with hname
      cases hr
      subst hname
      exact .inr (by simp)
  | _ => exact .inl hr

theorem RoomMap.move {s t : Server} {w : Worker} {es : List Event} {next : Point}
    (hmap : RoomMap s) (hmove : Move w s (code w (s.point w)) es t next) :
    RoomMap (t.goto w next) := by
  refine ⟨fun name r hr => ?_, fun v r hr => ?_⟩
  · rcases hmove.lookup_cases hr with hold | hnew
    · obtain ⟨hlt, hname⟩ := hmap.name name r hold
      exact ⟨hlt.trans_le hmove.length_rooms, by rw [Server.goto_room, hmove.roomName hlt, hname]⟩
    · exact hnew
  · by_cases hv : v = w
    · subst hv
      rw [Server.goto_point, Function.update_self] at hr
      rcases hmove.room hr with h | h
      · obtain ⟨name, hname⟩ := hmap.pointer v r h
        exact ⟨name, hmove.lookup hname⟩
      · exact h
    · rw [Server.goto_point, Function.update_of_ne hv, hmove.point_eq] at hr
      obtain ⟨name, hname⟩ := hmap.pointer v r hr
      exact ⟨name, hmove.lookup hname⟩

theorem RoomMap.step {s s' : Server} {w : Worker} {choice : Choice} {es : List Event}
    (hmap : RoomMap s) (hstep : s.step w choice = some (es, s')) : RoomMap s' := by
  obtain ⟨t, next, hmove, rfl⟩ := step_move hstep
  exact hmap.move hmove

/-- A move that leaves the map as it is and gives its worker no other pointer. -/
theorem RoomMap.of_rooms {s t : Server} {w : Worker} {next : Point} (hmap : RoomMap s)
    (hrooms : t.rooms = s.rooms) (hroom : t.room = s.room) (hpoint : t.point = s.point)
    (hnext : ∀ r, next.room = some r → (s.point w).room = some r) : RoomMap (t.goto w next) := by
  refine ⟨fun name r hr => ?_, fun v r hr => ?_⟩
  · rw [Server.goto_rooms, hrooms] at hr
    rw [Server.goto_rooms, Server.goto_room, hrooms, hroom]
    exact hmap.name name r hr
  · rw [Server.goto_rooms, hrooms]
    by_cases hv : v = w
    · subst hv
      rw [Server.goto_point, Function.update_self] at hr
      exact hmap.pointer v r (hnext r hr)
    · rw [Server.goto_point, Function.update_of_ne hv, hpoint] at hr
      exact hmap.pointer v r hr

theorem Run.roomMap {conn : Worker → Connection} {events : List Event} {s : Server}
    (hrun : Run conn events s) : RoomMap s := by
  induction hrun with
  | start => exact ⟨by simp [Server.initial], by simp [Server.initial, Point.room]⟩
  | step w choice _ hstep ih => exact ih.step hstep

end CsfAssignments.Chat
