import CsfAssignments.ServerRooms
import Mathlib.Data.List.Nodup

/-!
# Users and rooms

In every reachable state the stage of every worker agrees with the owners of the locks, the
member sets and the users. A user is taken out of its room before it is deleted, and a broadcast
holds the lock of the room while it visits the members.
-/

namespace CsfAssignments.Chat

def Server.stage (s : Server) (w : Worker) : Stage := Chat.stage w (s.point w)

/-- The shared state agrees with the stages of the workers. -/
structure Safe (s : Server) : Prop where
  owner : ∀ l w, s.owner l = some w ↔ l ∈ (s.stage w).locks
  member : ∀ r u, u ∈ (s.room r).members ↔ (s.stage u).member = some r
  nodup : ∀ r, (s.room r).members.Nodup
  alive : ∀ u, (s.user u).alive = (s.stage u).owns
  serves : ∀ w b visited u, (s.stage w).serves = some (b, visited, u) →
    u ∈ (s.room b.room).members ∧ u ∉ visited

theorem nodup_locks (w : Worker) (p : Point) : (stage w p).locks.Nodup := by
  cases p <;> simp [stage, idle, absent]

/-- A broadcast that serves a member holds the lock of the room. -/
theorem room_mem_locks {w : Worker} {p : Point} {b : Broadcast} {visited : List Worker}
    {u : Worker} (h : (stage w p).serves = some (b, visited, u)) :
    .room b.room ∈ (stage w p).locks := by
  cases p <;> simp_all [stage, idle, absent]

/-- Only a worker with a user is in a room. -/
theorem owns_of_member {w : Worker} {p : Point} {r : RoomId} (h : (stage w p).member = some r) :
    (stage w p).owns = true := by
  cases p <;> simp_all [stage, idle, absent]

theorem Server.stage_goto_self (s : Server) (w : Worker) (p : Point) :
    (s.goto w p).stage w = Chat.stage w p := by
  rw [stage, goto_point, Function.update_self]

/-- A lock has one owner. -/
theorem Safe.owner_unique {s : Server} (hsafe : Safe s) {l : Lock} {v w : Worker}
    (hv : l ∈ (s.stage v).locks) (hw : l ∈ (s.stage w).locks) : v = w := by
  have hl := (hsafe.owner l v).mpr hv
  rw [(hsafe.owner l w).mpr hw] at hl
  exact (Option.some.inj hl).symm

/-- Nobody is in a room that is not in the map yet. -/
theorem Safe.members_new {s : Server} (hsafe : Safe s) (hmap : RoomMap s) :
    (s.room s.rooms.length).members = [] := by
  refine List.eq_nil_iff_forall_not_mem.mpr fun u hu => ?_
  obtain ⟨name, hname⟩ := hmap.pointer u _ (room_of_member ((hsafe.member _ u).mp hu))
  exact (hmap.name name _ hname).1.false

section Step
variable {s t : Server} {w : Worker} {op : Operation} {es : List Event} {next : Point}

theorem Move.stage_of_ne (hmove : Move w s op es t next) {v : Worker} (hv : v ≠ w) :
    (t.goto w next).stage v = s.stage v := by
  rw [Server.stage, Server.goto_point, Function.update_of_ne hv, hmove.point_eq, Server.stage]

private theorem owner_step (hsafe : Safe s) (htyped : op.Typed w (s.stage w))
    (hmove : Move w s op es t next) (l : Lock) (v : Worker) :
    (t.goto w next).owner l = some v ↔ l ∈ ((t.goto w next).stage v).locks := by
  rw [Server.goto_owner]
  rcases hmove.locks_cases htyped with
    ⟨howner, hlocks⟩ | ⟨l', hfree, rfl, hlocks⟩ | ⟨l', rfl, hlocks⟩
  · rw [howner, hsafe.owner]
    by_cases hv : v = w
    · rw [hv, Server.stage_goto_self, hlocks]
    · rw [hmove.stage_of_ne hv]
  · rw [Server.setOwner_owner]
    by_cases hl : l = l'
    · subst hl
      rw [Function.update_self]
      by_cases hv : v = w
      · rw [hv, Server.stage_goto_self, hlocks]
        simp
      · rw [hmove.stage_of_ne hv, ← hsafe.owner, hfree]
        simp [Ne.symm hv]
    · rw [Function.update_of_ne hl, hsafe.owner]
      by_cases hv : v = w
      · rw [hv, Server.stage_goto_self, hlocks]
        simp [hl]
      · rw [hmove.stage_of_ne hv]
  · rw [Server.setOwner_owner]
    have hheld : l' ∈ (s.stage w).locks := by
      rw [hlocks]
      exact List.mem_cons_self
    have hnodup := nodup_locks w (s.point w)
    rw [show (stage w (s.point w)).locks = l' :: (stage w next).locks from hlocks,
      List.nodup_cons] at hnodup
    by_cases hl : l = l'
    · subst hl
      rw [Function.update_self]
      by_cases hv : v = w
      · rw [hv, Server.stage_goto_self]
        simpa using hnodup.1
      · rw [hmove.stage_of_ne hv]
        simpa using fun hmem => hv (hsafe.owner_unique hmem hheld)
    · rw [Function.update_of_ne hl, hsafe.owner]
      by_cases hv : v = w
      · rw [hv, Server.stage_goto_self, hlocks]
        simp [hl]
      · rw [hmove.stage_of_ne hv]

private theorem member_step (hsafe : Safe s) (hmap : RoomMap s)
    (htyped : op.Typed w (s.stage w)) (hmove : Move w s op es t next) (r : RoomId) :
    (t.room r).members.Nodup ∧
      ∀ u, u ∈ (t.room r).members ↔ ((t.goto w next).stage u).member = some r := by
  rcases hmove.member_cases htyped with ⟨-, hmember, hroom⟩ | ⟨r', -, -, hout, hin, -, rfl⟩ |
    ⟨r', -, -, hin, hout, -, rfl⟩
  · have hmembers : (t.room r).members = (s.room r).members := by
      rcases hroom with hroom | ⟨name, rfl⟩
      · exact hroom r
      · by_cases hr : r = s.rooms.length
        · subst hr
          simp [hsafe.members_new hmap]
        · simp [hr]
    rw [hmembers]
    refine ⟨hsafe.nodup r, fun u => ?_⟩
    rw [hsafe.member]
    by_cases hu : u = w
    · rw [hu, Server.stage_goto_self, hmember]
    · rw [hmove.stage_of_ne hu]
  · by_cases hr : r = r'
    · subst hr
      rw [Server.setMembers_room, Function.update_self]
      refine ⟨(hsafe.nodup r).insert, fun u => ?_⟩
      rw [List.mem_insert_iff, hsafe.member]
      by_cases hu : u = w
      · rw [hu, Server.stage_goto_self, hin]
        simp
      · rw [hmove.stage_of_ne hu]
        simp [hu]
    · rw [Server.setMembers_room, Function.update_of_ne hr]
      refine ⟨hsafe.nodup r, fun u => ?_⟩
      rw [hsafe.member]
      by_cases hu : u = w
      · rw [hu, Server.stage_goto_self, hin, hout]
        simp [Ne.symm hr]
      · rw [hmove.stage_of_ne hu]
  · by_cases hr : r = r'
    · subst hr
      rw [Server.setMembers_room, Function.update_self]
      refine ⟨(hsafe.nodup r).erase w, fun u => ?_⟩
      rw [(hsafe.nodup r).mem_erase_iff, hsafe.member]
      by_cases hu : u = w
      · rw [hu, Server.stage_goto_self, hout]
        simp
      · rw [hmove.stage_of_ne hu]
        simp [hu]
    · rw [Server.setMembers_room, Function.update_of_ne hr]
      refine ⟨hsafe.nodup r, fun u => ?_⟩
      rw [hsafe.member]
      by_cases hu : u = w
      · rw [hu, Server.stage_goto_self, hin, hout]
        simp [Ne.symm hr]
      · rw [hmove.stage_of_ne hu]

/-- Nobody joins or leaves a room while another worker holds its lock. -/
theorem members_eq (hsafe : Safe s) (hmap : RoomMap s) (htyped : op.Typed w (s.stage w))
    (hmove : Move w s op es t next) {v : Worker} {r : RoomId} (hv : v ≠ w)
    (hlock : .room r ∈ (s.stage v).locks) : (t.room r).members = (s.room r).members := by
  have hother {r' : RoomId} (hheld : .room r' ∈ (s.stage w).locks) : r ≠ r' := by
    rintro rfl
    exact hv (hsafe.owner_unique hlock hheld)
  rcases hmove.member_cases htyped with
    ⟨-, -, hroom | ⟨name, rfl⟩⟩ | ⟨r', -, hheld, -, -, -, rfl⟩ | ⟨r', -, hheld, -, -, -, rfl⟩
  · exact hroom r
  · by_cases hr : r = s.rooms.length
    · subst hr
      simp [hsafe.members_new hmap]
    · simp [hr]
  · rw [Server.setMembers_room, Function.update_of_ne (hother hheld)]
  · rw [Server.setMembers_room, Function.update_of_ne (hother hheld)]

private theorem serves_step (hsafe : Safe s) (hmap : RoomMap s) (htyped : op.Typed w (s.stage w))
    (hmove : Move w s op es t next) {v : Worker} {b : Broadcast} {visited : List Worker}
    {u : Worker} (hserves : ((t.goto w next).stage v).serves = some (b, visited, u)) :
    u ∈ (t.room b.room).members ∧ u ∉ visited := by
  by_cases hv : v = w
  · rw [hv, Server.stage_goto_self] at hserves
    obtain ⟨hroom, hold | hnew⟩ := hmove.serves_cases htyped hserves
    · rw [hroom]
      exact hsafe.serves w b visited u hold
    · rw [hroom]
      exact hnew
  · rw [hmove.stage_of_ne hv] at hserves
    obtain ⟨hmember, hvisited⟩ := hsafe.serves v b visited u hserves
    rw [members_eq hsafe hmap htyped hmove hv (room_mem_locks hserves)]
    exact ⟨hmember, hvisited⟩

theorem Safe.move (hsafe : Safe s) (hmap : RoomMap s)
    (hmove : Move w s (code w (s.point w)) es t next) : Safe (t.goto w next) := by
  have htyped : (code w (s.point w)).Typed w (s.stage w) := code_typed w (s.point w)
  refine ⟨owner_step hsafe htyped hmove, fun r u => (member_step hsafe hmap htyped hmove r).2 u,
    fun r => (member_step hsafe hmap htyped hmove r).1, fun u => ?_,
    fun v b visited u => serves_step hsafe hmap htyped hmove⟩
  obtain ⟨hothers, hown⟩ := hmove.alive_cases htyped
  rw [Server.goto_user]
  by_cases hu : u = w
  · rw [hu, Server.stage_goto_self]
    exact hown (hsafe.alive w)
  · rw [hmove.stage_of_ne hu, hothers u hu, hsafe.alive]

theorem Safe.step {s' : Server} {choice : Choice} (hsafe : Safe s) (hmap : RoomMap s)
    (hstep : s.step w choice = some (es, s')) : Safe s' := by
  obtain ⟨t, next, hmove, rfl⟩ := step_move hstep
  exact hsafe.move hmap hmove

/-- A move that leaves the shared state and the stage of its worker as they are. -/
theorem Safe.of_stage (hsafe : Safe s) (hroom : t.room = s.room) (huser : t.user = s.user)
    (howner : t.owner = s.owner) (hpoint : t.point = s.point) (hstage : stage w next = s.stage w) :
    Safe (t.goto w next) := by
  have hstages (v : Worker) : (t.goto w next).stage v = s.stage v := by
    by_cases hv : v = w
    · rw [hv, Server.stage_goto_self, hstage]
    · rw [Server.stage, Server.goto_point, Function.update_of_ne hv, hpoint, Server.stage]
  obtain ⟨howned, hmember, hnodup, halive, hserves⟩ := hsafe
  refine ⟨fun l v => ?_, fun r u => ?_, fun r => ?_, fun u => ?_, fun v b visited u hv => ?_⟩
  · rw [Server.goto_owner, howner, hstages, howned]
  · rw [Server.goto_room, hroom, hstages, hmember]
  · rw [Server.goto_room, hroom]
    exact hnodup r
  · rw [Server.goto_user, huser, hstages, halive]
  · rw [hstages] at hv
    rw [Server.goto_room, hroom]
    exact hserves v b visited u hv

end Step

theorem Run.safe {conn : Worker → Connection} {events : List Event} {s : Server}
    (hrun : Run conn events s) : Safe s := by
  induction hrun with
  | start =>
    exact ⟨by simp [Server.initial, Server.stage, stage, absent],
      by simp [Server.initial, Server.stage, stage, absent], by simp [Server.initial],
      by simp [Server.initial, Server.stage, stage, absent],
      by simp [Server.initial, Server.stage, stage, absent]⟩
  | step w choice hrun hstep ih => exact ih.step hrun.roomMap hstep

/-- The user whose queue an operation touches. -/
def Operation.queue (w : Worker) : Operation → Option Worker
  | .acquire (.queue u) _ _ | .release (.queue u) _ => some u
  | .pushBack u _ _ | .semPost u _ => some u
  | .semTimedwait _ _ | .popFront _ => some w
  | _ => none

/-- A worker touches its own queue and that of the member its broadcast serves. -/
theorem queue_cases {w : Worker} {p : Point} {u : Worker} (h : (code w p).queue w = some u) :
    (u = w ∧ (stage w p).owns = true) ∨
      ∃ b visited, (stage w p).serves = some (b, visited, u) := by
  cases p <;> simp_all [code, Operation.queue, stage, eq_comm]

/-- Members of rooms have live users, nobody is in two rooms, and no operation touches the queue
of a deleted user. -/
theorem no_dangling_receiver {conn : Worker → Connection} {events : List Event} {s : Server}
    (hrun : Run conn events s) :
    (∀ r, ∀ u ∈ (s.room r).members, (s.user u).alive = true) ∧
      (∀ u r r', u ∈ (s.room r).members → u ∈ (s.room r').members → r = r') ∧
      ∀ w u, (code w (s.point w)).queue w = some u → (s.user u).alive = true := by
  have hsafe := hrun.safe
  have halive (r : RoomId) (u : Worker) (hu : u ∈ (s.room r).members) :
      (s.user u).alive = true := by
    rw [hsafe.alive]
    exact owns_of_member ((hsafe.member r u).mp hu)
  refine ⟨halive, fun u r r' hr hr' => ?_, fun w u hqueue => ?_⟩
  · rw [hsafe.member] at hr hr'
    rw [hr] at hr'
    exact Option.some.inj hr'
  · rcases queue_cases hqueue with ⟨rfl, howns⟩ | ⟨b, visited, hserves⟩
    · rw [hsafe.alive]
      exact howns
    · exact halive _ u (hsafe.serves w b visited u hserves).1

/-- A receiver and a sender in the same room, and nobody else. -/
def twoClients : Worker → Connection
  | 0 => ⟨⟨[], [.data "rlogin:bob\njoin:lobby\n".toList]⟩, ⟨[], []⟩, .success⟩
  | 1 => ⟨⟨[], [.data "slogin:eve\njoin:lobby\nsendall:hi\n".toList]⟩, ⟨[], []⟩, .success⟩
  | _ => ⟨⟨[], []⟩, ⟨[], []⟩, .success⟩

/-- The receiver joins, and then the sender broadcasts and finds it. -/
def visitReceiver : List (Worker × Choice) :=
  List.replicate 10 (0, .proceed) ++ List.replicate 10 (1, .proceed) ++ [(1, .member 0)]

/-- The delivery of the sender's message. -/
def lobbyDelivery : Message := ⟨tagDelivery, "lobby:eve:hi".toList⟩

theorem no_dangling_receiver_visited :
    ∃ events s, Run twoClients events s ∧ 0 ∈ (s.room 0).members ∧
      (code 1 (s.point 1)).queue 1 = some 0 ∧ (s.user 0).alive = true := by
  have hexec : ((Server.initial twoClients).exec visitReceiver).map
      (fun moves => ((moves.2.room 0).members, (code 1 (moves.2.point 1)).queue 1)) =
      some ([0], some 0) := by decide +kernel
  obtain ⟨⟨events, s⟩, hs, hreached⟩ := Option.map_eq_some_iff.mp hexec
  obtain ⟨hmembers, hqueue⟩ := Prod.mk.inj hreached
  have hrun : Run twoClients ([] ++ events) s := Run.start.exec hs
  exact ⟨_, s, hrun, hmembers ▸ List.mem_singleton_self 0, hqueue,
    (no_dangling_receiver hrun).2.2 1 0 hqueue⟩

end CsfAssignments.Chat
