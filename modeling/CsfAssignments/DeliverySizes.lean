import CsfAssignments.RoomFeeds
import CsfAssignments.WireRoundTrip

/-!
# Sizes of deliveries

A delivery joins the name of a room, a username and a text, which come from three requests, and
nothing bounds the three together. What enters a queue is within the limit of the protocol as
long as every call of `broadcast_message` on a room with members joins short enough strings: the
lock of the room keeps its name and its members until the message has reached them.
-/

namespace CsfAssignments.Chat

/-- The three strings of a delivery leave room for the tag, the colons and the newline, if
anybody gets it. -/
def Server.Fits (s : Server) (b : Broadcast) : Prop :=
  (s.room b.room).members = [] ∨
    (s.room b.room).roomName.length + b.username.length + b.text.length + 12 ≤ maxLen

instance (s : Server) (b : Broadcast) : Decidable (s.Fits b) :=
  inferInstanceAs (Decidable (_ ∨ _))

/-- Every call of `broadcast_message` on a schedule has short enough strings. -/
def Server.CallsFit (s : Server) : List (Worker × Choice) → Prop
  | [] => True
  | (w, choice) :: schedule => (∀ b ∈ (s.point w).call, s.Fits b) ∧
      ∀ move ∈ s.step w choice, move.2.CallsFit schedule

def Server.decidableCallsFit (s : Server) :
    (schedule : List (Worker × Choice)) → Decidable (s.CallsFit schedule)
  | [] => .isTrue trivial
  | (w, choice) :: schedule =>
      have (move : List Event × Server) : Decidable (move.2.CallsFit schedule) :=
        move.2.decidableCallsFit schedule
      inferInstanceAs (Decidable (_ ∧ ∀ move ∈ s.step w choice, move.2.CallsFit schedule))

instance (s : Server) (schedule : List (Worker × Choice)) : Decidable (s.CallsFit schedule) :=
  s.decidableCallsFit schedule

/-- Every running broadcast has short enough strings. -/
def Server.Bounded (s : Server) : Prop :=
  ∀ w b reached, (s.stage w).owes = some (b, reached) → s.Fits b

theorem room_mem_locks_of_owes {w : Worker} {p : Point} {b : Broadcast} {reached : List Worker}
    (h : (stage w p).owes = some (b, reached)) : .room b.room ∈ (stage w p).locks := by
  cases p <;> simp_all [stage, idle, absent]

theorem length_delivery (s : Server) (b : Broadcast) :
    ((s.delivery b).tag ++ ':' :: (s.delivery b).data ++ ['\n']).length =
      (s.room b.room).roomName.length + b.username.length + b.text.length + 12 := by
  have htag : tagDelivery.length = 8 := rfl
  simp only [Server.delivery, List.length_append, List.length_cons, List.length_nil, htag]
  omega

section Step
variable {s t : Server} {w : Worker} {op : Operation} {es : List Event} {next : Point}

/-- A room stays as it is while a broadcast holds its lock. -/
theorem room_eq_of_owes (hsafe : Safe s) (hmap : RoomMap s) (htyped : op.Typed w (s.stage w))
    (hmove : Move w s op es t next) {v : Worker} {b : Broadcast} {reached : List Worker}
    (howes : (s.stage v).owes = some (b, reached)) : t.room b.room = s.room b.room := by
  have hother {r : RoomId} (hw : s.stage w = ⟨true, [.room r], (s.stage w).member, none, none⟩) :
      b.room ≠ r := by
    rintro rfl
    have hlock : .room b.room ∈ (s.stage v).locks := room_mem_locks_of_owes howes
    have hv : v = w := hsafe.owner_unique hlock (by rw [hw]; exact List.mem_singleton_self _)
    rw [hv, hw] at howes
    cases howes
  cases hmove with
  | insertMember => exact Function.update_of_ne (hother (by rw [htyped.1])) _ _
  | eraseMember => exact Function.update_of_ne (hother (by rw [htyped.1])) _ _
  | createRoom _ =>
    obtain ⟨name, hname⟩ := hmap.pointer v _ (room_of_owes howes)
    exact Function.update_of_ne (hmap.name name _ hname).1.ne _ _
  | _ => rfl

theorem Server.Fits.congr {b : Broadcast} (hfits : s.Fits b)
    (hroom : t.room b.room = s.room b.room) : t.Fits b := by
  rw [Server.Fits, hroom]
  exact hfits

theorem Server.Bounded.step {s' : Server} {choice : Choice} (hbounded : s.Bounded) (hsafe : Safe s)
    (hmap : RoomMap s) (hcall : ∀ b ∈ (s.point w).call, s.Fits b)
    (hstep : s.step w choice = some (es, s')) : s'.Bounded := by
  obtain ⟨t, next, hmove, rfl⟩ := step_move hstep
  have htyped : (code w (s.point w)).Typed w (s.stage w) := code_typed w (s.point w)
  intro v b reached howes
  by_cases hv : v = w
  · subst hv
    rw [Server.stage_goto_self] at howes
    cases owes_cases hsafe htyped hmove with
    | quiet hsame _ _ _ =>
      rw [hsame] at howes
      exact (hbounded v b reached howes).congr (room_eq_of_owes hsafe hmap htyped hmove howes)
    | begins hes _ ht _ hnext =>
      rw [hnext] at howes
      cases howes
      subst hes ht
      exact (hcall _ (hmove.locked (List.mem_singleton_self _)).1).congr rfl
    | ends _ _ _ hnone _ =>
      rw [hnone] at howes
      cases howes
    | reaches _ _ _ _ _ hbefore hnext =>
      rw [hnext] at howes
      cases howes
      exact (hbounded v b _ hbefore).congr (room_eq_of_owes hsafe hmap htyped hmove hbefore)
  · rw [hmove.stage_of_ne hv] at howes
    exact (hbounded v b reached howes).congr (room_eq_of_owes hsafe hmap htyped hmove howes)

/-- What a move puts into a queue is within the limit. -/
theorem Server.Bounded.enqueued (hbounded : s.Bounded) (hsafe : Safe s)
    (htyped : op.Typed w (s.stage w)) (hmove : Move w s op es t next) {u : Worker} {msg : Message}
    (hmsg : .enqueued u msg ∈ es) :
    (msg.tag ++ ':' :: msg.data ++ ['\n']).length ≤ maxLen := by
  cases owes_cases hsafe htyped hmove with
  | quiet _ hnone _ _ =>
    have hin : msg ∈ Chat.enqueued u es := mem_enqueued.mpr hmsg
    rw [hnone u] at hin
    exact absurd hin List.not_mem_nil
  | begins hes =>
    rw [hes, List.mem_singleton] at hmsg
    cases hmsg
  | ends hes =>
    rw [hes] at hmsg
    exact absurd hmsg List.not_mem_nil
  | @reaches v b visited hes _ _ hmember _ howes _ =>
    rw [hes, List.mem_singleton] at hmsg
    cases hmsg
    rcases hbounded w b visited howes with hempty | hsize
    · rw [hempty] at hmember
      exact absurd hmember List.not_mem_nil
    · rw [length_delivery]
      exact hsize

end Step

/-- The moves of a schedule with short enough strings keep every queue within the limit. -/
theorem Server.Bounded.exec_enqueued {s s' : Server} {schedule : List (Worker × Choice)}
    {events : List Event} (hbounded : s.Bounded) (hsafe : Safe s) (hmap : RoomMap s)
    (hfit : s.CallsFit schedule) (hexec : s.exec schedule = some (events, s')) {u : Worker}
    {msg : Message} (hmsg : .enqueued u msg ∈ events) :
    (msg.tag ++ ':' :: msg.data ++ ['\n']).length ≤ maxLen := by
  induction schedule generalizing s events with
  | nil =>
    cases hexec
    exact absurd hmsg List.not_mem_nil
  | cons move schedule ih =>
    obtain ⟨w, choice⟩ := move
    obtain ⟨hcall, hrest⟩ := hfit
    obtain ⟨es, s₁, more, hstep, hmore, rfl⟩ := Server.exec_cons hexec
    rcases List.mem_append.mp hmsg with hnow | hlater
    · obtain ⟨t, next, hmove, rfl⟩ := step_move hstep
      exact hbounded.enqueued hsafe (code_typed w (s.point w)) hmove hnow
    · exact ih (hbounded.step hsafe hmap hcall hstep) (hsafe.step hmap hstep) (hmap.step hstep)
        (hrest _ hstep) hmore hlater

/-- In every run of the server in which every call of `broadcast_message` on a room with members
has short enough strings, every message that enters a queue is within the limit of the protocol. -/
theorem enqueued_within_limit {conn : Worker → Connection} {schedule : List (Worker × Choice)}
    {events : List Event} {s : Server} (hfit : (Server.initial conn).CallsFit schedule)
    (hexec : (Server.initial conn).exec schedule = some (events, s)) {u : Worker} {msg : Message}
    (hmsg : .enqueued u msg ∈ events) :
    (msg.tag ++ ':' :: msg.data ++ ['\n']).length ≤ maxLen := by
  have hstart : Run conn [] (Server.initial conn) := .start
  have hbounded : (Server.initial conn).Bounded := fun w b reached howes => by cases howes
  exact hbounded.exec_enqueued hstart.safe hstart.roomMap hfit hexec hmsg

/-- The sender enters the room behind the receiver and its message goes into the queue. -/
def pushToReceiver : List (Worker × Choice) :=
  visitReceiver ++ List.replicate 3 (1, .proceed)

theorem enqueued_within_limit_one_message :
    ∃ events s, (Server.initial twoClients).exec pushToReceiver = some (events, s) ∧
      .enqueued 0 ⟨tagDelivery, "lobby:eve:hi".toList⟩ ∈ events ∧
      (tagDelivery ++ ':' :: "lobby:eve:hi".toList ++ ['\n']).length ≤ maxLen := by
  have hexec : ((Server.initial twoClients).exec pushToReceiver).map
      (fun moves => decide (.enqueued 0 ⟨tagDelivery, "lobby:eve:hi".toList⟩ ∈ moves.1)) =
      some true := by
    decide +kernel
  obtain ⟨⟨events, s⟩, hs, hreached⟩ := Option.map_eq_some_iff.mp hexec
  have hmsg := of_decide_eq_true hreached
  exact ⟨events, s, hs, hmsg, enqueued_within_limit (by decide +kernel) hs hmsg⟩

/-- The lines of two clients whose names, room and text have 100 characters each. -/
def longLines : Worker → List (List Char)
  | 0 => ["rlogin:bob".toList, "join:".toList ++ List.replicate 100 'r']
  | 1 => ["slogin:".toList ++ List.replicate 100 'u', "join:".toList ++ List.replicate 100 'r',
      "sendall:".toList ++ List.replicate 100 't']
  | _ => []

/-- No line is beyond the limit, but the delivery is. -/
theorem enqueued_beyond_limit :
    (∀ w, ∀ line ∈ longLines w, line.length + 1 ≤ maxLen) ∧
      ∃ events s, Run (fun w => freshConnection ((longLines w).flatMap (· ++ ['\n']))) events s ∧
        ∃ msg, .enqueued 0 msg ∈ events ∧
          maxLen < (msg.tag ++ ':' :: msg.data ++ ['\n']).length := by
  constructor
  · intro w
    rcases w with _ | _ | w
    · decide
    · decide
    · simp [longLines]
  · have hexec : ((Server.initial fun w => freshConnection
        ((longLines w).flatMap (· ++ ['\n']))).exec pushToReceiver).map
        (fun moves => (Chat.enqueued 0 moves.1).map
          fun msg => (msg.tag ++ ':' :: msg.data ++ ['\n']).length) = some [312] := by
      decide +kernel
    obtain ⟨⟨events, s⟩, hs, hreached⟩ := Option.map_eq_some_iff.mp hexec
    have hlength : 312 ∈ (Chat.enqueued 0 events).map
        fun msg => (msg.tag ++ ':' :: msg.data ++ ['\n']).length :=
      hreached ▸ List.mem_singleton_self 312
    obtain ⟨msg, hmsg, hlong⟩ := List.mem_map.mp hlength
    exact ⟨_, s, Run.start.exec hs, msg, mem_enqueued.mp hmsg, hlong ▸ by decide⟩

end CsfAssignments.Chat
