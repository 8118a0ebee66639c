import CsfAssignments.ServerRooms

/-!
# Histories of workers

The events of one worker in a run. What a program point says about them is proved for the moves
of the worker, and holds in every run.
-/

namespace CsfAssignments.Chat

/-- The worker an event belongs to; a message enters a queue through another worker. -/
def Event.worker : Event → Option Worker
  | .received w _ _ | .sent w _ | .locked w _ _ | .joined w _ | .left w _ | .dequeued w _ => some w
  | .enqueued _ _ => none

/-- The events of a worker. -/
def own (w : Worker) (events : List Event) : List Event :=
  events.filter fun e => e.worker = some w

theorem mem_own {w : Worker} {events : List Event} {e : Event} (he : e ∈ events)
    (hworker : e.worker = some w) : e ∈ own w events :=
  List.mem_filter.mpr ⟨he, decide_eq_true hworker⟩

@[simp] theorem own_append (w : Worker) (events es : List Event) :
    own w (events ++ es) = own w events ++ own w es := List.filter_append ..

@[simp] theorem own_nil (w : Worker) : own w [] = [] := rfl

@[simp] theorem own_of_worker {w : Worker} {e : Event} (he : e.worker = some w) :
    own w [e] = [e] := by
  simp [own, he]

/-- A worker makes events of its own only. -/
theorem Move.own_of_ne {w v : Worker} {s t : Server} {op : Operation} {es : List Event}
    {next : Point} (h : Move w s op es t next) (hv : v ≠ w) : own v es = [] := by
  cases h <;> simp [own, Event.worker, hv.symm]

/-- A fact about the events of a worker at its program point, if its own moves keep it and it
needs of the server only what the map holds. -/
theorem Run.told {P : Server → List Event → Point → Prop} {conn : Worker → Connection}
    {events : List Event} {s : Server} (hrun : Run conn events s) (hstart : ∀ s, P s [] .start)
    (hmono : ∀ {s t : Server} {h : List Event} {p : Point}, P s h p →
      (∀ name r, s.rooms.lookup name = some r → t.rooms.lookup name = some r) → P t h p)
    (hstep : ∀ {w : Worker} {s t : Server} {p next : Point} {es h : List Event}, P s h p →
      Move w s (code w p) es t next → P t (h ++ own w es) next)
    (w : Worker) : P s (own w events) (s.point w) := by
  induction hrun with
  | start => exact hstart _
  | step v choice _ hmoved ih =>
    obtain ⟨t, next, hmove, rfl⟩ := step_move hmoved
    rw [own_append]
    by_cases hw : w = v
    · subst hw
      rw [Server.goto_point, Function.update_self]
      exact hmono (hstep ih hmove) fun _ _ hr => hr
    · rw [Server.goto_point, Function.update_of_ne hw, hmove.point_eq, hmove.own_of_ne hw,
        List.append_nil]
      exact hmono ih fun name r hr => hmove.lookup hr

/-- No worker uses the connection of another one. -/
theorem Move.conn_of_ne {w v : Worker} {s t : Server} {op : Operation} {es : List Event}
    {next : Point} (h : Move w s op es t next) (hv : v ≠ w) : t.conn v = s.conn v := by
  cases h <;> simp [Function.update_of_ne hv]

/-- The connection of a worker that is not scheduled stays as it is. -/
theorem Server.exec_conn {s s' : Server} {w : Worker} {schedule : List (Worker × Choice)}
    {events : List Event} (hw : ∀ move ∈ schedule, move.1 ≠ w)
    (hexec : s.exec schedule = some (events, s')) : s'.conn w = s.conn w := by
  induction schedule generalizing s events with
  | nil =>
    cases hexec
    rfl
  | cons move schedule ih =>
    obtain ⟨v, choice⟩ := move
    obtain ⟨hv, hrest⟩ := List.forall_mem_cons.mp hw
    obtain ⟨es, s₁, more, hstep, hmore, rfl⟩ := Server.exec_cons hexec
    obtain ⟨t, next, hmove, rfl⟩ := step_move hstep
    rw [ih hrest hmore, Server.goto_conn, hmove.conn_of_ne hv.symm]

/-- A fact about the connection of a worker, its events from now on and its program point, if its
own moves keep it and it needs of the rest of the server only what the map holds. -/
theorem Server.exec_told {P : Server → List Event → Point → Prop} {w : Worker}
    (hmono : ∀ {s t : Server} {h : List Event} {p : Point}, P s h p →
      (∀ name r, s.rooms.lookup name = some r → t.rooms.lookup name = some r) →
      t.conn w = s.conn w → P t h p)
    (hstep : ∀ {s t : Server} {p next : Point} {es h : List Event}, P s h p →
      Move w s (code w p) es t next → P t (h ++ own w es) next)
    {s s' : Server} {schedule : List (Worker × Choice)} {events h : List Event}
    (htold : P s h (s.point w)) (hexec : s.exec schedule = some (events, s')) :
    P s' (h ++ own w events) (s'.point w) := by
  induction schedule generalizing s h events with
  | nil =>
    cases hexec
    rwa [own_nil, List.append_nil]
  | cons move schedule ih =>
    obtain ⟨v, choice⟩ := move
    obtain ⟨es, s₁, more, hmoved, hmore, rfl⟩ := Server.exec_cons hexec
    rw [own_append, ← List.append_assoc]
    refine ih ?_ hmore
    obtain ⟨t, next, hmove, rfl⟩ := step_move hmoved
    by_cases hw : w = v
    · subst hw
      rw [Server.goto_point, Function.update_self]
      exact hmono (hstep htold hmove) (fun _ _ hr => hr) rfl
    · rw [Server.goto_point, Function.update_of_ne hw, hmove.point_eq, hmove.own_of_ne hw,
        List.append_nil]
      exact hmono htold (fun name r hr => hmove.lookup hr) (hmove.conn_of_ne hw)

section Projections

def Event.request : Event → Option Message
  | .received _ _ msg => some msg
  | _ => none

def Event.reply : Event → Option Message
  | .sent _ msg => some msg
  | _ => none

def Event.join : Event → Option RoomId
  | .joined _ r => some r
  | _ => none

def Event.dequeue : Event → Option Message
  | .dequeued _ msg => some msg
  | _ => none

def requests (h : List Event) : List Message := h.filterMap Event.request

def replies (h : List Event) : List Message := h.filterMap Event.reply

def joins (h : List Event) : List RoomId := h.filterMap Event.join

def dequeues (h : List Event) : List Message := h.filterMap Event.dequeue

/-- What is sent after the first join. -/
def written : List Event → List Message
  | [] => []
  | .joined _ _ :: h => replies h
  | _ :: h => written h

variable (h es : List Event)

@[simp] theorem requests_append : requests (h ++ es) = requests h ++ requests es :=
  List.filterMap_append ..

@[simp] theorem replies_append : replies (h ++ es) = replies h ++ replies es :=
  List.filterMap_append ..

@[simp] theorem joins_append : joins (h ++ es) = joins h ++ joins es :=
  List.filterMap_append ..

@[simp] theorem dequeues_append : dequeues (h ++ es) = dequeues h ++ dequeues es :=
  List.filterMap_append ..

variable {h}

theorem written_append_of_joins_nil (hjoins : joins h = []) : written (h ++ es) = written es := by
  induction h with
  | nil => rfl
  | cons e h ih =>
    cases e with
    | joined u r => cases hjoins
    | _ => exact ih hjoins

theorem written_append (hjoins : joins h ≠ []) : written (h ++ es) = written h ++ replies es := by
  induction h with
  | nil => exact absurd rfl hjoins
  | cons e h ih =>
    cases e with
    | joined u r => exact replies_append h es
    | _ => exact ih hjoins

end Projections

end CsfAssignments.Chat
