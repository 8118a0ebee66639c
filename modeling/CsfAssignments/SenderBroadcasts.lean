import CsfAssignments.SenderAutomaton
import CsfAssignments.ServerSafety

/-!
# The broadcasts of a session

Between the lock of the room and its reply, the worker of a sender puts the delivery once into
the queue of every member. Nobody joins or leaves the room meanwhile, whatever the other workers
do.
-/

namespace CsfAssignments.Chat

/-- The runs of a session with what the moves of its worker show. Among the events of all workers
nothing says whose broadcast has put a message into a queue. -/
inductive OwnRun (w : Worker) : Server → List Event → Server → Prop
  | refl (s : Server) : OwnRun w s [] s
  | move {s t s' : Server} {es mine : List Event} {next : Point} :
      SessionMove w s (code w (s.point w)) es t next → OwnRun w (t.goto w next) mine s' →
      OwnRun w s (es ++ mine) s'
  | other {s s₁ s' : Server} {v : Worker} {choice : Choice} {es mine : List Event} : v ≠ w →
      s.step v choice = some (es, s₁) → OwnRun w s₁ mine s' → OwnRun w s mine s'

/-- The worker takes the lock of a room for a broadcast, and `mine` is what its moves show from
there to its next reply. -/
def Posts (w : Worker) (s : Server) (b : Broadcast) (msg : Message) (mine : List Event)
    (reply : Message) : Prop :=
  ∃ t next s₁ t₁ next₁, SessionMove w s (code w (s.point w)) [.locked w b msg] t next ∧
    OwnRun w (t.goto w next) mine s₁ ∧ replies mine = [] ∧
    SessionMove w s₁ (code w (s₁.point w)) [.sent w reply] t₁ next₁

/-- The message enters the queue of every member once, and no other one. -/
def Serves (members : List Worker) (msg : Message) (mine : List Event) : Prop :=
  ∃ us : List Worker, us.Nodup ∧ (∀ u, u ∈ us ↔ u ∈ members) ∧
    mine = us.map fun u => .enqueued u msg

/-- What a broadcast shows when it has visited these members, the last one first. -/
def deliveries (msg : Message) (visited : List Worker) : List Event :=
  visited.reverse.map fun u => .enqueued u msg

/-- How far a broadcast to these members has come. -/
def Reached (members : List Worker) (b : Broadcast) (msg : Message) (mine : List Event) :
    Point → Prop
  | .broadcasting b' visited => b' = b ∧ mine = deliveries msg visited ∧ visited.Nodup ∧
      visited ⊆ members
  | .enqueueAcquire b' visited u | .enqueuePush b' visited u =>
      b' = b ∧ mine = deliveries msg visited ∧ (u :: visited).Nodup ∧ u :: visited ⊆ members
  | .enqueuePost b' visited u | .enqueueRelease b' visited u =>
      b' = b ∧ mine = deliveries msg (u :: visited) ∧ (u :: visited).Nodup ∧
        u :: visited ⊆ members
  | .broadcastRelease b' => b' = b ∧ Serves members msg mine
  | .senderReply reply _ _ => reply = ok ∧ Serves members msg mine
  | _ => False

section Broadcasts
variable {w : Worker} {s t s' : Server} {b : Broadcast} {msg reply : Message}
  {members : List Worker} {mine es events : List Event} {p next : Point}

/-- As long as the worker holds the lock of the room, its members and the delivery are those
that the broadcast has begun with. -/
structure Fixed (s : Server) (members : List Worker) (b : Broadcast) (msg : Message) : Prop where
  members_eq : (s.room b.room).members = members
  delivery_eq : s.delivery b = msg

/-- A move of the broadcast itself. -/
private theorem Reached.step (h : Reached members b msg mine p) (hfixed : Fixed s members b msg)
    (hreply : ∀ reply u current, p ≠ .senderReply reply u current)
    (hmove : Move w s (code w p) es t next) :
    Reached members b msg (mine ++ es) next ∧ t.room = s.room := by
  obtain ⟨hmembers, hdelivery⟩ := hfixed
  cases p with
  | broadcasting b' visited =>
    obtain ⟨rfl, hmine, hnodup, hsub⟩ := h
    rw [code] at hmove
    cases hmove with
    | nextMember hmember hu =>
      rw [List.append_nil]
      exact ⟨⟨rfl, hmine, List.nodup_cons.mpr ⟨hu, hnodup⟩,
        List.cons_subset.mpr ⟨hmembers ▸ hmember, hsub⟩⟩, rfl⟩
    | lastMember hlast =>
      rw [List.append_nil]
      refine ⟨⟨rfl, visited.reverse, List.nodup_reverse.mpr hnodup, fun u => ?_, hmine⟩, rfl⟩
      rw [List.mem_reverse]
      exact ⟨fun hu => hsub hu, fun hu => hlast u (hmembers ▸ hu)⟩
  | enqueuePush b' visited u =>
    obtain ⟨rfl, hmine, hvisited⟩ := h
    rw [code] at hmove
    cases hmove
    refine ⟨⟨rfl, ?_, hvisited⟩, rfl⟩
    rw [hmine, hdelivery, deliveries, deliveries, List.reverse_cons, List.map_append]
    rfl
  | senderReply reply u current => exact absurd rfl (hreply reply u current)
  | enqueueAcquire b' visited u | enqueuePost b' visited u =>
    rw [code] at hmove
    cases hmove
    rw [List.append_nil]
    exact ⟨h, rfl⟩
  | enqueueRelease b' visited u =>
    rw [code] at hmove
    cases hmove
    rw [List.append_nil]
    exact ⟨h, rfl⟩
  | broadcastRelease b' =>
    rw [code] at hmove
    cases hmove
    rw [List.append_nil]
    exact ⟨⟨rfl, h.2⟩, rfl⟩
  | _ => exact h.elim

/-- Before its reply the broadcast holds the lock of the room, and then only the reply is left. -/
private theorem Reached.cases (h : Reached members b msg mine p) :
    (∃ u current, p = .senderReply ok u current ∧ Serves members msg mine) ∨
      .room b.room ∈ (stage w p).locks ∧ (code w p).talks = false ∧ p.room = some b.room ∧
        ∀ reply u current, p ≠ .senderReply reply u current := by
  cases p with
  | senderReply reply u current =>
    obtain ⟨rfl, hserves⟩ := h
    exact .inl ⟨u, current, rfl, hserves⟩
  | broadcasting | enqueueAcquire | enqueuePush | enqueuePost | enqueueRelease
  | broadcastRelease =>
    obtain ⟨rfl, -⟩ := h
    exact .inr ⟨by simp [stage], rfl, rfl, by simp⟩
  | _ => exact h.elim

/-- The moves of another worker change neither the members nor the delivery. -/
private theorem Fixed.of_ne {v : Worker} (hfixed : Fixed s members b msg) (hsafe : Safe s)
    (hmap : RoomMap s) (hlock : .room b.room ∈ (s.stage w).locks)
    (hroom : (s.point w).room = some b.room) (hv : v ≠ w)
    (hmove : Move v s (code v (s.point v)) es t next) :
    Fixed (t.goto v next) members b msg := by
  obtain ⟨name, hname⟩ := hmap.pointer w b.room hroom
  refine ⟨?_, ?_⟩
  · rw [Server.goto_room, ← hfixed.members_eq]
    exact Chat.members_eq hsafe hmap (code_typed v (s.point v)) hmove hv.symm hlock
  · rw [hmove.delivery (hmap.name name _ hname).1]
    exact hfixed.delivery_eq

/-- A broadcast up to its reply, whatever the other workers do. -/
private theorem OwnRun.reached {more : List Event} (hrun : OwnRun w s more s') (hsafe : Safe s)
    (hmap : RoomMap s) (h : Reached members b msg mine (s.point w))
    (hfixed : .room b.room ∈ (s.stage w).locks → Fixed s members b msg)
    (hnone : replies more = []) : Reached members b msg (mine ++ more) (s'.point w) := by
  induction hrun generalizing mine with
  | refl s => rwa [List.append_nil]
  | @move s t s' es more next hmove _ ih =>
    rcases h.cases (w := w) with ⟨u, current, hp, -⟩ | ⟨hlock, htalks, -, hreply⟩
    · rw [hp, code] at hmove
      cases hmove with
      | send conn => cases hnone
      | other htalks _ => cases htalks
    · have hmove := hmove.move htalks
      have hbefore := hfixed hlock
      obtain ⟨hnext, hroom⟩ := h.step hbefore hreply hmove
      rw [← List.append_assoc]
      rw [replies_append, List.append_eq_nil_iff] at hnone
      refine ih (hsafe.move hmap hmove) (hmap.move hmove) ?_ (fun _ => ⟨?_, ?_⟩) hnone.2
      · rwa [Server.goto_point, Function.update_self]
      · rw [Server.goto_room, hroom]
        exact hbefore.members_eq
      · rw [Server.delivery, Server.goto_room, hroom]
        exact hbefore.delivery_eq
  | @other s s₁ s' v choice es more hv hstep _ ih =>
    obtain ⟨t, next, hmove, rfl⟩ := step_move hstep
    have hpoint : (t.goto v next).point w = s.point w := by
      rw [Server.goto_point, Function.update_of_ne hv.symm, hmove.point_eq]
    refine ih (hsafe.move hmap hmove) (hmap.move hmove) (by rwa [hpoint]) (fun hlock => ?_) hnone
    rw [hmove.stage_of_ne hv.symm] at hlock
    rcases h.cases (w := w) with ⟨u, current, hp, -⟩ | ⟨-, -, hroom, -⟩
    · rw [Server.stage, hp] at hlock
      cases hlock
    · exact (hfixed hlock).of_ne hsafe hmap hlock hroom hv hmove

/-- Between its lock and its reply a broadcast makes one delivery to every member, and then the
reply is `ok`. -/
theorem Posts.serves (hposts : Posts w s b msg mine reply) (hsafe : Safe s) (hmap : RoomMap s) :
    reply = ok ∧ msg = s.delivery b ∧ Serves (s.room b.room).members msg mine := by
  obtain ⟨t, next, s₁, t₁, next₁, hlock, hrun, hnone, hsent⟩ := hposts
  have hmove : Move w s (code w (s.point w)) [.locked w b msg] t next := by
    generalize code w (s.point w) = op at hlock ⊢
    cases hlock with
    | other _ hmove => exact hmove
  obtain ⟨hcall, hmsg⟩ := hmove.locked (List.mem_singleton_self _)
  have hp : s.point w = .broadcastAcquire b := by
    generalize s.point w = p at hcall
    cases p <;> first | cases hcall; rfl | cases hcall
  have hsafe' := hsafe.move hmap hmove
  have hmap' := hmap.move hmove
  rw [hp, code] at hmove
  subst hmsg
  have hbegins : next = .broadcasting b [] ∧ t.room = s.room := by
    cases hmove
    exact ⟨rfl, rfl⟩
  obtain ⟨rfl, hroom⟩ := hbegins
  have hstart : Reached (s.room b.room).members b (s.delivery b) []
      ((t.goto w (.broadcasting b [])).point w) := by
    rw [Server.goto_point, Function.update_self]
    exact ⟨rfl, rfl, List.nodup_nil, List.nil_subset _⟩
  have hreached : Reached (s.room b.room).members b (s.delivery b) mine (s₁.point w) := by
    refine hrun.reached hsafe' hmap' hstart (fun _ => ⟨?_, ?_⟩) hnone
    · rw [Server.goto_room, hroom]
    · rw [Server.delivery, Server.goto_room, hroom, Server.delivery]
  rcases hreached.cases (w := w) with ⟨u, current, hp', hserves⟩ | ⟨-, htalks, -⟩
  · rw [hp', code] at hsent
    cases hsent with
    | send conn => exact ⟨rfl, rfl, hserves⟩
    | other htalks _ => cases htalks
  · have hmove' := hsent.move htalks
    generalize code w (s₁.point w) = op at hmove' htalks
    cases hmove' with
    | sent _ => cases htalks

end Broadcasts
section Sessions
variable {w : Worker} {username : List Char} {s t s' : Server} {es events h : List Event}
  {next : Point}

/-- The replies of a worker are what its own moves write. -/
theorem SessionMove.replies_own {op : Operation} (hmove : SessionMove w s op es t next) :
    replies (own w es) = replies es := by
  cases hmove with
  | receive conn _ => rw [own_of_worker rfl]
  | send conn => rw [own_of_worker rfl]
  | other htalks hmove =>
    cases hmove with
    | receive _ | sent _ | notSent _ => cases htalks
    | _ => simp [own, Event.worker, replies, Event.reply]

/-- Every run of a session is one with the events of its worker told apart. -/
theorem SessionRun.ownRun (hrun : SessionRun w s events s') :
    ∃ mine, OwnRun w s mine s' ∧ mine.Sublist events ∧ replies mine = replies (own w events) := by
  induction hrun with
  | refl s => exact ⟨[], .refl s, .slnil, rfl⟩
  | @move s t s' es events next hmove _ ih =>
    obtain ⟨mine, hown, hsub, hreplies⟩ := ih
    refine ⟨es ++ mine, .move hmove hown, hsub.append_left es, ?_⟩
    rw [own_append, replies_append, replies_append, hmove.replies_own, hreplies]
  | @other s s₁ s' v choice es events hv hstep _ ih =>
    obtain ⟨mine, hown, hsub, hreplies⟩ := ih
    obtain ⟨t, next, hmove, rfl⟩ := step_move hstep
    refine ⟨mine, .other hv hstep hown, hsub.trans (List.sublist_append_right es events), ?_⟩
    rw [own_append, hmove.own_of_ne hv.symm, List.nil_append, hreplies]

/-- A move of a session leads from a safe state to a safe state, whatever message arrives. -/
private theorem SessionTold.safe_step (htold : SessionTold w username s h (s.point w))
    (hsafe : Safe s) (hmap : RoomMap s) (hmove : SessionMove w s (code w (s.point w)) es t next) :
    Safe (t.goto w next) ∧ RoomMap (t.goto w next) := by
  have hquiet (htalks : (code w (s.point w)).talks = false) :
      Safe (t.goto w next) ∧ RoomMap (t.goto w next) :=
    ⟨hsafe.move hmap (hmove.move htalks), hmap.move (hmove.move htalks)⟩
  cases hp : s.point w with
  | senderLoop u current =>
    rw [hp, code] at hmove
    cases hmove with
    | receive conn _ =>
      refine ⟨hsafe.of_stage rfl rfl rfl rfl ?_, hmap.of_rooms rfl rfl rfl fun r hr => ?_⟩
      · rw [stage_senderRequest, Server.stage, hp]
        rfl
      · rw [hp]
        exact room_senderRequest hr
    | other htalks _ => cases htalks
  | senderReply msg u current =>
    rw [hp, code] at hmove
    cases hmove with
    | send conn =>
      refine ⟨hsafe.of_stage rfl rfl rfl rfl ?_, hmap.of_rooms rfl rfl rfl fun r hr => ?_⟩
      · rw [Server.stage, hp]
        rfl
      · rw [hp]
        exact hr
    | other htalks _ => cases htalks
  | senderQuit =>
    rw [hp, code] at hmove
    cases hmove with
    | send conn =>
      refine ⟨hsafe.of_stage rfl rfl rfl rfl ?_, hmap.of_rooms rfl rfl rfl fun r hr => ?_⟩
      · rw [Server.stage, hp]
        rfl
      · cases hr
    | other htalks _ => cases htalks
  | _ =>
    rw [hp] at htold hquiet
    first
      | exact htold.elim
      | exact hquiet rfl

theorem SessionRun.safe (hrun : SessionRun w s events s')
    (htold : SessionTold w username s h (s.point w)) (hsafe : Safe s) (hmap : RoomMap s) :
    Safe s' ∧ RoomMap s' := by
  induction hrun generalizing h with
  | refl s => exact ⟨hsafe, hmap⟩
  | @move s t s' es events next hmove _ ih =>
    obtain ⟨hsafe', hmap'⟩ := htold.safe_step hsafe hmap hmove
    refine ih (h := h ++ own w es) ?_ hsafe' hmap'
    rw [Server.goto_point, Function.update_self]
    exact SessionTold.mono (s := t) (fun _ _ hr => hr) (htold.step hmove)
  | other hv hstep _ ih =>
    have hsafe' := hsafe.step hmap hstep
    have hmap' := hmap.step hstep
    obtain ⟨t, next, hmove, rfl⟩ := step_move hstep
    refine ih (h := h) ?_ hsafe' hmap'
    rw [Server.goto_point, Function.update_of_ne hv.symm, hmove.point_eq]
    exact htold.mono fun _ _ hr => hmove.lookup hr

end Sessions
end CsfAssignments.Chat
