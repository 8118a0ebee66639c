import CsfAssignments.SenderBroadcasts
import CsfAssignments.SenderReplies
import Mathlib.Data.List.Infix

/-!
# Whole sessions of a sender

Every session follows the automaton, whatever the other workers do. A message that is refused
changes nothing on the server, and when no other worker holds a lock the sender gets through any
sequence of messages.
-/

namespace CsfAssignments.Chat
open Transducers

/-- The runs of a session in which the moves of its worker leave the map of the rooms and all
queues as they are. -/
inductive QuietRun (w : Worker) : Server → List Event → Server → Prop
  | refl (s : Server) : QuietRun w s [] s
  | move {s t s' : Server} {es events : List Event} {next : Point} :
      SessionMove w s (code w (s.point w)) es t next → t.rooms = s.rooms →
      (∀ u, (t.user u).mqueue = (s.user u).mqueue) → QuietRun w (t.goto w next) events s' →
      QuietRun w s (es ++ events) s'
  | other {s s₁ s' : Server} {v : Worker} {choice : Choice} {es events : List Event} : v ≠ w →
      s.step v choice = some (es, s₁) → QuietRun w s₁ events s' → QuietRun w s (es ++ events) s'

/-- What holds at every point of a session. -/
structure Automatic (w : Worker) (username : List Char) (s : Server) (h : List Event) :
    Prop where
  /-- Nothing is heard after a request to quit. -/
  quit : ∀ m ∈ (received h).dropLast, ¬Quits m
  replies_le : (replies h).length ≤ (received h).length
  /-- At most the last reply is due, and none between two messages and at the end. -/
  due : (received h).length ≤ (replies h).length + 1
  answered : (∃ u current, s.point w = .senderLoop u current) ∨ s.point w = .deleteUser ∨
    s.point w = .ended → (replies h).length = (received h).length
  /-- The replies are those of the automaton. -/
  told : List.Forall₂ Told (replies h)
    ((senderAutomaton.outputs (received h)).take (replies h).length)
  current : ∀ u current, s.point w = .senderLoop u current → s.Inside h current
  /-- Every `sendall` that was answered `ok` is one broadcast, and there are no others. -/
  broadcasts : (replies h).length = (received h).length →
    List.Forall₂ (s.Broadcasts username) (broadcasts h) (posts (received h))

section Told
variable {w : Worker} {username : List Char} {s t : Server} {h es : List Event} {p next : Point}

theorem Quitting.dropLast (hquitting : Quitting h) : ∀ m ∈ (received h).dropLast, ¬Quits m := by
  obtain ⟨ms, m, hreceived, -, hbefore⟩ := hquitting
  rwa [hreceived, List.dropLast_concat]

/-- The last reply is due. -/
def Due (h : List Event) : Prop :=
  ∃ reply, List.Forall₂ Told (replies h ++ [reply]) (senderAutomaton.outputs (received h))

theorem Answered.due {reply : Message} (hall : Answered s username (h ++ [.sent w reply])) :
    Due h := by
  refine ⟨reply, ?_⟩
  have htold := hall.told
  rwa [received_append, replies_append, show received [.sent w reply] = [] from rfl,
    List.append_nil] at htold

/-- A broadcast is no message and no reply. -/
theorem Answered.due_locked {b : Broadcast} {msg reply : Message}
    (hall : Answered s username (h ++ [.locked w b msg] ++ [.sent w reply])) : Due h := by
  have hdue := hall.due
  rwa [Due, received_append, replies_append, show received [.locked w b msg] = [] from rfl,
    show replies [.locked w b msg] = [] from rfl, List.append_nil, List.append_nil] at hdue

/-- The points at which all messages are answered. -/
def Point.Settled : Point → Prop
  | .senderLoop _ _ | .deleteUser | .ended => True
  | _ => False

theorem SessionTold.settled (htold : SessionTold w username s h p) (hp : p.Settled) :
    Answered s username h := by
  cases p with
  | senderLoop u current => exact htold.2.1
  | deleteUser => exact htold.1
  | ended => exact htold.1
  | _ => exact hp.elim

theorem SessionTold.due (htold : SessionTold w username s h p) (hp : ¬p.Settled) : Due h := by
  cases p with
  | senderReply msg u current => exact htold.2.1.due
  | senderQuit => exact htold.1.due
  | findAcquire caller name | findBody caller name | findRelease caller r =>
    cases caller with
    | receiver => exact htold.elim
    | sender u => exact htold.2.1.due
  | broadcastAcquire b => exact (htold.2.1 ok).due_locked
  | broadcasting b visited | enqueueAcquire b visited u | enqueuePush b visited u
  | enqueuePost b visited u | enqueueRelease b visited u | broadcastRelease b =>
    exact htold.2.1.due
  | senderLoop u current | deleteUser | ended => exact absurd trivial hp
  | _ => exact htold.elim

theorem SessionTold.quit (htold : SessionTold w username s h p) :
    ∀ m ∈ (received h).dropLast, ¬Quits m := by
  have hstaying : Staying h → ∀ m ∈ (received h).dropLast, ¬Quits m :=
    fun hstay m hm => hstay m (List.dropLast_subset _ hm)
  cases p with
  | senderQuit | deleteUser | ended => exact htold.2.dropLast
  | findAcquire caller name | findBody caller name | findRelease caller r =>
    cases caller with
    | receiver => exact htold.elim
    | sender u => exact hstaying htold.2.2.2.2
  | senderLoop u current | senderReply msg u current => exact hstaying htold.2.2.2
  | broadcastAcquire b | broadcasting b visited | enqueueAcquire b visited u
  | enqueuePush b visited u | enqueuePost b visited u | enqueueRelease b visited u
  | broadcastRelease b => exact hstaying htold.2.2.2.2
  | _ => exact htold.elim

theorem SessionTold.automatic (htold : SessionTold w username s h (s.point w)) :
    Automatic w username s h := by
  have hcurrent : ∀ u current, s.point w = .senderLoop u current → s.Inside h current := by
    intro u current hpoint
    rw [hpoint] at htold
    exact htold.2.2.1
  by_cases hp : (s.point w).Settled
  · have hall := htold.settled hp
    have hcount : (replies h).length = (received h).length := by
      rw [hall.told.length_eq, Transducer.length_outputs]
    refine ⟨htold.quit, hcount.le, by omega, fun _ => hcount, ?_, hcurrent, fun _ => hall.posts⟩
    rw [hcount, ← senderAutomaton.length_outputs, List.take_length]
    exact hall.told
  · obtain ⟨reply, hall⟩ := htold.due hp
    have hcount : (replies h).length + 1 = (received h).length := by
      have hlen := hall.length_eq
      rwa [Transducer.length_outputs, List.length_append] at hlen
    refine ⟨htold.quit, by omega, by omega, ?_, ?_, hcurrent, fun heq => by omega⟩
    · rintro (⟨u, current, hpoint⟩ | hpoint | hpoint) <;> exact absurd (hpoint ▸ trivial) hp
    · have htake := List.forall₂_take (replies h).length hall
      rwa [List.take_left] at htake

/-- The map changes while a join is accepted and not answered yet, and the queues while a
`sendall` is. -/
theorem SessionTold.effects (htold : SessionTold w username s h p)
    (hmove : SessionMove w s (code w p) es t next) :
    (t.rooms = s.rooms ∨ Pending h tagJoin) ∧
      ((∀ u, (t.user u).mqueue = (s.user u).mqueue) ∨ Pending h tagSendall) := by
  cases p with
  | senderLoop u current =>
    rw [code] at hmove
    cases hmove with
    | receive conn _ => exact ⟨.inl rfl, .inl fun _ => rfl⟩
    | other htalks _ => cases htalks
  | senderReply msg u current | senderQuit =>
    rw [code] at hmove
    cases hmove with
    | send conn => exact ⟨.inl rfl, .inl fun _ => rfl⟩
    | other htalks _ => cases htalks
  | findAcquire caller name | findBody caller name | findRelease caller r =>
    have hmove := hmove.move rfl
    rw [code] at hmove
    cases caller with
    | receiver => exact htold.elim
    | sender u => exact ⟨.inr htold.2.2.1, .inl (by cases hmove <;> exact fun _ => rfl)⟩
  | broadcastAcquire b | broadcasting b visited | enqueueAcquire b visited u
  | enqueuePush b visited u | enqueuePost b visited u | enqueueRelease b visited u
  | broadcastRelease b =>
    have hmove := hmove.move rfl
    rw [code] at hmove
    exact ⟨.inl (by cases hmove <;> rfl), .inr htold.2.2.1⟩
  | deleteUser =>
    have hmove := hmove.move rfl
    rw [code] at hmove
    cases hmove
    refine ⟨.inl rfl, .inl fun u => ?_⟩
    by_cases hu : u = w
    · subst hu
      simp
    · simp [hu]
  | ended =>
    have hmove := hmove.move rfl
    rw [code] at hmove
    cases hmove
  | _ => exact htold.elim

/-- As long as no message is accepted, the moves of the worker change neither the map nor a
queue. -/
theorem SessionRun.quiet {s' : Server} {events : List Event} (hrun : SessionRun w s events s')
    (htold : SessionTold w username s h (s.point w))
    (hnone : ∀ es, es <+: own w events → ∀ tag, ¬Pending (h ++ es) tag) :
    QuietRun w s events s' := by
  induction hrun generalizing h with
  | refl s => exact .refl s
  | @move s t s' es events next hmove _ ih =>
    have hpending : ∀ tag, ¬Pending h tag := by
      have hnil := hnone [] List.nil_prefix
      rwa [List.append_nil] at hnil
    obtain ⟨hrooms, hqueues⟩ := htold.effects hmove
    refine .move hmove (hrooms.resolve_right (hpending _)) (hqueues.resolve_right (hpending _)) ?_
    refine ih (h := h ++ own w es) ?_ fun more hmore tag => ?_
    · rw [Server.goto_point, Function.update_self]
      exact SessionTold.mono (s := t) (fun _ _ hr => hr) (htold.step hmove)
    · rw [List.append_assoc]
      refine hnone _ ?_ tag
      rw [own_append]
      exact (List.prefix_append_right_inj _).mpr hmore
  | other hv hstep _ ih =>
    obtain ⟨t, next, hmove, rfl⟩ := step_move hstep
    rw [own_append, hmove.own_of_ne hv.symm, List.nil_append] at hnone
    refine .other hv hstep (ih ?_ hnone)
    rw [Server.goto_point, Function.update_of_ne hv.symm, hmove.point_eq]
    exact htold.mono fun _ _ hr => hmove.lookup hr

theorem SessionRun.lookup {s' : Server} {events : List Event} (hrun : SessionRun w s events s')
    {name : List Char} {r : RoomId} (hr : s.rooms.lookup name = some r) :
    s'.rooms.lookup name = some r := by
  induction hrun with
  | refl s => exact hr
  | move hmove _ ih => exact ih (hmove.lookup hr)
  | other _ hstep _ ih =>
    obtain ⟨t, next, hmove, rfl⟩ := step_move hstep
    exact ih (hmove.lookup hr)

/-- Between two messages, of which the first is refused, nothing is accepted. -/
theorem not_pending_of_refused {m : Request} {h' : List Event} {tag : List Char}
    (hcount : (replies h).length = (received h).length)
    (hreceived : received h' <+: received h ++ [m]) (hreplies : replies h <+: replies h')
    (hrefused : ¬Accepts (senderAutomaton.state (received h)) m) : ¬Pending h' tag := by
  rintro ⟨ms, m', hms, hcount', haccepted, -⟩
  rw [hms] at hreceived
  have hle := hreceived.length_le
  have hle' := hreplies.length_le
  simp only [List.length_append, List.length_singleton] at hle
  have heq := hreceived.eq_of_length (by simp; omega)
  obtain ⟨rfl, hm⟩ := List.append_inj' heq rfl
  cases hm
  exact hrefused haccepted

/-- A message that is answered with an error leaves the room of the client, the map and all queues
as they are. -/
theorem SessionTold.refused {s₁ : Server} {m : Request} {reply : Message}
    {current current' : Option RoomId} (htold : SessionTold w username s h (s.point w))
    (hpoint : s.point w = .senderLoop username current) (hrun : SessionRun w s es s₁)
    (hpoint₁ : s₁.point w = .senderLoop username current') (hreceived : received (own w es) = [m])
    (hreplies : replies (own w es) = [reply]) (herr : reply.tag = tagErr) :
    current' = current ∧ QuietRun w s es s₁ := by
  have hbefore := htold.automatic
  have hafter := (hrun.told htold).automatic
  have hcount := hbefore.answered (.inl ⟨_, _, hpoint⟩)
  have hlast : Told reply (senderAutomaton.output (senderAutomaton.state (received h)) m) := by
    have hall := ((hrun.told htold).settled (hpoint₁ ▸ trivial)).told
    rw [received_append, replies_append, hreceived, hreplies, Transducer.outputs_concat] at hall
    have hdrop := List.forall₂_drop (replies h).length hall
    rw [List.drop_left, hcount, ← senderAutomaton.length_outputs, List.drop_left] at hdrop
    cases hdrop with
    | cons hlast _ => exact hlast
  have hrefused : ¬Accepts (senderAutomaton.state (received h)) m := by
    intro haccepted
    have hok : reply = ok := by
      have haccept :
          (senderAutomaton.output (senderAutomaton.state (received h)) m).accepted = true :=
        decide_eq_true haccepted
      rwa [Told, if_pos haccept] at hlast
    rw [hok] at herr
    exact absurd herr (by decide)
  refine ⟨?_, hrun.quiet htold fun more hmore tag => ?_⟩
  · have hinside := hbefore.current _ _ hpoint
    have hinside₁ := hafter.current _ _ hpoint₁
    rw [Server.Inside, received_append, hreceived, Transducer.state_concat,
      next_of_not_accepts hrefused] at hinside₁
    have hkept : s₁.Inside h current := hinside.mono fun _ _ hr => hrun.lookup hr
    exact Option.map_injective (Option.some_injective _) (hinside₁.symm.trans hkept)
  · refine not_pending_of_refused (h := h) (m := m) hcount ?_ ?_ hrefused
    · rw [received_append, ← hreceived]
      exact (List.prefix_append_right_inj _).mpr (hmore.filterMap _)
    · rw [replies_append]
      exact List.prefix_append ..

end Told
section Progress
variable {w : Worker} {username : List Char} {s s₁ s₂ t : Server} {es : List Event} {next : Point}
  {current : Option RoomId}

theorem SessionRun.trans {events : List Event} (h₁ : SessionRun w s events s₁)
    (h₂ : SessionRun w s₁ es s₂) : SessionRun w s (events ++ es) s₂ := by
  induction h₁ with
  | refl s => exact h₂
  | move hmove _ ih =>
    rw [List.append_assoc]
    exact .move hmove (ih h₂)
  | other hv hstep _ ih =>
    rw [List.append_assoc]
    exact .other hv hstep (ih h₂)

/-- The worker hears these messages and sends this many replies. -/
def Exchanges (w : Worker) (s : Server) (ms : List Request) (n : ℕ) (s' : Server) : Prop :=
  ∃ events, SessionRun w s events s' ∧ received (own w events) = ms ∧
    (replies (own w events)).length = n

/-- The worker moves without hearing or saying anything. -/
abbrev Working (w : Worker) (s s' : Server) : Prop := Exchanges w s [] 0 s'

theorem Exchanges.trans {ms ms' : List Request} {n n' : ℕ} (h₁ : Exchanges w s ms n s₁)
    (h₂ : Exchanges w s₁ ms' n' s₂) : Exchanges w s (ms ++ ms') (n + n') s₂ := by
  obtain ⟨events, hrun, hreceived, hreplies⟩ := h₁
  obtain ⟨es, hmore, hreceived', hreplies'⟩ := h₂
  refine ⟨events ++ es, hrun.trans hmore, ?_, ?_⟩
  · rw [own_append, received_append, hreceived, hreceived']
  · rw [own_append, replies_append, List.length_append, hreplies, hreplies']

theorem Working.refl (w : Worker) (s : Server) : Working w s s := ⟨[], .refl s, rfl, rfl⟩

theorem Working.trans (h₁ : Working w s s₁) (h₂ : Working w s₁ s₂) : Working w s s₂ :=
  Exchanges.trans h₁ h₂

/-- Any message may arrive. -/
theorem Exchanges.hear {m : Request} (hpoint : s.point w = .senderLoop username current)
    (hm : m.1 ≠ .eofOrError) : ∃ t : Server, Exchanges w s [m] 0
      (t.goto w (senderRequest username current m.1 m.2)) ∧ t.owner = s.owner := by
  refine ⟨s.setConn w (s.conn w), ⟨[.received w m.1 m.2] ++ [], .move ?_ (.refl _), ?_, ?_⟩, rfl⟩
  · rw [hpoint]
    exact .receive (s.conn w) hm
  · rw [List.append_nil, own_of_worker rfl]
    rfl
  · rw [List.append_nil, own_of_worker rfl]
    rfl

/-- A reply is written. -/
theorem Exchanges.say {p sent failed : Point} {msg : Message} (hpoint : s.point w = p)
    (hcode : code w p = .send msg sent failed) :
    ∃ t : Server, Exchanges w s [] 1 (t.goto w sent) ∧ t.owner = s.owner := by
  refine ⟨s.setConn w (s.conn w), ⟨[.sent w msg] ++ [], .move ?_ (.refl _), ?_, ?_⟩, rfl⟩
  · rw [hpoint, hcode]
    exact .send (s.conn w)
  · rw [List.append_nil, own_of_worker rfl]
    rfl
  · rw [List.append_nil, own_of_worker rfl]
    rfl

theorem Working.move {p : Point} {op : Operation} (hpoint : s.point w = p) (hcode : code w p = op)
    (htalks : op.talks = false) (hmove : Move w s op es t next) : Working w s (t.goto w next) := by
  refine ⟨es ++ [], .move ?_ (.refl (t.goto w next)), ?_, ?_⟩
  · rw [hpoint, hcode]
    exact .other htalks hmove
  all_goals
    rw [List.append_nil]
    cases hmove with
    | receive _ | sent _ | notSent _ => cases htalks
    | _ => simp [own, Event.worker, received, replies, Event.heard, Event.reply]

/-- The room is found, or created, with nobody else in the way. -/
theorem find_working {caller : Caller} {name : List Char} (hfree : ∀ l, s.owner l = none)
    (hpoint : s.point w = .findAcquire caller name) :
    ∃ s' r, Working w s s' ∧ (∀ l, s'.owner l = none) ∧ s'.point w = caller.found r := by
  have hacquire := Working.move hpoint rfl rfl (.acquire (hfree .server))
  set s₁ := (s.setOwner .server (some w)).goto w (.findBody caller name) with hs₁
  have hpoint₁ : s₁.point w = .findBody caller name := by simp [hs₁]
  obtain ⟨s₂, r, hfind, hpoint₂, howner⟩ : ∃ s₂ r, Working w s₁ s₂ ∧
      s₂.point w = .findRelease caller r ∧ s₂.owner = s₁.owner := by
    cases hlookup : s₁.rooms.lookup name with
    | some r => exact ⟨_, r, .move hpoint₁ rfl rfl (.findRoom hlookup), by simp, rfl⟩
    | none => exact ⟨_, _, .move hpoint₁ rfl rfl (.createRoom hlookup), by simp; rfl, rfl⟩
  refine ⟨_, r, (hacquire.trans hfind).trans (.move hpoint₂ rfl rfl .release), fun l => ?_,
    by simp⟩
  by_cases hl : l = .server
  · simp [hl]
  · simp [hl, howner, hs₁, hfree l]

/-- A broadcast puts its message into the queue of a member. -/
theorem enqueue_working {b : Broadcast} {visited : List Worker} {u : Worker}
    (hfree : s.owner (.queue u) = none) (hpoint : s.point w = .enqueueAcquire b visited u) :
    ∃ s', Working w s s' ∧ s'.point w = .broadcasting b (u :: visited) ∧ s'.owner = s.owner ∧
      s'.room = s.room := by
  have hacquire := Working.move hpoint rfl rfl (.acquire hfree)
  set s₁ := (s.setOwner (.queue u) (some w)).goto w (.enqueuePush b visited u) with hs₁
  have hpoint₁ : s₁.point w = .enqueuePush b visited u := by simp [hs₁]
  have hpush := Working.move hpoint₁ rfl rfl .pushBack
  set s₂ := (s₁.setQueue u { (s₁.user u).mqueue with
    messages := (s₁.user u).mqueue.messages ++ [s₁.delivery b] }).goto w
      (.enqueuePost b visited u) with hs₂
  have hpoint₂ : s₂.point w = .enqueuePost b visited u := by simp [hs₂]
  have hpost := Working.move hpoint₂ rfl rfl .semPost
  set s₃ := (s₂.setQueue u { (s₂.user u).mqueue with
    avail := (s₂.user u).mqueue.avail + 1 }).goto w (.enqueueRelease b visited u) with hs₃
  have hpoint₃ : s₃.point w = .enqueueRelease b visited u := by simp [hs₃]
  have hrelease := Working.move hpoint₃ rfl rfl .release
  refine ⟨_, ((hacquire.trans hpush).trans hpost).trans hrelease, by simp, ?_, rfl⟩
  funext l
  by_cases hl : l = .queue u
  · rw [hl, hfree]
    simp
  · simp [hl, hs₃, hs₂, hs₁]

/-- A broadcast visits the members of the room that it has not visited yet. -/
theorem visit_working {b : Broadcast} {visited : List Worker}
    (hfree : ∀ u, s.owner (.queue u) = none) (hpoint : s.point w = .broadcasting b visited) :
    ∃ s', Working w s s' ∧ s'.point w = .broadcastRelease b ∧ s'.owner = s.owner := by
  induction hn : ((s.room b.room).members.filter (· ∉ visited)).length using Nat.strong_induction_on
    generalizing s visited with
  | _ n ih =>
    by_cases hlast : ∀ u ∈ (s.room b.room).members, u ∈ visited
    · exact ⟨_, .move hpoint rfl rfl (.lastMember hlast), by simp, rfl⟩
    · push Not at hlast
      obtain ⟨u, hmember, hu⟩ := hlast
      have hnext := Working.move hpoint rfl rfl (.nextMember hmember hu)
      set s₁ := s.goto w (.enqueueAcquire b visited u) with hs₁
      have hpoint₁ : s₁.point w = .enqueueAcquire b visited u := by simp [hs₁]
      obtain ⟨s₂, henqueue, hpoint₂, howner₂, hroom₂⟩ := enqueue_working (s := s₁) (hfree u) hpoint₁
      have hfewer : ((s₂.room b.room).members.filter (· ∉ u :: visited)).length < n := by
        have hsplit : (s.room b.room).members.filter (· ∉ u :: visited) =
            ((s.room b.room).members.filter (· ∉ visited)).filter (· ≠ u) := by
          simp [List.filter_filter]
        rw [hroom₂, ← hn, Server.goto_room, hsplit, List.length_filter_lt_length_iff_exists]
        exact ⟨u, by simp [hmember, hu], by simp⟩
      obtain ⟨s₃, hrest, hpoint₃, howner₃⟩ :=
        ih _ hfewer (by rw [howner₂]; exact hfree) hpoint₂ rfl
      exact ⟨s₃, (hnext.trans henqueue).trans hrest, hpoint₃, howner₃.trans howner₂⟩

/-- A broadcast with nobody else in the way. -/
theorem broadcast_working {b : Broadcast} (hfree : ∀ l, s.owner l = none)
    (hpoint : s.point w = .broadcastAcquire b) :
    ∃ s', Working w s s' ∧ (∀ l, s'.owner l = none) ∧
      s'.point w = .senderReply ok b.username (some b.room) := by
  have hacquire := Working.move hpoint rfl rfl (.broadcast (hfree (.room b.room)))
  set s₁ := (s.setOwner (.room b.room) (some w)).goto w (.broadcasting b []) with hs₁
  have hpoint₁ : s₁.point w = .broadcasting b [] := by simp [hs₁]
  obtain ⟨s₂, hvisit, hpoint₂, howner₂⟩ :=
    visit_working (fun u => by simp [hs₁, hfree]) hpoint₁
  refine ⟨_, (hacquire.trans hvisit).trans (.move hpoint₂ rfl rfl .release), fun l => ?_, by simp⟩
  by_cases hl : l = .room b.room
  · simp [hl]
  · simp [hl, howner₂, hs₁, hfree l]

/-- The worker answers a message, and is ready for the next one unless the client quits. -/
theorem exists_answer {m : Request} (hfree : ∀ l, s.owner l = none)
    (hpoint : s.point w = .senderLoop username current) (hm : m.1 ≠ .eofOrError) :
    ∃ s', Exchanges w s [m] 1 s' ∧ (¬Quits m → (∀ l, s'.owner l = none) ∧
      ∃ current', s'.point w = .senderLoop username current') := by
  obtain ⟨t, hear, howner⟩ := Exchanges.hear hpoint hm
  set s₁ := t.goto w (senderRequest username current m.1 m.2) with hs₁
  have hfree₁ : ∀ l, s₁.owner l = none := by simp [hs₁, howner, hfree]
  have hpoint₁ : s₁.point w = senderRequest username current m.1 m.2 := by simp [hs₁]
  have hreply {s₂ : Server} {reply : Message} {current' : Option RoomId}
      (hworking : Working w s₁ s₂) (hfree₂ : ∀ l, s₂.owner l = none)
      (hpoint₂ : s₂.point w = .senderReply reply username current') :
      ∃ s', Exchanges w s [m] 1 s' ∧ (¬Quits m → (∀ l, s'.owner l = none) ∧
        ∃ current', s'.point w = .senderLoop username current') := by
    obtain ⟨t', say, howner'⟩ := Exchanges.say hpoint₂ rfl
    exact ⟨_, (hear.trans hworking).trans say, fun _ => ⟨by simp [howner', hfree₂],
      current', by simp⟩⟩
  by_cases hquit : Quits m
  · rw [hquit.1, senderRequest_quit hquit.2] at hpoint₁
    obtain ⟨t', say, -⟩ := Exchanges.say hpoint₁ rfl
    exact ⟨_, hear.trans say, fun hstay => absurd hquit hstay⟩
  · rcases @senderRequest_cases username current m.1 m.2 hm fun hsuccess htag =>
      hquit ⟨hsuccess, htag⟩ with ⟨reply, current', h⟩ | ⟨name, h⟩ | ⟨b, rfl, h⟩
    · exact hreply (.refl w s₁) hfree₁ (hpoint₁.trans h)
    · obtain ⟨s₂, r, hfind, hfree₂, hpoint₂⟩ := find_working hfree₁ (hpoint₁.trans h)
      exact hreply hfind hfree₂ hpoint₂
    · obtain ⟨s₂, hbroadcast, hfree₂, hpoint₂⟩ := broadcast_working hfree₁ (hpoint₁.trans h)
      exact hreply hbroadcast hfree₂ hpoint₂

/-- The worker answers all messages up to a request to quit. -/
theorem exists_session {ms : List Request} (hfree : ∀ l, s.owner l = none)
    (hpoint : s.point w = .senderLoop username current) (hms : ∀ m ∈ ms, m.1 ≠ .eofOrError)
    (hstay : ∀ m ∈ ms.dropLast, ¬Quits m) : ∃ s', Exchanges w s ms ms.length s' := by
  induction ms generalizing s current with
  | nil => exact ⟨s, [], .refl s, rfl, rfl⟩
  | cons m ms ih =>
    rw [List.forall_mem_cons] at hms
    obtain ⟨s₁, hanswer, hnext⟩ := exists_answer hfree hpoint hms.1
    cases ms with
    | nil => exact ⟨s₁, hanswer⟩
    | cons m' ms =>
      rw [List.dropLast_cons_cons, List.forall_mem_cons] at hstay
      obtain ⟨hfree₁, current₁, hpoint₁⟩ := hnext hstay.1
      obtain ⟨s₂, hrest⟩ := ih hfree₁ hpoint₁ hms.2 hstay.2
      refine ⟨s₂, ?_⟩
      rw [List.length_cons, Nat.add_comm]
      exact hanswer.trans hrest

/-- Every operation but the front of a queue can be done unless its lock is taken. -/
theorem exists_sessionMove {op : Operation} (hhalt : op ≠ .halt)
    (hpop : ∀ next, op ≠ .popFront next) : (∃ es t next, SessionMove w s op es t next) ∨
      ∃ l b next, op = .acquire l b next ∧ s.owner l ≠ none := by
  cases op with
  | newUser next => exact .inl ⟨_, _, _, .other rfl .newUser⟩
  | deleteUser next => exact .inl ⟨_, _, _, .other rfl .deleteUser⟩
  | receive next =>
    have hresult : Result.success ≠ .eofOrError := by decide
    exact .inl ⟨[.received w .success ok], _, _, .receive (s.conn w) hresult⟩
  | send msg sent failed => exact .inl ⟨_, _, _, .send (s.conn w)⟩
  | acquire l b next =>
    by_cases hfree : s.owner l = none
    · cases b with
      | none => exact .inl ⟨_, _, _, .other rfl (.acquire hfree)⟩
      | some b => exact .inl ⟨_, _, _, .other rfl (.broadcast hfree)⟩
    · exact .inr ⟨l, b, next, rfl, hfree⟩
  | release l next => exact .inl ⟨_, _, _, .other rfl .release⟩
  | findRoom name next =>
    cases hlookup : s.rooms.lookup name with
    | none => exact .inl ⟨_, _, _, .other rfl (.createRoom hlookup)⟩
    | some r => exact .inl ⟨_, _, _, .other rfl (.findRoom hlookup)⟩
  | insertMember r next => exact .inl ⟨_, _, _, .other rfl .insertMember⟩
  | eraseMember r next => exact .inl ⟨_, _, _, .other rfl .eraseMember⟩
  | nextMember r visited next last =>
    by_cases hlast : ∀ u ∈ (s.room r).members, u ∈ visited
    · exact .inl ⟨_, _, _, .other rfl (.lastMember hlast)⟩
    · push Not at hlast
      obtain ⟨u, hmember, hu⟩ := hlast
      exact .inl ⟨_, _, _, .other rfl (.nextMember hmember hu)⟩
  | pushBack u b next => exact .inl ⟨_, _, _, .other rfl .pushBack⟩
  | semPost u next => exact .inl ⟨_, _, _, .other rfl .semPost⟩
  | semTimedwait next timeout => exact .inl ⟨_, _, _, .other rfl .timeout⟩
  | popFront next => exact absurd rfl (hpop next)
  | halt => exact absurd rfl hhalt

/-- Until it has returned, the worker can go on unless it waits for a lock that is taken. -/
theorem SessionTold.progress {h : List Event} (htold : SessionTold w username s h (s.point w)) :
    s.point w = .ended ∨ (∃ es t next, SessionMove w s (code w (s.point w)) es t next) ∨
      ∃ l b next, code w (s.point w) = .acquire l b next ∧ s.owner l ≠ none := by
  by_cases hended : s.point w = .ended
  · exact .inl hended
  · refine .inr (exists_sessionMove ?_ fun next => ?_)
    all_goals
      cases hp : s.point w with
      | ended => exact absurd hp hended
      | dequeuePop r =>
        rw [hp] at htold
        exact htold.elim
      | _ => rw [code]; exact Operation.noConfusion

end Progress
section Runs
variable {w : Worker} {username : List Char} {s s' t : Server} {es events : List Event}
  {op : Operation} {next : Point}

/-- A move is one of a session if the connection has not failed behind it. -/
theorem SessionMove.of_move (hmove : Move w s op es t next)
    (hconn : (t.conn w).lastResult ≠ .eofOrError) : SessionMove w s op es t next := by
  cases hmove with
  | receive _ => exact .receive _ (by simpa using hconn)
  | sent _ => exact .send _
  | notSent hsend => exact absurd (by simpa using Connection.send_false hsend) hconn
  | newUser => exact .other rfl .newUser
  | deleteUser => exact .other rfl .deleteUser
  | acquire hfree => exact .other rfl (.acquire hfree)
  | broadcast hfree => exact .other rfl (.broadcast hfree)
  | release => exact .other rfl .release
  | findRoom hr => exact .other rfl (.findRoom hr)
  | createRoom hr => exact .other rfl (.createRoom hr)
  | insertMember => exact .other rfl .insertMember
  | eraseMember => exact .other rfl .eraseMember
  | nextMember hmember hu => exact .other rfl (.nextMember hmember hu)
  | lastMember hlast => exact .other rfl (.lastMember hlast)
  | pushBack => exact .other rfl .pushBack
  | semPost => exact .other rfl .semPost
  | semWait havail => exact .other rfl (.semWait havail)
  | timeout => exact .other rfl .timeout
  | popFront hmessages => exact .other rfl (.popFront hmessages)

/-- The connection of a worker does not fail in the moves of a schedule. -/
def Server.Connected (s : Server) (w : Worker) (schedule : List (Worker × Choice)) : Prop :=
  ∀ before es t, before <+: schedule → s.exec before = some (es, t) →
    (t.conn w).lastResult ≠ .eofOrError

instance (s : Server) (w : Worker) (schedule : List (Worker × Choice)) :
    Decidable (s.Connected w schedule) :=
  decidable_of_iff (∀ before ∈ schedule.inits, ∀ moves ∈ s.exec before,
    (moves.2.conn w).lastResult ≠ .eofOrError)
    ⟨fun h before es t hbefore hmoves => h before ((List.mem_inits _ _).mpr hbefore) (es, t) hmoves,
      fun h before hbefore moves hmoves =>
        h before moves.1 moves.2 ((List.mem_inits _ _).mp hbefore) hmoves⟩

/-- The connection is healthy in front of the schedule. -/
theorem Server.Connected.healthy {schedule : List (Worker × Choice)}
    (hconn : s.Connected w schedule) : (s.conn w).lastResult ≠ .eofOrError :=
  hconn [] [] s List.nil_prefix rfl

theorem Server.Connected.tail {s₁ : Server} {v : Worker} {choice : Choice}
    {schedule : List (Worker × Choice)} (hconn : s.Connected w ((v, choice) :: schedule))
    (hstep : s.step v choice = some (es, s₁)) : s₁.Connected w schedule := by
  intro before more t hbefore hmoves
  refine hconn ((v, choice) :: before) (es ++ more) t ?_ ?_
  · exact List.cons_prefix_cons.mpr ⟨rfl, hbefore⟩
  · rw [Server.exec, hstep, Option.bind_some, hmoves, Option.map_some]

/-- A step of the worker behind which its connection has not failed is a move of the session. -/
theorem SessionMove.of_step {s₁ : Server} {choice : Choice}
    (hstep : s.step w choice = some (es, s₁)) (hconn : (s₁.conn w).lastResult ≠ .eofOrError) :
    ∃ t next, SessionMove w s (code w (s.point w)) es t next ∧ s₁ = t.goto w next := by
  obtain ⟨t, next, hmove, rfl⟩ := step_move hstep
  exact ⟨t, next, .of_move hmove hconn, rfl⟩

/-- The runs of the server in which the connection does not fail are sessions. -/
theorem SessionRun.of_exec {schedule : List (Worker × Choice)}
    (hexec : s.exec schedule = some (events, s')) (hconn : s.Connected w schedule) :
    SessionRun w s events s' := by
  induction schedule generalizing s events with
  | nil =>
    cases hexec
    exact .refl _
  | cons move schedule ih =>
    obtain ⟨v, choice⟩ := move
    obtain ⟨es₁, s₁, es₂, hstep, hrest, rfl⟩ := Server.exec_cons hexec
    have hconn₁ := hconn.tail hstep
    have hrun : SessionRun w s₁ es₂ s' := ih hrest hconn₁
    by_cases hv : v = w
    · subst hv
      obtain ⟨t, next, hmove, rfl⟩ := SessionMove.of_step hstep hconn₁.healthy
      exact .move hmove hrun
    · exact .other hv hstep hrun

/-- A run of the server from the lock of a broadcast to the next reply of its worker. -/
theorem exists_posts {s₁ s₂ s₃ : Server} {choice last : Choice}
    {schedule : List (Worker × Choice)} {b : Broadcast} {msg reply : Message}
    (hlock : s.step w choice = some ([.locked w b msg], s₁))
    (hexec : s₁.exec schedule = some (events, s₂)) (hnone : replies (own w events) = [])
    (hlast : s₂.step w last = some ([.sent w reply], s₃)) (hconn : s₁.Connected w schedule)
    (hconn₃ : (s₃.conn w).lastResult ≠ .eofOrError) :
    ∃ mine, Posts w s b msg mine reply := by
  obtain ⟨t, next, hmove, rfl⟩ := SessionMove.of_step hlock hconn.healthy
  obtain ⟨t₂, next₂, hmove₂, -⟩ := SessionMove.of_step hlast hconn₃
  obtain ⟨mine, hown, -, hreplies⟩ := (SessionRun.of_exec hexec hconn).ownRun
  exact ⟨mine, t, next, s₂, t₂, next₂, hmove, hown, hreplies.trans hnone, hmove₂⟩

end Runs

/-- A sender starts in no room, with nothing heard and nothing said. -/
theorem sessionTold_start {w : Worker} {username : List Char} {s : Server}
    (hpoint : s.point w = .senderLoop username none) :
    SessionTold w username s [] (s.point w) := by
  rw [hpoint]
  exact ⟨rfl, ⟨.nil, .nil⟩, rfl, by simp [Staying, received]⟩

/-- A session follows the automaton at all its points, whatever the other workers do. A message
that is answered with an error leaves the room of the client, the map of the rooms and the queues
as they are. Between the lock of a broadcast and the reply, which is `ok`, the moves of the worker,
whose events are among those of the session, put the delivery once into the queue of every member
of the room, and make no other one. The worker waits for nothing but locks, and when all are free it
answers any messages up to a request to quit. The runs of the server in which the connection does
not fail are sessions. -/
theorem sender_session {w : Worker} {username : List Char} {s : Server}
    (hpoint : s.point w = .senderLoop username none) :
    (∀ events s', SessionRun w s events s' → Automatic w username s' (own w events)) ∧
    (∀ events s₁ es s₂ current current' m reply, SessionRun w s events s₁ →
      s₁.point w = .senderLoop username current → SessionRun w s₁ es s₂ →
      s₂.point w = .senderLoop username current' → received (own w es) = [m] →
      replies (own w es) = [reply] → reply.tag = tagErr →
      current' = current ∧ QuietRun w s₁ es s₂) ∧
    (∀ conn earlier, Run conn earlier s → ∀ events s₁, SessionRun w s events s₁ →
      (∀ es s₂, SessionRun w s₁ es s₂ → ∃ mine, OwnRun w s₁ mine s₂ ∧ mine.Sublist es ∧
        replies mine = replies (own w es)) ∧
      ∀ b msg mine reply, Posts w s₁ b msg mine reply →
        reply = ok ∧ msg = s₁.delivery b ∧ Serves (s₁.room b.room).members msg mine) ∧
    (∀ events s', SessionRun w s events s' → s'.point w = .ended ∨
      (∃ es t next, SessionMove w s' (code w (s'.point w)) es t next) ∨
      ∃ l b next, code w (s'.point w) = .acquire l b next ∧ s'.owner l ≠ none) ∧
    ((∀ l, s.owner l = none) → ∀ ms : List Request, (∀ m ∈ ms, m.1 ≠ .eofOrError) →
      (∀ m ∈ ms.dropLast, ¬Quits m) → ∃ s', Exchanges w s ms ms.length s') ∧
    ∀ schedule events s', s.exec schedule = some (events, s') → s.Connected w schedule →
      SessionRun w s events s' := by
  refine ⟨fun events s' hrun => (hrun.told (sessionTold_start hpoint)).automatic, ?_, ?_,
    fun events s' hrun => (hrun.told (sessionTold_start hpoint)).progress, ?_, ?_⟩
  · intro events s₁ es s₂ current current' m reply hrun hpoint₁ hmore hpoint₂ hreceived hreplies
      herr
    exact (hrun.told (sessionTold_start hpoint)).refused hpoint₁ hmore hpoint₂ hreceived hreplies
      herr
  · intro conn earlier hearlier events s₁ hrun
    obtain ⟨hsafe, hmap⟩ :=
      hrun.safe (sessionTold_start hpoint) hearlier.safe hearlier.roomMap
    exact ⟨fun es s₂ hmore => hmore.ownRun,
      fun b msg mine reply hposts => hposts.serves hsafe hmap⟩
  · intro hfree ms hms hstay
    exact exists_session hfree hpoint hms hstay
  · intro schedule events s' hexec hconn
    exact .of_exec hexec hconn

/-- The receiver joins its room, and the sender logs in. -/
def receiverFirst : List (Worker × Choice) :=
  List.replicate 10 (0, .proceed) ++ List.replicate 3 (1, .proceed)

/-- The sender joins the room, and is about to broadcast. -/
def joinAndSend : List (Worker × Choice) := List.replicate 6 (1, .proceed)

/-- The broadcast behind its lock, up to the reply. -/
def serveReceiver : List (Worker × Choice) := (1, .member 0) :: List.replicate 6 (1, .proceed)

/-- A join and a `sendall` with a receiver in the room. -/
theorem sender_session_broadcast : ∃ earlier s events s₁ mine, Run twoClients earlier s ∧
    s.point 1 = .senderLoop "eve".toList none ∧ SessionRun 1 s events s₁ ∧
    received (own 1 events) = [(.success, ⟨tagJoin, "lobby\n".toList⟩),
      (.success, ⟨tagSendall, "hi\n".toList⟩)] ∧
    Automatic 1 "eve".toList s₁ (own 1 events) ∧
    Posts 1 s₁ ⟨"eve".toList, 0, "hi".toList⟩ lobbyDelivery mine ok ∧
    mine = [.enqueued 0 lobbyDelivery] := by
  have hexec : (do
      let (_, s) ← (Server.initial twoClients).exec receiverFirst
      let (events, s₁) ← s.exec joinAndSend
      let (lock, s₂) ← s₁.step 1 .proceed
      let (served, s₃) ← s₂.exec serveReceiver
      let (last, s₄) ← s₃.step 1 .proceed
      some (decide (s.point 1 = .senderLoop "eve".toList none ∧ s.Connected 1 joinAndSend ∧
        received (own 1 events) = [(.success, ⟨tagJoin, "lobby\n".toList⟩),
          (.success, ⟨tagSendall, "hi\n".toList⟩)] ∧ (s₁.room 0).members = [0] ∧
        lock = [.locked 1 ⟨"eve".toList, 0, "hi".toList⟩ lobbyDelivery] ∧
        s₂.Connected 1 serveReceiver ∧ replies (own 1 served) = [] ∧ last = [.sent 1 ok] ∧
        (s₄.conn 1).lastResult ≠ .eofOrError))) = some true := by
    decide +kernel
  simp only [Option.bind_eq_bind, Option.bind_eq_some_iff, Option.some.injEq] at hexec
  obtain ⟨⟨earlier, s⟩, hs, ⟨events, s₁⟩, hs₁, ⟨lock, s₂⟩, hs₂, ⟨served, s₃⟩, hs₃,
    ⟨last, s₄⟩, hs₄, hreached⟩ := hexec
  obtain ⟨hpoint, hconn, hreceived, hmembers, rfl, hconn₂, hnone, rfl, hconn₄⟩ :=
    of_decide_eq_true hreached
  have hrun : Run twoClients ([] ++ earlier) s := Run.start.exec hs
  obtain ⟨hall, -, hserves, -, -, hsessions⟩ := sender_session hpoint
  have hsession : SessionRun 1 s events s₁ := hsessions joinAndSend events s₁ hs₁ hconn
  obtain ⟨mine, hposts⟩ := exists_posts hs₂ hs₃ hnone hs₄ hconn₂ hconn₄
  obtain ⟨-, -, us, hnodup, hus, hmine⟩ :=
    (hserves twoClients _ hrun events s₁ hsession).2 _ _ _ _ hposts
  have honly : us.Perm [0] := by
    refine (List.perm_ext_iff_of_nodup hnodup (List.nodup_singleton 0)).mpr fun u => ?_
    rw [hus, hmembers]
  rw [List.perm_singleton.mp honly] at hmine
  exact ⟨_, s, events, s₁, mine, hrun, hpoint, hsession, hreceived, hall events s₁ hsession,
    hposts, hmine⟩

end CsfAssignments.Chat
