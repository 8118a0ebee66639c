import CsfAssignments.MessageQueueModel
import CsfAssignments.ThreadCounting

/-!
# A message queue is an exact FIFO

The semaphore counts the messages that no consumer has taken a token for: the deque is as
long as the semaphore, the consumers between `sem_timedwait` and `pop_front`, and the
producers between `push_back` and `sem_post` say together. So the front is never taken from
an empty deque, what was popped is the beginning of what was pushed, and it is what the calls of
`dequeue` return.
-/

namespace CsfAssignments.Chat.Queue
open ThreadCounting

/-- A consumer that has decremented the semaphore and not yet popped. -/
def Point.hasToken : Point → Bool
  | .dequeueLock => true
  | .dequeueFront => true
  | .dequeuePop _ => true
  | _ => false

/-- A producer that has pushed and not yet incremented the semaphore. -/
def Point.owesPost : Point → Bool
  | .enqueuePost => true
  | _ => false

/-- The points under the lock. -/
def Point.inside : Point → Bool
  | .enqueuePush _ => true
  | .enqueuePost => true
  | .enqueueUnlock => true
  | .dequeueFront => true
  | .dequeuePop _ => true
  | .dequeueUnlock _ => true
  | _ => false

def Event.pushed? : Event → Option Message
  | .pushed msg => some msg
  | _ => none

def Event.popped? : Event → Option Message
  | .popped msg => some msg
  | _ => none

def Event.returned? : Event → Option Message
  | .returned message => message
  | _ => none

/-- The messages pushed, the messages popped and the messages that calls of `dequeue` returned in
a run, in their order. -/
def pushed (events : List Event) : List Message := events.filterMap Event.pushed?

def popped (events : List Event) : List Message := events.filterMap Event.popped?

def returned (events : List Event) : List Message := events.filterMap Event.returned?

variable {T : Type*} [DecidableEq T]

/-- The moves of a thread, by its point. -/
inductive Move (s : State T) (t : T) : List Event → State T → Prop
  | callEnqueue (msg : Message) (hp : s.point t = .idle) :
      Move s t [] (s.goto t (.enqueueLock msg))
  | callDequeue (hp : s.point t = .idle) : Move s t [] (s.goto t .dequeueWait)
  | enqueueLock {msg : Message} (hp : s.point t = .enqueueLock msg) (hfree : s.owner = none) :
      Move s t [] ({ s with owner := some t }.goto t (.enqueuePush msg))
  | enqueuePush {msg : Message} (hp : s.point t = .enqueuePush msg) :
      Move s t [.pushed msg]
        ({ s with queue := { s.queue with messages := s.queue.messages ++ [msg] } }.goto t
          .enqueuePost)
  | enqueuePost (hp : s.point t = .enqueuePost) :
      Move s t [] ({ s with queue := { s.queue with avail := s.queue.avail + 1 } }.goto t
        .enqueueUnlock)
  | enqueueUnlock (hp : s.point t = .enqueueUnlock) :
      Move s t [] ({ s with owner := none }.goto t .idle)
  | timeout (hp : s.point t = .dequeueWait) : Move s t [.returned none] (s.goto t .idle)
  | dequeueWait (hp : s.point t = .dequeueWait) (hpos : 0 < s.queue.avail) :
      Move s t [] ({ s with queue := { s.queue with avail := s.queue.avail - 1 } }.goto t
        .dequeueLock)
  | dequeueLock (hp : s.point t = .dequeueLock) (hfree : s.owner = none) :
      Move s t [] ({ s with owner := some t }.goto t .dequeueFront)
  | dequeueFront {message : Message} (hp : s.point t = .dequeueFront)
      (hfront : s.queue.messages.head? = some message) :
      Move s t [] (s.goto t (.dequeuePop message))
  | dequeuePop {message msg : Message} {messages : List Message}
      (hp : s.point t = .dequeuePop message) (hfront : s.queue.messages = msg :: messages) :
      Move s t [.popped msg]
        ({ s with queue := { s.queue with messages := messages } }.goto t (.dequeueUnlock message))
  | dequeueUnlock {message : Message} (hp : s.point t = .dequeueUnlock message) :
      Move s t [.returned (some message)] ({ s with owner := none }.goto t .idle)

theorem step_move {s s' : State T} {t : T} {choice : Choice} {es : List Event}
    (h : s.step t choice = some (es, s')) : Move s t es s' := by
  unfold State.step at h
  split at h
  case h_1 hp => cases h; exact .callEnqueue _ hp
  case h_2 hp => cases h; exact .callDequeue hp
  case h_3 hp =>
    split at h
    case isTrue hfree => cases h; exact .enqueueLock hp hfree
    case isFalse => cases h
  case h_4 hp => cases h; exact .enqueuePush hp
  case h_5 hp => cases h; exact .enqueuePost hp
  case h_6 hp => cases h; exact .enqueueUnlock hp
  case h_7 hp => cases h; exact .timeout hp
  case h_8 hp =>
    simp only at h
    split at h
    case isTrue hpos => cases h; exact .dequeueWait hp hpos
    case isFalse => cases h
  case h_9 hp =>
    split at h
    case isTrue hfree => cases h; exact .dequeueLock hp hfree
    case isFalse => cases h
  case h_10 hp =>
    split at h
    case h_1 => cases h
    case h_2 hfront => cases h; exact .dequeueFront hp (by rw [hfront]; rfl)
  case h_11 hp =>
    split at h
    case h_1 => cases h
    case h_2 hfront => cases h; exact .dequeuePop hp hfront
  case h_12 hp => cases h; exact .dequeueUnlock hp
  case h_13 => cases h

/-- What holds between the queue and its threads. -/
structure Fifo (events : List Event) (s : State T) : Prop where
  count : ∃ tokens posts, Counted Point.hasToken s.point tokens ∧
    Counted Point.owesPost s.point posts ∧
    s.queue.messages.length = s.queue.avail + tokens + posts
  exact : popped events ++ s.queue.messages = pushed events
  inside : ∀ t, (s.point t).inside = true → s.owner = some t
  front : ∀ t message, s.point t = .dequeuePop message → s.queue.messages.head? = some message
  holding : ∀ t message, s.point t = .dequeueUnlock message →
    popped events = returned events ++ [message]
  handed : (∀ t message, s.point t ≠ .dequeueUnlock message) → popped events = returned events

section Moves

variable {s s' : State T} {t : T} {es events : List Event}

private theorem Move.count (hmove : Move s t es s') (h : Fifo events s) :
    ∃ tokens posts, Counted Point.hasToken s'.point tokens ∧
      Counted Point.owesPost s'.point posts ∧
      s'.queue.messages.length = s'.queue.avail + tokens + posts := by
  obtain ⟨tokens, posts, htokens, hposts, hlen⟩ := h.count
  have htoken : (s.point t).hasToken = true → 0 < tokens := htokens.pos
  have hpost : (s.point t).owesPost = true → 0 < posts := hposts.pos
  cases hmove with
  | enqueuePush hp | dequeueWait hp hpos =>
    refine ⟨_, _, htokens.move t _, hposts.move t _, ?_⟩
    simp [hp, Point.hasToken, Point.owesPost]
    omega
  | enqueuePost hp =>
    have hpos := hpost (by rw [hp]; rfl)
    refine ⟨_, _, htokens.move t _, hposts.move t _, ?_⟩
    simp [hp, Point.hasToken, Point.owesPost]
    omega
  | dequeuePop hp hfront =>
    have hpos := htoken (by rw [hp]; rfl)
    refine ⟨_, _, htokens.move t _, hposts.move t _, ?_⟩
    simp [hp, Point.hasToken, Point.owesPost, hfront] at hlen ⊢
    omega
  | callEnqueue msg hp =>
    refine ⟨_, _, htokens.move t _, hposts.move t _, ?_⟩
    simpa [hp, Point.hasToken, Point.owesPost] using hlen
  | callDequeue hp | enqueueUnlock hp | timeout hp | dequeueUnlock hp =>
    refine ⟨_, _, htokens.move t _, hposts.move t _, ?_⟩
    simpa [hp, Point.hasToken, Point.owesPost] using hlen
  | enqueueLock hp hfree | dequeueLock hp hfree =>
    refine ⟨_, _, htokens.move t _, hposts.move t _, ?_⟩
    simpa [hp, Point.hasToken, Point.owesPost] using hlen
  | dequeueFront hp hfront =>
    refine ⟨_, _, htokens.move t _, hposts.move t _, ?_⟩
    simpa [hp, Point.hasToken, Point.owesPost] using hlen

private theorem Move.exact (hmove : Move s t es s')
    (h : popped events ++ s.queue.messages = pushed events) :
    popped (events ++ es) ++ s'.queue.messages = pushed (events ++ es) := by
  rw [popped, pushed, List.filterMap_append, List.filterMap_append]
  change popped events ++ _ ++ _ = pushed events ++ _
  rw [← h]
  cases hmove with
  | dequeuePop hp hfront => simp [List.filterMap_cons, Event.popped?, Event.pushed?, hfront]
  | _ => simp [List.filterMap_cons, Event.popped?, Event.pushed?]

/-- A lock is taken when it is free and released by its owner. -/
private theorem Move.inside (hmove : Move s t es s')
    (h : ∀ u, (s.point u).inside = true → s.owner = some u) (u : T)
    (hu : (s'.point u).inside = true) : s'.owner = some u := by
  by_cases hut : u = t
  · subst hut
    cases hmove with
    | enqueueLock hp hfree | dequeueLock hp hfree => rfl
    | enqueuePush hp | enqueuePost hp => exact h u (by rw [hp]; rfl)
    | dequeueFront hp hfront | dequeuePop hp hfront => exact h u (by rw [hp]; rfl)
    | _ => simp [Point.inside] at hu
  · have hother : (s.point u).inside = true := by
      cases hmove <;> simpa [hut] using hu
    have howner := h u hother
    cases hmove with
    | enqueueLock hp hfree | dequeueLock hp hfree => simp [hfree] at howner
    | enqueueUnlock hp | dequeueUnlock hp =>
      have hself := h t (by rw [hp]; rfl)
      exact absurd (Option.some.inj (howner.symm.trans hself)) hut
    | _ => exact howner

/-- The message read by `front` stays in front until its thread pops it. -/
private theorem Move.front (hmove : Move s t es s')
    (hinside : ∀ u, (s.point u).inside = true → s.owner = some u)
    (h : ∀ u message, s.point u = .dequeuePop message → s.queue.messages.head? = some message)
    (u : T) (message : Message) (hu : s'.point u = .dequeuePop message) :
    s'.queue.messages.head? = some message := by
  by_cases hut : u = t
  · subst hut
    cases hmove with
    | dequeueFront hp hfront =>
      simp only [State.goto_point, Function.update_self, Point.dequeuePop.injEq] at hu
      exact hu ▸ hfront
    | _ => simp at hu
  · have hother : s.point u = .dequeuePop message := by
      cases hmove <;> simpa [hut] using hu
    have hhead := h u message hother
    cases hmove with
    | enqueuePush hp =>
      obtain ⟨rest, hrest⟩ := List.head?_eq_some_iff.mp hhead
      simp [hrest]
    | dequeuePop hp hfront =>
      have howner := hinside u (by rw [hother]; rfl)
      have hself := hinside t (by rw [hp]; rfl)
      exact absurd (Option.some.inj (howner.symm.trans hself)) hut
    | _ => exact hhead

/-- A move pops a message, returns one, or does neither and leaves the calls in between alone. -/
private theorem Move.handing (hmove : Move s t es s') :
    (∃ message msg messages, s.point t = .dequeuePop message ∧
      s.queue.messages = msg :: messages ∧ es = [.popped msg] ∧
      s'.point = Function.update s.point t (.dequeueUnlock message)) ∨
    (∃ message, s.point t = .dequeueUnlock message ∧ es = [.returned (some message)] ∧
      s'.point = Function.update s.point t .idle) ∨
    (popped es = [] ∧ returned es = [] ∧
      ∀ u message, s'.point u = .dequeueUnlock message ↔ s.point u = .dequeueUnlock message) := by
  have hstays {p : Point} (hp : ∀ message, s.point t ≠ .dequeueUnlock message)
      (hp' : ∀ message, p ≠ .dequeueUnlock message) (u : T) (message : Message) :
      Function.update s.point t p u = .dequeueUnlock message ↔
        s.point u = .dequeueUnlock message := by
    by_cases hut : u = t
    · subst hut
      rw [Function.update_self]
      exact iff_of_false (hp' message) (hp message)
    · rw [Function.update_of_ne hut]
  cases hmove with
  | dequeuePop hp hfront => exact .inl ⟨_, _, _, hp, hfront, rfl, rfl⟩
  | dequeueUnlock hp => exact .inr (.inl ⟨_, hp, rfl, rfl⟩)
  | callEnqueue _ hp | callDequeue hp | enqueueLock hp | enqueuePush hp | enqueuePost hp =>
    exact .inr (.inr ⟨rfl, rfl, hstays (by simp [hp]) (by simp)⟩)
  | enqueueUnlock hp | timeout hp | dequeueWait hp | dequeueLock hp | dequeueFront hp =>
    exact .inr (.inr ⟨rfl, rfl, hstays (by simp [hp]) (by simp)⟩)

omit [DecidableEq T] in
/-- Between `pop_front` and its return a call of `dequeue` is alone under the lock. -/
private theorem Fifo.alone (h : Fifo events s) {u : T} {message : Message}
    (hu : s.point u = .dequeueUnlock message) (ht : (s.point t).inside = true) : u = t := by
  have howner := h.inside u (by rw [hu]; rfl)
  exact Option.some.inj (howner.symm.trans (h.inside t ht))

/-- A call of `dequeue` returns the message that it has popped before any other call pops one. -/
private theorem Move.handed (hmove : Move s t es s') (h : Fifo events s) :
    (∀ u message, s'.point u = .dequeueUnlock message →
      popped (events ++ es) = returned (events ++ es) ++ [message]) ∧
    ((∀ u message, s'.point u ≠ .dequeueUnlock message) →
      popped (events ++ es) = returned (events ++ es)) := by
  have hpopped : popped (events ++ es) = popped events ++ popped es := List.filterMap_append
  have hreturned : returned (events ++ es) = returned events ++ returned es := List.filterMap_append
  rw [hpopped, hreturned]
  rcases hmove.handing with ⟨message, msg, messages, hp, hfront, rfl, hpoint⟩ |
    ⟨message, hp, rfl, hpoint⟩ | ⟨hpop, hreturn, hpoint⟩
  · have hnone : ∀ u message', s.point u ≠ .dequeueUnlock message' := by
      intro u message' hu
      obtain rfl := h.alone hu (t := t) (by rw [hp]; rfl)
      rw [hp] at hu
      cases hu
    have hread := h.front t message hp
    rw [hfront, List.head?_cons, Option.some_inj] at hread
    have hholds : s'.point t = .dequeueUnlock message := by rw [hpoint, Function.update_self]
    refine ⟨fun u message' hu => ?_, fun hidle => absurd hholds (hidle t message)⟩
    by_cases hut : u = t
    · subst hut
      cases hholds.symm.trans hu
      have hnothing : returned [.popped msg] = [] := rfl
      rw [h.handed hnone, hnothing, List.append_nil, ← hread]
      rfl
    · rw [hpoint, Function.update_of_ne hut] at hu
      exact absurd hu (hnone u message')
  · refine ⟨fun u message' hu => ?_, fun _ => ?_⟩
    · by_cases hut : u = t
      · subst hut
        rw [hpoint, Function.update_self] at hu
        cases hu
      · rw [hpoint, Function.update_of_ne hut] at hu
        exact absurd (h.alone hu (by rw [hp]; rfl)) hut
    · rw [h.holding t message hp]
      exact List.append_nil _
  · rw [hpop, hreturn, List.append_nil, List.append_nil]
    exact ⟨fun u message hu => h.holding u message ((hpoint u message).mp hu),
      fun hidle => h.handed fun u message hu => hidle u message ((hpoint u message).mpr hu)⟩

end Moves

end CsfAssignments.Chat.Queue
