import CsfAssignments.ServerModel

/-!
# A message queue and its threads

Definitions of `message_queue.cpp` for any number of threads that call `enqueue` and
`dequeue` on one queue. A thread is at a point between two operations on the queue, its lock
and its semaphore, and the operations of all threads interleave.
-/

namespace CsfAssignments.Chat.Queue

/-- The points of `enqueue` and `dequeue`, by the operation that comes next. -/
inductive Point
  | idle
  | enqueueLock (msg : Message)
  | enqueuePush (msg : Message)
  | enqueuePost
  | enqueueUnlock
  | dequeueWait
  | dequeueLock
  | dequeueFront
  | dequeuePop (message : Message)
  | dequeueUnlock (message : Message)
  deriving DecidableEq

/-- What a scheduled thread does: it begins a call, goes on with it, or its wait times out. -/
inductive Choice
  | enqueue (msg : Message)
  | dequeue
  | proceed
  | timeout
  deriving DecidableEq

/-- What a move shows. `dequeue` returns a message or the null pointer. -/
inductive Event
  | pushed (msg : Message)
  | popped (msg : Message)
  | returned (message : Option Message)
  deriving DecidableEq

/-- A queue with its threads. -/
structure State (T : Type*) where
  queue : MessageQueue
  owner : Option T
  point : T → Point

variable {T : Type*} [DecidableEq T]

namespace State

@[simps] def goto (s : State T) (t : T) (p : Point) : State T :=
  { s with point := Function.update s.point t p }

/-- `MessageQueue::MessageQueue`, before any call. -/
def initial : State T := ⟨⟨0, []⟩, none, fun _ => .idle⟩

/-- A move of a thread. A blocked operation has no result, and neither has an operation on the
front of an empty deque. -/
def step (s : State T) (t : T) (choice : Choice) : Option (List Event × State T) :=
  match s.point t, choice with
  | .idle, .enqueue msg => some ([], s.goto t (.enqueueLock msg))
  | .idle, .dequeue => some ([], s.goto t .dequeueWait)
  | .enqueueLock msg, .proceed =>
      if s.owner = none then some ([], { s with owner := some t }.goto t (.enqueuePush msg))
      else none
  | .enqueuePush msg, .proceed =>
      let queue := { s.queue with messages := s.queue.messages ++ [msg] }
      some ([.pushed msg], { s with queue := queue }.goto t .enqueuePost)
  | .enqueuePost, .proceed =>
      let queue := { s.queue with avail := s.queue.avail + 1 }
      some ([], { s with queue := queue }.goto t .enqueueUnlock)
  | .enqueueUnlock, .proceed => some ([], { s with owner := none }.goto t .idle)
  | .dequeueWait, .timeout => some ([.returned none], s.goto t .idle)
  | .dequeueWait, .proceed =>
      let queue := { s.queue with avail := s.queue.avail - 1 }
      if 0 < s.queue.avail then some ([], { s with queue := queue }.goto t .dequeueLock) else none
  | .dequeueLock, .proceed =>
      if s.owner = none then some ([], { s with owner := some t }.goto t .dequeueFront) else none
  | .dequeueFront, .proceed =>
      match s.queue.messages with
      | [] => none
      | message :: _ => some ([], s.goto t (.dequeuePop message))
  | .dequeuePop message, .proceed =>
      match s.queue.messages with
      | [] => none
      | msg :: messages =>
          let queue := { s.queue with messages := messages }
          some ([.popped msg], { s with queue := queue }.goto t (.dequeueUnlock message))
  | .dequeueUnlock message, .proceed =>
      some ([.returned (some message)], { s with owner := none }.goto t .idle)
  | _, _ => none

end State

/-- A run of the threads of a queue: its events and the state it has reached. -/
inductive Run : List Event → State T → Prop
  | start : Run [] .initial
  | step {events : List Event} {s s' : State T} {es : List Event} (t : T) (choice : Choice) :
      Run events s → s.step t choice = some (es, s') → Run (events ++ es) s'

end CsfAssignments.Chat.Queue
