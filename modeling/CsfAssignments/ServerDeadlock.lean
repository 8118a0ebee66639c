import CsfAssignments.LockOrdering
import CsfAssignments.ServerSafety

/-!
# The server does not deadlock

A worker holds a lock only while it works on what the lock protects, and takes a second one only
in a broadcast: the lock of a queue, with the lock of the room. So every worker wants a lock above
those it holds.
-/

namespace CsfAssignments.Chat
open LockOrdering

/-- The lock that an operation takes. -/
def Operation.wanted : Operation → Option Lock
  | .acquire l _ _ => some l
  | _ => none

/-- A worker is at the acquisition of a lock. -/
def Server.Wants (s : Server) (w : Worker) (l : Lock) : Prop :=
  (code w (s.point w)).wanted = some l

def Server.Holds (s : Server) (w : Worker) (l : Lock) : Prop := s.owner l = some w

/-- A worker waits for another one that holds the lock it is about to take. -/
def Server.WaitsFor (s : Server) : Worker → Worker → Prop :=
  LockOrdering.WaitsFor s.Wants s.Holds

/-- The order in which locks are taken. -/
def Lock.rank : Lock → ℕ
  | .server => 0
  | .room _ => 1
  | .queue _ => 2

/-- The lock a point wants is above the locks of its stage. -/
theorem rank_lt_of_wanted {w : Worker} {p : Point} {l l' : Lock}
    (hwanted : (code w p).wanted = some l) (hheld : l' ∈ (stage w p).locks) :
    l'.rank < l.rank := by
  cases p with
  | enqueueAcquire b visited u =>
    cases hwanted
    cases List.mem_singleton.mp hheld
    exact Nat.lt_succ_self 1
  | _ => simp_all [code, Operation.wanted, stage, idle]

/-- A worker that waits for a message holds no lock. -/
theorem locks_of_semTimedwait {w : Worker} {p next : Point} {timeout : Result → Point}
    (hcode : code w p = .semTimedwait next timeout) : (stage w p).locks = [] := by
  cases p <;> first | rfl | cases hcode

theorem Safe.ordered {s : Server} (hsafe : Safe s) : Ordered Lock.rank s.Wants s.Holds :=
  fun w _ l' hwants hholds => rank_lt_of_wanted hwants ((hsafe.owner l' w).mp hholds)

/-- No deadlock: whatever workers, rooms and queues there are, the workers that are blocked on a
lock do not wait for each other in a circle, and a worker that waits for a message holds no
lock. -/
theorem no_deadlock {conn : Worker → Connection} {events : List Event} {s : Server}
    (hrun : Run conn events s) :
    (∀ w, ¬Relation.TransGen s.WaitsFor w w) ∧
      ∀ w next timeout, code w (s.point w) = .semTimedwait next timeout →
        ∀ l, s.owner l ≠ some w := by
  refine ⟨fun w => hrun.safe.ordered.acyclic w, fun w next timeout hcode _ howner => ?_⟩
  have hheld := (hrun.safe.owner _ w).mp howner
  rw [Server.stage, locks_of_semTimedwait hcode] at hheld
  cases hheld

/-- Two receivers and a sender that want the same room. -/
def threeClients : Worker → Connection
  | 2 => ⟨⟨[], [.data "rlogin:amy\njoin:lobby\n".toList]⟩, ⟨[], []⟩, .success⟩
  | w => twoClients w

/-- The second receiver enters the room while the sender broadcasts in it. -/
def meetBroadcast : List (Worker × Choice) := visitReceiver ++ List.replicate 7 (2, .proceed)

theorem no_deadlock_second_receiver :
    ∃ events s, Run threeClients events s ∧ s.WaitsFor 2 1 ∧
      ¬Relation.TransGen s.WaitsFor 2 2 := by
  have hexec : ((Server.initial threeClients).exec meetBroadcast).map
      (fun moves => ((code 2 (moves.2.point 2)).wanted, moves.2.owner (.room 0))) =
      some (some (.room 0), some 1) := by decide +kernel
  obtain ⟨⟨events, s⟩, hs, hreached⟩ := Option.map_eq_some_iff.mp hexec
  obtain ⟨hwants, hholds⟩ := Prod.mk.inj hreached
  have hrun : Run threeClients ([] ++ events) s := Run.start.exec hs
  exact ⟨_, s, hrun, ⟨.room 0, hwants, hholds⟩, (no_deadlock hrun).1 2⟩

end CsfAssignments.Chat
