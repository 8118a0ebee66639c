import CsfAssignments.ReceiverClient
import CsfAssignments.SenderClient

/-!
# The loops of the two clients

The loop of the sender ends with a reply to `quit` and at no other point: behind the end of its
input it goes on to send empty lines. The loop of the receiver tests a flag that nothing clears.
-/

namespace CsfAssignments.Chat
open RobustIO

namespace Sender

/-- Whether the next line of a server is a message, and the input behind it. -/
def reply (fdbuf : Rio) : Bool × Rio :=
  let (received, _, conn) := (⟨fdbuf, ⟨[], []⟩, .success⟩ : Connection).receive ⟨[], []⟩
  (received, conn.fdbuf)

/-- Whether the reply number `i` is a message. -/
def replies (fdbuf : Rio) : ℕ → Bool
  | 0 => (reply fdbuf).1
  | i + 1 => replies (reply fdbuf).2 i

/-- A reply does not depend on what was sent. -/
theorem receive_reply (conn : Connection) (m : Message) :
    (conn.receive m).1 = (reply conn.fdbuf).1 ∧
      (conn.receive m).2.2.fdbuf = (reply conn.fdbuf).2 := by
  rw [reply]
  simp only [Connection.receive]
  split
  · exact ⟨rfl, rfl⟩
  · exact ⟨rfl, rfl⟩
  · split_ifs <;> exact ⟨rfl, rfl⟩

theorem send_fdbuf (conn : Connection) (msg : Message) : (conn.send msg).2.fdbuf = conn.fdbuf := by
  rw [Connection.send]
  split <;> rfl

theorem exchange_reply (sentmessage : Message) (effect : Effect) :
    (exchange sentmessage effect).1 = (reply effect.conn.fdbuf).1 ∧
      (exchange sentmessage effect).2.conn.fdbuf = (reply effect.conn.fdbuf).2 := by
  have hreply := receive_reply (effect.conn.send sentmessage).2 ⟨[], []⟩
  rwa [send_fdbuf] at hreply

/-- A round returns if it reads `quit` and gets a reply. -/
theorem round_returns_iff (input : List (List Char)) (conn : Connection) :
    (round (getline input).1 conn).1 = true ↔ ∃ line, input[0]? = some line ∧
      "/quit".toList <+: line ∧ replies conn.fdbuf 0 = true := by
  have hreceived := (exchange_reply (message (getline input).1) ⟨[], [], conn⟩).1
  rw [(round_spec _ conn).1, hreceived, Bool.and_eq_true, decide_eq_true_iff,
    tag_message_eq_quit_iff]
  cases input with
  | nil => simp [getline]
  | cons line input => simp [getline, replies]

theorem getElem?_getline (input : List (List Char)) (i : ℕ) :
    (getline input).2[i]? = input[i + 1]? := by
  cases input <;> simp [getline]

/-- The loop returns in the first round that does. -/
theorem sendHelper_returns_iff (rounds : ℕ) (input : List (List Char)) (conn : Connection) :
    (sendHelper rounds input conn).1 = true ↔ ∃ i < rounds, ∃ line, input[i]? = some line ∧
      "/quit".toList <+: line ∧ replies conn.fdbuf i = true := by
  induction rounds generalizing input conn with
  | zero => simp [sendHelper]
  | succ rounds ih =>
    have hfdbuf : (round (getline input).1 conn).2.conn.fdbuf = (reply conn.fdbuf).2 := by
      rw [(round_spec _ conn).2.2, (exchange_reply _ _).2]
    rw [sendHelper_succ, Nat.exists_lt_succ_left]
    by_cases hreturns : (round (getline input).1 conn).1 = true
    · rw [if_pos hreturns]
      exact iff_of_true rfl (.inl ((round_returns_iff input conn).mp hreturns))
    · rw [if_neg hreturns, ih, hfdbuf]
      simp only [getElem?_getline]
      rw [or_iff_right fun h => hreturns ((round_returns_iff input conn).mpr h)]
      rfl

end Sender

namespace Receiver

/-- A round of the delivery loop, whose flag it leaves alone. -/
def deliveryRound (roomName : List Char) : Bool × Connection → Bool × Connection
  | (status, conn) => (status, (round roomName conn).2)

/-- At most so many rounds of the delivery loop, with the connection behind it if it has
stopped. -/
def deliveryLoop (roomName : List Char) : ℕ → Bool × Connection → Option Connection
  | _, (false, conn) => some conn
  | 0, (true, _) => none
  | rounds + 1, (true, conn) => deliveryLoop roomName rounds (deliveryRound roomName (true, conn))

/-- No round stops the loop. -/
theorem deliveryLoop_eq_none (roomName : List Char) (rounds : ℕ) (conn : Connection) :
    deliveryLoop roomName rounds (true, conn) = none := by
  induction rounds generalizing conn with
  | zero => rfl
  | succ rounds ih => exact ih _

end Receiver

/-- The loop of the sender returns within one round more than its input has lines exactly if one
of the lines is `quit` and the reply in its round is a message. The loop of the receiver stops
for no stream of the server. -/
theorem client_loops_end_iff (input : List (List Char)) (server : Connection)
    (roomName : List Char) (deliveries : Connection) :
    ((∃ rounds ≤ input.length + 1, (Sender.sendHelper rounds input server).1 = true) ↔
        ∃ i line, input[i]? = some line ∧ "/quit".toList <+: line ∧
          Sender.replies server.fdbuf i = true) ∧
      ¬∃ rounds, (Receiver.deliveryLoop roomName rounds (true, deliveries)).isSome := by
  refine ⟨⟨?_, ?_⟩, ?_⟩
  · rintro ⟨rounds, -, hreturned⟩
    obtain ⟨i, -, hquit⟩ := (Sender.sendHelper_returns_iff rounds input server).mp hreturned
    exact ⟨i, hquit⟩
  · rintro ⟨i, line, hline, hquit⟩
    have hlt : i < input.length := (List.getElem?_eq_some_iff.mp hline).1
    exact ⟨i + 1, by omega, (Sender.sendHelper_returns_iff _ input server).mpr
      ⟨i, Nat.lt_succ_self i, line, hline, hquit⟩⟩
  · rintro ⟨rounds, hstopped⟩
    rw [Receiver.deliveryLoop_eq_none] at hstopped
    cases hstopped

/-- An input without lines, and a server that has closed its end: neither loop ends. -/
theorem client_loops_go_on :
    ¬∀ (input : List (List Char)) (server : Connection) (roomName : List Char)
      (deliveries : Connection),
      (∃ rounds ≤ input.length + 1, (Sender.sendHelper rounds input server).1 = true) ∧
        ∃ rounds, (Receiver.deliveryLoop roomName rounds (true, deliveries)).isSome := by
  intro h
  obtain ⟨rounds, -, hreturned⟩ := (h [] Sender.silentServer [] Sender.silentServer).1
  obtain ⟨i, -, line, hline, -⟩ := (Sender.sendHelper_returns_iff rounds [] _).mp hreturned
  cases hline

end CsfAssignments.Chat
