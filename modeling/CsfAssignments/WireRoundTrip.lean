import CsfAssignments.ConnectionModel

/-!
# Messages on the wire

What `send` writes is read back by `receive` as long as no encoded message needs the whole
of `maxLen`: the reader keeps one byte of its buffer for the terminator, so that it cuts a
message of exactly that length before its newline.
-/

namespace CsfAssignments.Chat
open RobustIO

/-- A message within the documented limits. -/
structure Message.WellFormed (msg : Message) : Prop where
  tag_known : msg.tag ∈ knownTags
  data_line : '\n' ∉ msg.data
  data_text : Char.ofNat 0 ∉ msg.data
  length_le : (encode msg).length ≤ maxLen

/-- Sends messages in order and returns the results of the calls. -/
def sendAll (conn : Connection) : List Message → List Bool × Connection
  | [] => ([], conn)
  | msg :: msgs =>
      let (sent, conn) := conn.send msg
      let (results, conn) := sendAll conn msgs
      (sent :: results, conn)

/-- Receives `n` times into one variable and returns the results of the calls. -/
def receiveAll : ℕ → Connection → Message → List (Bool × Message) × Connection
  | 0, conn, _ => ([], conn)
  | n + 1, conn, msg =>
      let (received, msg, conn) := conn.receive msg
      let (results, conn) := receiveAll n conn msg
      ((received, msg) :: results, conn)

/-- All messages were written at one end, and the other end reads what was written. -/
structure Carries (msgs : List Message) (sender receiver : Connection) : Prop where
  written : ∀ sent ∈ (sendAll sender msgs).1, sent = true
  lossless : (sendAll sender msgs).2.out.sent = sender.out.sent ++ receiver.fdbuf.stream

/-- As many calls of `receive` all succeed, yield the messages in order with their newlines,
and leave nothing unread. -/
def RoundTrip (msgs : List Message) (receiver : Connection) (msg : Message) : Prop :=
  (receiveAll msgs.length receiver msg).1 =
      msgs.map (fun m => (true, (⟨m.tag, m.data ++ ['\n']⟩ : Message))) ∧
    (receiveAll msgs.length receiver msg).2.fdbuf.stream = []

theorem knownTags_plain :
    ∀ tag ∈ knownTags, ':' ∉ tag ∧ '\n' ∉ tag ∧ Char.ofNat 0 ∉ tag := by decide

theorem encode_eq {msg : Message} (htag : msg.tag ∈ knownTags) (hdata : Char.ofNat 0 ∉ msg.data) :
    encode msg = msg.tag ++ ':' :: msg.data ++ ['\n'] := by
  have hplain := (knownTags_plain _ htag).2.2
  have hcolon : Char.ofNat 0 ≠ ':' ∧ Char.ofNat 0 ≠ '\n' := by decide
  exact cString_eq (by simp [hplain, hdata, hcolon.1, hcolon.2])

theorem length_encode {msg : Message} (htag : msg.tag ∈ knownTags)
    (hdata : Char.ofNat 0 ∉ msg.data) :
    (encode msg).length = msg.tag.length + msg.data.length + 2 := by
  simp [encode_eq htag hdata]
  omega

namespace Message.WellFormed
variable {msg : Message}

theorem newline_notMem (hmsg : msg.WellFormed) : '\n' ∉ msg.tag ++ ':' :: msg.data := by
  have htag := (knownTags_plain _ hmsg.tag_known).2.1
  have hcolon : '\n' ≠ ':' := by decide
  simp [htag, hmsg.data_line, hcolon]

theorem nul_notMem (hmsg : msg.WellFormed) : Char.ofNat 0 ∉ msg.tag ++ ':' :: msg.data := by
  have htag := (knownTags_plain _ hmsg.tag_known).2.2
  have hcolon : Char.ofNat 0 ≠ ':' := by decide
  simp [htag, hmsg.data_text, hcolon]

private theorem parse_append (hmsg : msg.WellFormed) (ending : List Char)
    (hlen : ending.length ≤ 1) :
    parse (msg.tag ++ ':' :: msg.data ++ ending) = ⟨msg.tag, msg.data ++ ending⟩ := by
  have hbound := length_encode hmsg.tag_known hmsg.data_text ▸ hmsg.length_le
  rw [List.append_assoc, List.cons_append]
  refine parse_colon (knownTags_plain _ hmsg.tag_known).1 _ ?_
  rw [List.length_append, npos]
  rw [maxLen] at hbound
  omega

/-- A message shorter than the limit is received with its newline. -/
theorem receive_line (hmsg : msg.WellFormed) (hlen : (encode msg).length < maxLen)
    {conn : Connection} {u : List Char} (h : conn.fdbuf.stream = encode msg ++ u) (m : Message) :
    ∃ conn', conn.receive m = (true, ⟨msg.tag, msg.data ++ ['\n']⟩, conn') ∧
      conn'.fdbuf.stream = u := by
  rw [length_encode hmsg.tag_known hmsg.data_text] at hlen
  rw [encode_eq hmsg.tag_known hmsg.data_text, List.append_assoc, List.singleton_append] at h
  obtain ⟨fdbuf, hrest, hreceive⟩ := conn.receive_line hmsg.newline_notMem hmsg.nul_notMem
    (by simp; omega) h m
  rw [hmsg.parse_append _ (le_refl 1), decide_eq_true hmsg.tag_known] at hreceive
  exact ⟨_, hreceive, hrest⟩

/-- A message of exactly the limit is cut before its newline. -/
theorem receive_cut (hmsg : msg.WellFormed) (hlen : (encode msg).length = maxLen)
    {conn : Connection} {u : List Char} (h : conn.fdbuf.stream = encode msg ++ u) (m : Message) :
    ∃ conn', conn.receive m = (true, msg, conn') := by
  rw [length_encode hmsg.tag_known hmsg.data_text] at hlen
  rw [encode_eq hmsg.tag_known hmsg.data_text, List.append_assoc] at h
  obtain ⟨fdbuf, -, hreceive⟩ := conn.receive_cut hmsg.newline_notMem hmsg.nul_notMem
    (by simp; omega) h m
  have hparse : parse (msg.tag ++ ':' :: msg.data) = msg := by
    simpa using hmsg.parse_append [] (by simp)
  rw [hparse, decide_eq_true hmsg.tag_known] at hreceive
  exact ⟨_, hreceive⟩

end Message.WellFormed

theorem send_sent {conn : Connection} {msg : Message} (h : (conn.send msg).1 = true) :
    (conn.send msg).2.out.sent = conn.out.sent ++ encode msg := by
  unfold Connection.send at h ⊢
  cases hw : rioWriten conn.out (encode msg) with
  | mk sent out =>
    cases sent with
    | false => simp [hw] at h
    | true => exact rioWriten_sent hw

/-- What successful calls of `send` write is the encoded messages one after the other. -/
theorem sendAll_sent {conn : Connection} {msgs : List Message}
    (h : ∀ sent ∈ (sendAll conn msgs).1, sent = true) :
    (sendAll conn msgs).2.out.sent = conn.out.sent ++ msgs.flatMap encode := by
  induction msgs generalizing conn with
  | nil => simp [sendAll]
  | cons msg msgs ih =>
    have hfirst : (conn.send msg).1 = true := h _ List.mem_cons_self
    have hrest := @ih (conn.send msg).2 fun sent hs => h sent (List.mem_cons_of_mem _ hs)
    simp only [sendAll, hrest, send_sent hfirst, List.flatMap_cons, List.append_assoc]

theorem Carries.stream_eq {msgs : List Message} {sender receiver : Connection}
    (hcarries : Carries msgs sender receiver) : receiver.fdbuf.stream = msgs.flatMap encode := by
  have h := hcarries.lossless
  rw [sendAll_sent hcarries.written] at h
  exact (List.append_cancel_left h).symm

/-- A message shorter than the limit is received, and the round trip goes on behind it. -/
private theorem roundTrip_cons {msg : Message} (hmsg : msg.WellFormed)
    (hlen : (encode msg).length < maxLen) (msgs : List Message) {receiver : Connection}
    {u : List Char} (h : receiver.fdbuf.stream = encode msg ++ u) (m : Message) :
    ∃ receiver' m', receiver'.fdbuf.stream = u ∧
      (RoundTrip (msg :: msgs) receiver m ↔ RoundTrip msgs receiver' m') := by
  obtain ⟨receiver', hreceive, hstream⟩ := hmsg.receive_line hlen h m
  refine ⟨receiver', ⟨msg.tag, msg.data ++ ['\n']⟩, hstream, ?_⟩
  simp [RoundTrip, receiveAll, hreceive]

/-- A message of exactly the limit loses its newline. -/
private theorem not_roundTrip_cons {msg : Message} (hmsg : msg.WellFormed)
    (hlen : (encode msg).length = maxLen) (msgs : List Message) {receiver : Connection}
    {u : List Char} (h : receiver.fdbuf.stream = encode msg ++ u) (m : Message) :
    ¬RoundTrip (msg :: msgs) receiver m := by
  obtain ⟨receiver', hreceive⟩ := hmsg.receive_cut hlen h m
  have hne : msg ≠ ⟨msg.tag, msg.data ++ ['\n']⟩ := fun heq => by
    simpa using congrArg (fun m : Message => m.data.length) heq
  simp [RoundTrip, receiveAll, hreceive, hne]

/-- Messages within the documented limits make the round trip exactly when each of them has
at most 254 characters with its newline. -/
theorem wire_round_trip_iff (msgs : List Message) (hmsgs : ∀ msg ∈ msgs, msg.WellFormed)
    (sender receiver : Connection) (hcarries : Carries msgs sender receiver) (m : Message) :
    RoundTrip msgs receiver m ↔ ∀ msg ∈ msgs, (encode msg).length ≤ 254 := by
  have hstream := hcarries.stream_eq
  clear hcarries
  induction msgs generalizing receiver m with
  | nil => simpa [RoundTrip, receiveAll] using hstream
  | cons msg msgs ih =>
    rw [List.flatMap_cons] at hstream
    have hmsg := hmsgs msg List.mem_cons_self
    rw [List.forall_mem_cons]
    by_cases hlen : (encode msg).length < maxLen
    · obtain ⟨receiver', m', hrest, hiff⟩ := roundTrip_cons hmsg hlen msgs hstream m
      have hbehind := ih (fun msg hm => hmsgs msg (List.mem_cons_of_mem _ hm)) receiver' m' hrest
      exact hiff.trans (hbehind.trans (and_iff_right (Nat.le_of_lt_succ hlen)).symm)
    · have hcut : (encode msg).length = maxLen := le_antisymm hmsg.length_le (not_lt.mp hlen)
      refine iff_of_false (not_roundTrip_cons hmsg hcut msgs hstream m) fun hle => ?_
      exact hlen (Nat.lt_succ_of_le hle.1)

/-- A fresh connection that will read the given bytes at once. -/
def freshConnection (bytes : List Char) : Connection := ⟨⟨[], [.data bytes]⟩, ⟨[], []⟩, .success⟩

theorem carries_freshConnection (msgs : List Message) :
    Carries msgs (freshConnection []) (freshConnection (msgs.flatMap encode)) := by
  have hwrite : ∀ sent bytes, writeLoop sent [] bytes = (true, ⟨[], sent ++ bytes⟩) := by
    intro sent bytes
    cases bytes <;> simp [writeLoop]
  have hsend : ∀ (msgs : List Message) (conn : Connection), conn.out.outgoing = [] →
      ∀ sent ∈ (sendAll conn msgs).1, sent = true := by
    intro msgs
    induction msgs with
    | nil => simp [sendAll]
    | cons msg msgs ih =>
      intro conn hout
      simp only [sendAll, Connection.send, rioWriten, hout, hwrite, List.forall_mem_cons, true_and]
      exact ih _ rfl
  refine ⟨hsend msgs _ rfl, ?_⟩
  rw [sendAll_sent (hsend msgs _ rfl)]
  cases h : msgs.flatMap encode <;> simp [freshConnection, Rio.stream, arriving]

theorem wire_round_trip_two :
    RoundTrip [⟨tagJoin, "cs:1".toList⟩, ⟨tagQuit, []⟩]
        (freshConnection (encode ⟨tagJoin, "cs:1".toList⟩ ++ encode ⟨tagQuit, []⟩)) ⟨[], []⟩ ↔
      ∀ msg ∈ [⟨tagJoin, "cs:1".toList⟩, ⟨tagQuit, []⟩], (encode msg).length ≤ 254 := by
  refine wire_round_trip_iff _ ?_ (freshConnection []) _ (carries_freshConnection _) _
  simp only [List.forall_mem_cons]
  exact ⟨⟨by decide, by decide, by decide, by decide⟩, ⟨by decide, by decide, by decide, by decide⟩,
    by simp⟩

/-- Its encoded form has 255 characters. -/
def longestMessage : Message := ⟨tagOk, List.replicate 251 'a'⟩

private theorem longestMessage_data {c : Char} (hc : c ≠ 'a') : c ∉ longestMessage.data :=
  fun h => hc (List.eq_of_mem_replicate h)

private theorem length_encode_longestMessage : (encode longestMessage).length = maxLen := by
  rw [length_encode (by decide) (longestMessage_data (by decide)), longestMessage,
    List.length_replicate]
  rfl

/-- A message within the documented limits that does not arrive. -/
theorem wire_round_trip_fails :
    ¬∀ msgs : List Message, (∀ msg ∈ msgs, msg.WellFormed) → ∀ sender receiver,
      Carries msgs sender receiver → ∀ m, RoundTrip msgs receiver m := by
  intro hall
  have hmsg : longestMessage.WellFormed :=
    ⟨by decide, longestMessage_data (by decide), longestMessage_data (by decide),
      length_encode_longestMessage.le⟩
  have hcarries := carries_freshConnection [longestMessage]
  have hstream : (freshConnection ([longestMessage].flatMap encode)).fdbuf.stream =
      encode longestMessage ++ [] := hcarries.stream_eq
  exact not_roundTrip_cons hmsg length_encode_longestMessage [] hstream ⟨[], []⟩
    (hall _ (by simpa using hmsg) _ _ hcarries _)

end CsfAssignments.Chat
