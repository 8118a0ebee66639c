import CsfAssignments.ClientLoops
import CsfAssignments.SenderAutomaton

/-!
# The client programs

`main` of `receiver.cpp` and of `sender.cpp`, from the connection to the server on: the requests
that have to be answered with `ok`, and then the loops. What the programs make of the lines of a
server is given for every stream of whole messages, and what the lines of a user say is given
without the messages.
-/

namespace CsfAssignments.Chat
open RobustIO Transducers

/-- The end of a program before its loop: its status, and its complaint on the standard error. -/
structure Exit where
  status : ℤ
  complaint : List Char
  deriving DecidableEq

namespace Receiver

/-- A message that has to be answered with `ok`. -/
def request (msg : Message) (abnormal : String) (conn : Connection) : Except Exit Connection :=
  let (_, response, conn) := (conn.send msg).2.receive ⟨[], []⟩
  if response.tag = tagErr then .error ⟨-1, cString response.data⟩
  else if response.tag ≠ tagOk then .error ⟨-1, abnormal.toList⟩
  else .ok conn

/-- What so many rounds of the delivery loop write. -/
def deliveries (roomName : List Char) : ℕ → Connection → List Output
  | 0, _ => []
  | rounds + 1, conn =>
      (round roomName conn).1 ++ deliveries roomName rounds (round roomName conn).2

/-- `main` behind the connection, with the output of so many rounds. -/
def main (username roomName : List Char) (rounds : ℕ) (conn : Connection) :
    Except Exit (List Output) := do
  let conn ← request ⟨tagRlogin, username⟩ "not normal login tag\n" conn
  let conn ← request (messageJoined roomName) "not normal join tag\n" conn
  return deliveries roomName rounds conn

end Receiver

namespace Sender

/-- The login. A reply that is no message ends the program without a complaint. -/
def logIn (username : List Char) (conn : Connection) : Except Exit Connection :=
  match conn.send ⟨tagSlogin, username⟩ with
  | (false, _) => .error ⟨2, "the error happens\n".toList⟩
  | (true, conn) =>
      match conn.receive ⟨[], []⟩ with
      | (false, _, _) => .error ⟨2, []⟩
      | (true, receivemessage, conn) =>
          if receivemessage.tag = tagErr then .error ⟨2, cString receivemessage.data⟩
          else if receivemessage.tag ≠ tagOk then .error ⟨2, "the wrong tag\n".toList⟩
          else .ok conn

/-- `main` behind the connection, with so many rounds of `send_helper`. -/
def main (username : List Char) (input : List (List Char)) (rounds : ℕ) (conn : Connection) :
    Except Exit (Bool × List (List Char × Effect)) :=
  (logIn username conn).map (sendHelper rounds input)

/-- What the lines of a user say, each with the room it is said in: `/join` enters a room and
`/leave` leaves it, other lines with a slash say nothing, and nothing is said in no room. -/
def said : Option (List Char) → List (List Char) → List (List Char × List Char)
  | _, [] => []
  | room, line :: lines =>
      if "/join".toList <+: line then said (some (rightTrim (joinMessage line).data)) lines
      else if "/leave".toList <+: line then said none lines
      else if "/quit".toList <+: line then []
      else if line.head? = some '/' then said room lines
      else (room.map fun name => (name, rightTrim line)).toList ++ said room lines

/-- What the server receives for a line. -/
def asked (line : List Char) : Request :=
  (if knownTags.contains (message line).tag then .success else .invalidMsg,
    ⟨(message line).tag, (message line).data ++ ['\n']⟩)

end Sender

section Streams

/-- A message that is received whole. -/
def Message.Readable (msg : Message) : Prop := msg.WellFormed ∧ (encode msg).length < maxLen

theorem readable_ok : ok.Readable :=
  ⟨⟨by decide, by decide, by decide, by decide⟩, by decide⟩

/-- The next message of a stream is received. -/
theorem Message.Readable.receive {msg : Message} (hmsg : msg.Readable) {conn : Connection}
    {rest : List Char} (hstream : conn.fdbuf.stream = encode msg ++ rest) :
    ∃ conn', conn.receive ⟨[], []⟩ = (true, ⟨msg.tag, msg.data ++ ['\n']⟩, conn') ∧
      conn'.fdbuf.stream = rest :=
  hmsg.1.receive_line hmsg.2 hstream ⟨[], []⟩

namespace Receiver
variable {roomName username rest : List Char} {conn : Connection} {msgs : List Message}

/-- A request that is answered with `ok`. -/
theorem request_ok (msg : Message) (abnormal : String)
    (hstream : conn.fdbuf.stream = encode ok ++ rest) :
    ∃ conn', request msg abnormal conn = .ok conn' ∧ conn'.fdbuf.stream = rest := by
  rw [← Sender.send_fdbuf conn msg] at hstream
  obtain ⟨conn', hreceive, hrest⟩ := readable_ok.receive hstream
  have htag : ok.tag ≠ tagErr ∧ ¬ok.tag ≠ tagOk := by decide
  refine ⟨conn', ?_, hrest⟩
  rw [request, hreceive]
  dsimp only
  rw [if_neg htag.1, if_neg htag.2]

/-- The loop writes what the next messages are answered with. -/
theorem deliveries_of_stream (hmsgs : ∀ msg ∈ msgs, msg.Readable)
    (hstream : conn.fdbuf.stream = msgs.flatMap encode ++ rest) :
    deliveries roomName msgs.length conn =
      msgs.flatMap fun msg => respond roomName ⟨msg.tag, msg.data ++ ['\n']⟩ := by
  induction msgs generalizing conn with
  | nil => rfl
  | cons msg msgs ih =>
    rw [List.forall_mem_cons] at hmsgs
    rw [List.flatMap_cons, List.append_assoc] at hstream
    obtain ⟨conn', hreceive, hrest⟩ := hmsgs.1.receive hstream
    have hround : round roomName conn =
        (respond roomName ⟨msg.tag, msg.data ++ ['\n']⟩, conn') := by
      rw [round, hreceive]
    rw [List.length_cons, deliveries, hround, ih hmsgs.2 hrest, List.flatMap_cons]

/-- Behind the answers to the login and to the join the program answers the deliveries. -/
theorem main_of_stream (hmsgs : ∀ msg ∈ msgs, msg.Readable)
    (hstream : conn.fdbuf.stream = (ok :: ok :: msgs).flatMap encode ++ rest) :
    main username roomName msgs.length conn =
      .ok (msgs.flatMap fun msg => respond roomName ⟨msg.tag, msg.data ++ ['\n']⟩) := by
  rw [List.flatMap_cons, List.flatMap_cons, List.append_assoc, List.append_assoc] at hstream
  obtain ⟨conn₁, hlogin, hstream₁⟩ :=
    request_ok ⟨tagRlogin, username⟩ "not normal login tag\n" hstream
  obtain ⟨conn₂, hjoin, hstream₂⟩ :=
    request_ok (messageJoined roomName) "not normal join tag\n" hstream₁
  simp only [main, hlogin, hjoin, bind, Except.bind, pure, Except.pure,
    deliveries_of_stream hmsgs hstream₂]

end Receiver
end Streams

namespace Sender

section Lines
variable {line quit : List Char} {before lines : List (List Char)}

/-- The tag of a message is known, except for a line that is no command. -/
theorem tag_message_known (line : List Char) :
    (message line).tag ∈ knownTags ∨ message line = ⟨[], []⟩ := by
  have hknown : requestTags ⊆ knownTags := by decide
  by_cases hline : Unrecognised line
  · obtain ⟨rest, rfl, hjoin, hleave, hquit⟩ := hline
    rw [message_slash, if_neg hjoin, if_neg hleave, if_neg hquit]
    exact .inr rfl
  · exact .inl (hknown (tag_message_iff.mpr hline))

theorem tag_message_plain (line : List Char) : ':' ∉ (message line).tag ∧
    '\n' ∉ (message line).tag ∧ Char.ofNat 0 ∉ (message line).tag := by
  rcases tag_message_known line with hknown | hempty
  · exact knownTags_plain _ hknown
  · rw [hempty]
    exact ⟨List.not_mem_nil, List.not_mem_nil, List.not_mem_nil⟩

theorem encode_message (hline : InputLine line) :
    encode (message line) = (message line).tag ++ ':' :: (message line).data ++ ['\n'] := by
  have hdata : Char.ofNat 0 ∉ (message line).data :=
    fun h => hline.nul_notMem (data_message_subset line h)
  have hcolon : Char.ofNat 0 ≠ ':' ∧ Char.ofNat 0 ≠ '\n' := by decide
  exact cString_eq (by simp [(tag_message_plain line).2.2, hdata, hcolon.1, hcolon.2])

theorem length_message (hline : InputLine line) :
    (message line).tag.length + (message line).data.length + 2 ≤ 254 := by
  have hlen := hline.length_le
  rw [encode_message hline] at hlen
  simp only [List.length_append, List.length_cons, List.length_nil] at hlen
  omega

/-- The server receives the message of a line whole, whatever its tag. -/
theorem receive_asked (hline : InputLine line) {conn conn' : Connection} {rest : List Char}
    {received : Bool} {msg : Message} (hstream : conn.fdbuf.stream = encode (message line) ++ rest)
    (hreceive : conn.receive ⟨[], []⟩ = (received, msg, conn')) :
    msg = (asked line).2 ∧ conn'.lastResult = (asked line).1 ∧ conn'.fdbuf.stream = rest := by
  obtain ⟨htag, htagLine, htagText⟩ := tag_message_plain line
  have hlen := length_message hline
  have hcolon : '\n' ≠ ':' ∧ Char.ofNat 0 ≠ ':' := by decide
  have hdata : '\n' ∉ (message line).data ∧ Char.ofNat 0 ∉ (message line).data :=
    ⟨fun h => hline.newline_notMem (data_message_subset line h),
      fun h => hline.nul_notMem (data_message_subset line h)⟩
  rw [encode_message hline, List.append_assoc, List.singleton_append] at hstream
  obtain ⟨fdbuf, hrest, hwhole⟩ := conn.receive_line (by simp [htagLine, hcolon.1, hdata.1])
    (by simp [htagText, hcolon.2, hdata.2]) (by simp [maxLen]; omega) hstream ⟨[], []⟩
  rw [List.append_assoc, List.cons_append, parse_colon htag _ (by simp [npos]; omega)] at hwhole
  rw [hreceive] at hwhole
  cases hwhole
  refine ⟨rfl, ?_, hrest⟩
  simp only [asked, List.contains_iff_mem]

/-- Whatever is behind it, a message ends with a newline. -/
theorem hasNewline_asked (hline : InputLine line) : hasNewline (asked line).2.data := by
  have hdata : '\n' ∉ (message line).data :=
    fun h => hline.newline_notMem (data_message_subset line h)
  have hlen := length_message hline
  show find ((message line).data ++ ['\n']) '\n' ≠ npos
  rw [find_append hdata, npos]
  omega

theorem asked_of_known (hknown : (message line).tag ∈ knownTags) :
    asked line = (.success, ⟨(message line).tag, (message line).data ++ ['\n']⟩) := by
  rw [asked, if_pos (List.contains_iff_mem.mpr hknown)]

theorem rightTrim_newline (s : List Char) : rightTrim (s ++ ['\n']) = rightTrim s :=
  List.rdropWhile_concat_pos _ _ _ (by decide)

theorem quits_asked_iff : Quits (asked line) ↔ "/quit".toList <+: line := by
  rw [← tag_message_eq_quit_iff]
  have hquit : tagQuit ∈ knownTags := by decide
  constructor
  · exact fun h => h.2
  · intro htag
    rw [asked_of_known (htag ▸ hquit)]
    exact ⟨rfl, htag⟩

/-- A word behind the slash. -/
private theorem slash_prefix_iff {word rest : List Char} :
    '/' :: word <+: '/' :: rest ↔ word <+: rest :=
  List.cons_prefix_cons.trans (and_iff_right rfl)

/-- A line with a slash says nothing, and moves the user as it moves the automaton. -/
private theorem said_slash {rest : List Char} (hline : InputLine ('/' :: rest))
    (hquit : ¬"quit".toList <+: rest) (room : Option (List Char)) :
    said room (('/' :: rest) :: lines) =
        said (senderAutomaton.next room (asked ('/' :: rest))) lines ∧
      (senderAutomaton.output room (asked ('/' :: rest))).post = none := by
  have hmessage := message_slash rest
  have hword (word : String) : ('/' :: word.toList) <+: '/' :: rest ↔ word.toList <+: rest :=
    slash_prefix_iff
  have hnewline := hasNewline_asked hline
  rw [said, show "/join".toList = '/' :: "join".toList from rfl,
    show "/leave".toList = '/' :: "leave".toList from rfl,
    show "/quit".toList = '/' :: "quit".toList from rfl, if_neg (mt (hword _).mp hquit)]
  by_cases hjoin : "join".toList <+: rest
  · rw [if_pos hjoin] at hmessage
    have hknown : (message ('/' :: rest)).tag ∈ knownTags := by
      rw [hmessage]
      exact show tagJoin ∈ knownTags by decide
    have htag : (asked ('/' :: rest)).2.tag = tagJoin := by
      rw [asked_of_known hknown, hmessage]
      rfl
    have haccepted : Accepts room (asked ('/' :: rest)) :=
      (accepts_of_join htag).mpr ⟨by rw [asked_of_known hknown], hnewline⟩
    rw [if_pos ((hword _).mpr hjoin), next_of_join haccepted htag,
      output_of_accepts haccepted (by rw [htag]; decide), asked_of_known hknown, hmessage]
    exact ⟨by rw [rightTrim_newline], rfl⟩
  rw [if_neg hjoin] at hmessage
  rw [if_neg (mt (hword _).mp hjoin)]
  by_cases hleave : "leave".toList <+: rest
  · rw [if_pos hleave] at hmessage
    have hasked : asked ('/' :: rest) = (.success, ⟨tagLeave, ['\n']⟩) := by
      rw [asked, hmessage, if_pos (by decide)]
      rfl
    rw [if_pos ((hword _).mpr hleave), hasked]
    cases room with
    | none =>
      have hrefused : ¬Accepts none (.success, ⟨tagLeave, ['\n']⟩) := by decide
      rw [next_of_not_accepts hrefused, output_of_not_accepts hrefused]
      exact ⟨rfl, rfl⟩
    | some name =>
      have haccepted : Accepts (some name) (.success, ⟨tagLeave, ['\n']⟩) :=
        (accepts_of_leave rfl).mpr ⟨rfl, Option.some_ne_none name⟩
      rw [next_of_leave haccepted rfl, output_of_accepts haccepted (by decide)]
      exact ⟨rfl, rfl⟩
  rw [if_neg hleave, if_neg hquit] at hmessage
  have hrefused : ¬Accepts room (asked ('/' :: rest)) := by
    rw [asked, hmessage, if_neg (by decide)]
    rintro ⟨hsuccess, -⟩
    cases hsuccess
  rw [if_neg (mt (hword _).mp hleave), if_pos (List.head?_cons ..), next_of_not_accepts hrefused,
    output_of_not_accepts hrefused]
  exact ⟨rfl, rfl⟩

/-- The lines of a user and the automaton of the server, a line at a time. -/
theorem said_cons (hline : InputLine line) (hquit : ¬"/quit".toList <+: line)
    (room : Option (List Char)) : said room (line :: lines) =
      (senderAutomaton.output room (asked line)).post.toList ++
        said (senderAutomaton.next room (asked line)) lines := by
  by_cases hslash : line.head? = some '/'
  · obtain ⟨rest, rfl⟩ := List.head?_eq_some_iff.mp hslash
    obtain ⟨hsaid, hpost⟩ : said room (('/' :: rest) :: lines) = _ ∧ _ :=
      said_slash hline (mt slash_prefix_iff.mpr hquit) room
    rw [hsaid, hpost]
    rfl
  · have hword {word : List Char} (hfirst : word.head? = some '/') : ¬word <+: line := by
      obtain ⟨word, rfl⟩ := List.head?_eq_some_iff.mp hfirst
      rintro ⟨rest, rfl⟩
      exact hslash rfl
    have hjoin : ¬"/join".toList <+: line := hword (by decide)
    have hleave : ¬"/leave".toList <+: line := hword (by decide)
    have hasked : asked line = (.success, ⟨tagSendall, line ++ ['\n']⟩) := by
      rw [asked, message_of_ne hslash, if_pos (show knownTags.contains tagSendall by decide)]
    have hnewline : hasNewline (line ++ ['\n']) := by
      have hnewline := hasNewline_asked hline
      rwa [hasked] at hnewline
    rw [said, if_neg hjoin, if_neg hleave, if_neg hquit, if_neg hslash, hasked,
      next_of_sendall rfl]
    cases room with
    | none =>
      have hrefused : ¬Accepts none (.success, ⟨tagSendall, line ++ ['\n']⟩) :=
        fun h => ((accepts_of_sendall rfl).mp h).2.1 rfl
      rw [output_of_not_accepts hrefused]
      rfl
    | some name =>
      have haccepted : Accepts (some name) (.success, ⟨tagSendall, line ++ ['\n']⟩) :=
        (accepts_of_sendall rfl).mpr ⟨rfl, Option.some_ne_none name, hnewline⟩
      rw [output_of_sendall haccepted rfl]
      show [(name, rightTrim line)] ++ _ = [(name, rightTrim (line ++ ['\n']))] ++ _
      rw [rightTrim_newline]

/-- What a user says up to the line that quits is what the automaton posts. -/
theorem posts_asked (hbefore : ∀ line ∈ before, InputLine line ∧ ¬"/quit".toList <+: line)
    (hquit : "/quit".toList <+: quit) :
    posts ((before ++ [quit]).map asked) = said none (before ++ [quit]) := by
  rw [posts, Transducer.outputs, show senderAutomaton.start = none from rfl]
  generalize (none : Option (List Char)) = room
  induction before generalizing room with
  | nil =>
    have hquits : Quits (asked quit) := quits_asked_iff.mpr hquit
    have hother : ¬"/join".toList <+: quit ∧ ¬"/leave".toList <+: quit := by
      obtain ⟨rest, rfl⟩ := hquit
      exact ⟨by simp, by simp⟩
    rw [List.nil_append, said, if_neg hother.1, if_neg hother.2, if_pos hquit, List.map_singleton,
      Transducer.outputsFrom, output_of_accepts hquits.accepts (by rw [hquits.2]; decide)]
    rfl
  | cons line before ih =>
    rw [List.forall_mem_cons] at hbefore
    rw [List.cons_append, said_cons hbefore.1.1 hbefore.1.2, List.map_cons, Transducer.outputsFrom,
      ← ih hbefore.2, List.filterMap_cons]
    cases (senderAutomaton.output room (asked line)).post <;> rfl

end Lines

section Replies
variable {username quit rest : List Char} {before more : List (List Char)} {msgs : List Message}
  {conn : Connection} {rounds : ℕ}

/-- A message in the stream is a reply. -/
theorem reply_readable {msg : Message} (hmsg : msg.Readable) {fdbuf : Rio}
    (hstream : fdbuf.stream = encode msg ++ rest) :
    (reply fdbuf).1 = true ∧ (reply fdbuf).2.stream = rest := by
  have hstream : (⟨fdbuf, ⟨[], []⟩, .success⟩ : Connection).fdbuf.stream = encode msg ++ rest := hstream
  obtain ⟨conn', hreceive, hrest⟩ := hmsg.receive hstream
  rw [reply, hreceive]
  exact ⟨rfl, hrest⟩

/-- With a reply to every line the loop sends the messages of the lines up to the first that quits,
and returns behind it. -/
theorem sendHelper_of_replies (hbefore : ∀ line ∈ before, ¬"/quit".toList <+: line)
    (hquit : "/quit".toList <+: quit) (hmsgs : ∀ msg ∈ msgs, msg.Readable)
    (hlen : msgs.length = before.length + 1)
    (hstream : conn.fdbuf.stream = msgs.flatMap encode ++ rest) (hrounds : before.length < rounds) :
    ∃ effects, sendHelper rounds (before ++ quit :: more) conn = (true, effects) ∧
      effects.map Prod.fst = before ++ [quit] ∧
      effects.flatMap (fun round => round.2.sent) = (before ++ [quit]).map message := by
  induction before generalizing msgs conn rounds with
  | nil =>
    obtain ⟨msg, rfl⟩ := List.length_eq_one_iff.mp hlen
    obtain ⟨rounds, rfl⟩ := Nat.exists_eq_add_one_of_ne_zero hrounds.ne'
    rw [List.flatMap_singleton] at hstream
    have hreply := (reply_readable (hmsgs msg (List.mem_singleton_self msg)) hstream).1
    obtain ⟨hreturns, hsent, -⟩ := round_spec quit conn
    have hreturns : (round quit conn).1 = true := by
      rw [hreturns, (exchange_reply _ _).1, hreply, decide_eq_true (tag_message_eq_quit_iff.mpr hquit)]
      rfl
    refine ⟨[(quit, (round quit conn).2)], ?_, rfl, ?_⟩
    · rw [List.nil_append, sendHelper_succ, getline, if_pos hreturns]
    · rw [List.flatMap_singleton, hsent]
      rfl
  | cons line before ih =>
    obtain ⟨msg, msgs, rfl⟩ := List.exists_cons_of_length_eq_add_one hlen
    obtain ⟨rounds, rfl⟩ := Nat.exists_eq_add_one_of_ne_zero (Nat.ne_zero_of_lt hrounds)
    rw [List.forall_mem_cons] at hbefore hmsgs
    rw [List.flatMap_cons, List.append_assoc] at hstream
    obtain ⟨hreturns, hsent, hconn⟩ := round_spec line conn
    have hstays : ¬(round line conn).1 = true := by
      rw [hreturns, decide_eq_false (mt tag_message_eq_quit_iff.mp hbefore.1)]
      exact Bool.false_ne_true
    have hbehind : (round line conn).2.conn.fdbuf.stream = msgs.flatMap encode ++ rest := by
      rw [hconn, (exchange_reply _ _).2]
      exact (reply_readable hmsgs.1 hstream).2
    simp only [List.length_cons] at hlen hrounds
    obtain ⟨effects, hrest, hlines, hmessages⟩ :=
      ih hbefore.2 hmsgs.2 (by omega) hbehind (Nat.lt_of_succ_lt_succ hrounds)
    refine ⟨(line, (round line conn).2) :: effects, ?_, ?_, ?_⟩
    · rw [List.cons_append, sendHelper_succ, getline, if_neg hstays, hrest]
    · rw [List.map_cons, hlines, List.cons_append]
    · rw [List.flatMap_cons, hsent, hmessages]
      rfl

/-- Behind the answer to the login the program goes through its loop. -/
theorem main_of_stream (hbefore : ∀ line ∈ before, ¬"/quit".toList <+: line)
    (hquit : "/quit".toList <+: quit) (hmsgs : ∀ msg ∈ msgs, msg.Readable)
    (hlen : msgs.length = before.length + 1) (hsend : (conn.send ⟨tagSlogin, username⟩).1 = true)
    (hstream : conn.fdbuf.stream = (ok :: msgs).flatMap encode ++ rest)
    (hrounds : before.length < rounds) :
    ∃ effects, main username (before ++ quit :: more) rounds conn = .ok (true, effects) ∧
      effects.map Prod.fst = before ++ [quit] ∧
      effects.flatMap (fun round => round.2.sent) = (before ++ [quit]).map message := by
  rw [List.flatMap_cons, List.append_assoc, ← send_fdbuf conn ⟨tagSlogin, username⟩] at hstream
  obtain ⟨conn', hreceive, hbehind⟩ := readable_ok.receive hstream
  obtain ⟨effects, hloop, heffects⟩ : ∃ effects,
      sendHelper rounds (before ++ quit :: more) conn' = (true, effects) ∧ _ :=
    sendHelper_of_replies hbefore hquit hmsgs hlen hbehind hrounds
  have htag : ok.tag ≠ tagErr ∧ ¬ok.tag ≠ tagOk := by decide
  have hlogIn : logIn username conn = .ok conn' := by
    rw [logIn, ← Prod.mk.eta (p := conn.send ⟨tagSlogin, username⟩), hsend]
    dsimp only
    rw [hreceive]
    dsimp only
    rw [if_neg htag.1, if_neg htag.2]
  refine ⟨effects, ?_, heffects⟩
  rw [main, hlogIn, Except.map, hloop]

end Replies
end Sender

end CsfAssignments.Chat
