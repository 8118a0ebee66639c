import CsfAssignments.RequestLines

/-!
# The sender program

Definitions of `send_helper` in `sender.cpp`. Every round of its loop reads a line, makes a message
of it and sends it. A line that begins with a slash but is no command leaves the message as it was
initialised, and it is sent like any other.
-/

namespace CsfAssignments.Chat.Sender
open CIntegers RobustIO

/-- `std::getline`, given the lines still to come. At the end of the input the string stays
empty. -/
def getline : List (List Char) → List Char × List (List Char)
  | [] => ([], [])
  | line :: input => (line, input)

/-- `std::string::find` of a string. -/
def findString (s t : List Char) : ℕ := (s.tails.findIdx? (fun u => t.isPrefixOf u)).getD npos

/-- What a round has done: the messages it has sent, its complaints on the standard error, and the
connection behind it. -/
structure Effect where
  sent : List Message
  complaints : List String
  conn : Connection

/-- A `send` and a `receive`, whose result is returned. -/
def exchange (sentmessage : Message) (effect : Effect) : Bool × Effect :=
  let conn := (effect.conn.send sentmessage).2
  let (received, _, conn) := conn.receive ⟨[], []⟩
  (received, { effect with sent := effect.sent ++ [sentmessage], conn := conn })

/-- The message of a line that begins with `/join`. Without a space `find` gives `npos`. -/
def joinMessage (inputGotten : List Char) : Message :=
  let space := find inputGotten ' '
  ⟨tagJoin, substr inputGotten (toUInt64 (space + 1))
    (toUInt64 (inputGotten.length - space - 1))⟩

/-- The part of a round before the common `send`: whether it returns, and the message. The
character behind the last one of a string is a terminator. -/
def command (inputGotten : List Char) (effect : Effect) : Bool × Message × Effect :=
  if inputGotten.headD (Char.ofNat 0) = '/' then
    if findString inputGotten "join".toList = 1 then (false, joinMessage inputGotten, effect)
    else if findString inputGotten "leave".toList = 1 then (false, ⟨tagLeave, []⟩, effect)
    else if findString inputGotten "quit".toList = 1 then
      let (received, effect) := exchange ⟨tagQuit, []⟩ effect
      (received, ⟨tagQuit, []⟩, effect)
    else
      (false, ⟨[], []⟩,
        { effect with complaints := effect.complaints ++ ["The command is not valid\n"] })
  else (false, ⟨tagSendall, inputGotten⟩, effect)

/-- A round of the loop, and whether it returns. -/
def round (inputGotten : List Char) (conn : Connection) : Bool × Effect :=
  match command inputGotten ⟨[], [], conn⟩ with
  | (true, _, effect) => (true, effect)
  | (false, sentmessage, effect) =>
      if sentmessage.tag ≠ tagQuit then (false, (exchange sentmessage effect).2)
      else (false, effect)

/-- At most so many rounds: whether the last of them has returned, and the lines they have read
with what they have done. -/
def sendHelper : ℕ → List (List Char) → Connection → Bool × List (List Char × Effect)
  | 0, _, _ => (false, [])
  | rounds + 1, input, conn =>
      let (inputGotten, input) := getline input
      match round inputGotten conn with
      | (true, effect) => (true, [(inputGotten, effect)])
      | (false, effect) =>
          let (returned, more) := sendHelper rounds input effect.conn
          (returned, (inputGotten, effect) :: more)

/-- A line that begins with a slash and is no command. -/
def Unrecognised (line : List Char) : Prop :=
  ∃ rest, line = '/' :: rest ∧ ¬"join".toList <+: rest ∧ ¬"leave".toList <+: rest ∧
    ¬"quit".toList <+: rest

section Commands

/-- Behind the slash a word is found at the position 1 exactly if it comes at once. -/
theorem findString_slash {t : List Char} (hslash : t.head? ≠ some '/') (hne : t ≠ [])
    (rest : List Char) : findString ('/' :: rest) t = 1 ↔ t <+: rest := by
  have hfirst : t.isPrefixOf ('/' :: rest) = false := by
    obtain ⟨c, t, rfl⟩ := List.exists_cons_of_ne_nil hne
    have hc : c ≠ '/' := by simpa using hslash
    simp [List.isPrefixOf, hc]
  obtain ⟨more, hmore⟩ : ∃ more, rest.tails = rest :: more := by cases rest <;> exact ⟨_, rfl⟩
  rw [findString, List.tails, List.findIdx?_cons, hfirst, hmore, List.findIdx?_cons]
  by_cases hbehind : t <+: rest
  · simp [hbehind]
  · cases hfind : more.findIdx? (fun u => t.isPrefixOf u) <;> simp [hbehind, npos]

/-- The message that a line is made into. -/
def message (line : List Char) : Message :=
  if line.headD (Char.ofNat 0) = '/' then
    if findString line "join".toList = 1 then joinMessage line
    else if findString line "leave".toList = 1 then ⟨tagLeave, []⟩
    else if findString line "quit".toList = 1 then ⟨tagQuit, []⟩
    else ⟨[], []⟩
  else ⟨tagSendall, line⟩

/-- A round sends the message of its line and receives, and it returns behind the reply to
`quit`. -/
theorem round_spec (line : List Char) (conn : Connection) :
    (round line conn).1 =
        (decide ((message line).tag = tagQuit) && (exchange (message line) ⟨[], [], conn⟩).1) ∧
      (round line conn).2.sent = [message line] ∧
      (round line conn).2.conn = (exchange (message line) ⟨[], [], conn⟩).2.conn := by
  rw [round, command, message]
  split_ifs with hslash hjoin hleave hquit
  · exact ⟨rfl, rfl, rfl⟩
  · exact ⟨rfl, rfl, rfl⟩
  · have hsent : (exchange ⟨tagQuit, []⟩ ⟨[], [], conn⟩).2.sent = [⟨tagQuit, []⟩] := rfl
    generalize exchange ⟨tagQuit, []⟩ ⟨[], [], conn⟩ = outcome at hsent ⊢
    obtain ⟨received, effect⟩ := outcome
    cases received <;> exact ⟨rfl, hsent, rfl⟩
  · exact ⟨rfl, rfl, rfl⟩
  · exact ⟨rfl, rfl, rfl⟩

theorem message_of_ne {line : List Char} (hslash : line.head? ≠ some '/') :
    message line = ⟨tagSendall, line⟩ := by
  cases line with
  | nil => rfl
  | cons c line => exact if_neg (by simpa using hslash)

theorem message_slash (rest : List Char) : message ('/' :: rest) =
    if "join".toList <+: rest then joinMessage ('/' :: rest)
    else if "leave".toList <+: rest then ⟨tagLeave, []⟩
    else if "quit".toList <+: rest then ⟨tagQuit, []⟩
    else ⟨[], []⟩ := by
  have hjoin := findString_slash (t := "join".toList) (by decide) (by decide) rest
  have hleave := findString_slash (t := "leave".toList) (by decide) (by decide) rest
  have hquit := findString_slash (t := "quit".toList) (by decide) (by decide) rest
  simp only [message, List.headD_cons, if_true, hjoin, hleave, hquit]

theorem data_message_subset (line : List Char) : (message line).data ⊆ line := by
  rw [message]
  split_ifs
  · exact fun c hc => List.mem_of_mem_drop (List.mem_of_mem_take hc)
  · exact List.nil_subset _
  · exact List.nil_subset _
  · exact List.nil_subset _
  · exact fun c hc => hc

/-- The tags that the server expects from a sender. -/
def requestTags : List (List Char) := [tagJoin, tagLeave, tagSendall, tagQuit]

theorem tag_message_iff {line : List Char} :
    (message line).tag ∈ requestTags ↔ ¬Unrecognised line := by
  by_cases hslash : line.head? = some '/'
  · obtain ⟨rest, rfl⟩ := List.head?_eq_some_iff.mp hslash
    have hunrecognised : Unrecognised ('/' :: rest) ↔ ¬"join".toList <+: rest ∧
        ¬"leave".toList <+: rest ∧ ¬"quit".toList <+: rest := by
      simp [Unrecognised]
    rw [message_slash, hunrecognised]
    split_ifs with hjoin hleave hquit
    · exact iff_of_true (show tagJoin ∈ requestTags by decide) fun h => h.1 hjoin
    · exact iff_of_true (by decide) fun h => h.2.1 hleave
    · exact iff_of_true (by decide) fun h => h.2.2 hquit
    · exact iff_of_false (by decide) (not_not_intro ⟨hjoin, hleave, hquit⟩)
  · rw [message_of_ne hslash]
    refine iff_of_true (show tagSendall ∈ requestTags by decide) ?_
    rintro ⟨rest, rfl, -⟩
    exact hslash rfl

theorem tag_message_eq_quit_iff {line : List Char} :
    (message line).tag = tagQuit ↔ "/quit".toList <+: line := by
  by_cases hslash : line.head? = some '/'
  · obtain ⟨rest, rfl⟩ := List.head?_eq_some_iff.mp hslash
    have hrest : "/quit".toList <+: '/' :: rest ↔ "quit".toList <+: rest :=
      List.cons_prefix_cons.trans (and_iff_right rfl)
    rw [message_slash, hrest]
    split_ifs with hjoin hleave hquit
    · refine iff_of_false (show tagJoin ≠ tagQuit by decide) fun hquit => ?_
      obtain ⟨more, rfl⟩ := hjoin
      simp at hquit
    · refine iff_of_false (by decide) fun hquit => ?_
      obtain ⟨more, rfl⟩ := hleave
      simp at hquit
    · exact iff_of_true rfl hquit
    · exact iff_of_false (by decide) hquit
  · rw [message_of_ne hslash]
    refine iff_of_false (show tagSendall ≠ tagQuit by decide) fun h => hslash ?_
    obtain ⟨more, rfl⟩ := h
    rfl

end Commands

section Requests

/-- The first round, and those behind it unless it has returned. -/
theorem sendHelper_succ (rounds : ℕ) (input : List (List Char)) (conn : Connection) :
    sendHelper (rounds + 1) input conn =
      if (round (getline input).1 conn).1 then
        (true, [((getline input).1, (round (getline input).1 conn).2)])
      else
        ((sendHelper rounds (getline input).2 (round (getline input).1 conn).2.conn).1,
          ((getline input).1, (round (getline input).1 conn).2) ::
            (sendHelper rounds (getline input).2 (round (getline input).1 conn).2.conn).2) := by
  simp only [sendHelper]
  rcases round (getline input).1 conn with ⟨_ | _, effect⟩ <;> rfl

/-- What has happened in a round is that the message of its line was sent, and the line is one of
the input, or empty behind its end. -/
theorem mem_sendHelper {rounds : ℕ} {input : List (List Char)} {conn : Connection}
    {line : List Char} {effect : Effect} (h : (line, effect) ∈ (sendHelper rounds input conn).2) :
    effect.sent = [message line] ∧ (line ∈ input ∨ line = []) := by
  induction rounds generalizing input conn with
  | zero => exact absurd h List.not_mem_nil
  | succ rounds ih =>
    have hfirst : (getline input).1 ∈ input ∨ (getline input).1 = [] := by
      cases input with
      | nil => exact .inr rfl
      | cons line input => exact .inl List.mem_cons_self
    have hrest : (getline input).2 ⊆ input := by
      cases input with
      | nil => exact List.Subset.refl _
      | cons line input => exact List.subset_cons_self _ _
    have hround := (round_spec (getline input).1 conn).2.1
    rw [sendHelper_succ] at h
    split_ifs at h
    · cases List.mem_singleton.mp h
      exact ⟨hround, hfirst⟩
    · rcases List.mem_cons.mp h with h | h
      · cases h
        exact ⟨hround, hfirst⟩
      · obtain ⟨hsent, hline⟩ := ih h
        exact ⟨hsent, hline.imp_left fun hin => hrest hin⟩

/-- A line without a terminator whose message fits the buffer of the server. -/
structure InputLine (line : List Char) : Prop where
  newline_notMem : '\n' ∉ line
  nul_notMem : Char.ofNat 0 ∉ line
  length_le : (encode (message line)).length ≤ 254

/-- A message with a tag that the server expects, which it receives whole wherever it comes. -/
def Understood (msg : Message) : Prop :=
  msg.tag ∈ requestTags ∧ ∀ (server : Connection) (rest : List Char) (m : Message),
    server.fdbuf.stream = encode msg ++ rest →
      ∃ server', server.receive m = (true, ⟨msg.tag, msg.data ++ ['\n']⟩, server') ∧
        server'.lastResult = .success

theorem understood_message {line : List Char} (hline : InputLine line)
    (hcommand : ¬Unrecognised line) : Understood (message line) := by
  have htag := tag_message_iff.mpr hcommand
  have hknown : requestTags ⊆ knownTags := by decide
  have hlimit : 254 < maxLen := by decide
  have hformed : (message line).WellFormed :=
    ⟨hknown htag, fun h => hline.newline_notMem (data_message_subset line h),
      fun h => hline.nul_notMem (data_message_subset line h), hline.length_le.trans hlimit.le⟩
  refine ⟨htag, fun server rest m hstream => ?_⟩
  obtain ⟨server', hreceive, -⟩ :=
    hformed.receive_line (lt_of_le_of_lt hline.length_le hlimit) hstream m
  exact ⟨server', hreceive, Connection.receive_true hreceive⟩

/-- In any number of rounds the server understands every message, and a line that is no command
sends nothing, exactly if no line that was read begins with a slash without a command. -/
theorem requests_understood_iff {input : List (List Char)}
    (hinput : ∀ line ∈ input, InputLine line) (conn : Connection) (rounds : ℕ) :
    (∀ round ∈ (sendHelper rounds input conn).2, (∀ msg ∈ round.2.sent, Understood msg) ∧
        (Unrecognised round.1 → round.2.sent = [])) ↔
      ∀ round ∈ (sendHelper rounds input conn).2, ¬Unrecognised round.1 := by
  have hempty : InputLine [] := ⟨List.not_mem_nil, List.not_mem_nil, by decide⟩
  refine forall₂_congr fun round hround => ?_
  obtain ⟨line, effect⟩ := round
  obtain ⟨hsent, hline⟩ := mem_sendHelper hround
  constructor
  · rintro ⟨-, hnothing⟩ hunrecognised
    have hnone : effect.sent = [] := hnothing hunrecognised
    rw [hsent] at hnone
    cases hnone
  · intro hcommand
    have hinputLine : InputLine line := by
      rcases hline with hin | rfl
      · exact hinput line hin
      · exact hempty
    refine ⟨fun msg hmsg => ?_, fun hunrecognised => absurd hunrecognised hcommand⟩
    have hmsg : msg ∈ effect.sent := hmsg
    rw [hsent, List.mem_singleton] at hmsg
    exact hmsg ▸ understood_message hinputLine hcommand

/-- A server that answers nothing. -/
def silentServer : Connection := ⟨⟨[], []⟩, ⟨[], []⟩, .success⟩

theorem requests_understood_join :
    (∀ round ∈ (sendHelper 2 ["/join lobby".toList] silentServer).2,
        (∀ msg ∈ round.2.sent, Understood msg) ∧ (Unrecognised round.1 → round.2.sent = [])) ↔
      ∀ round ∈ (sendHelper 2 ["/join lobby".toList] silentServer).2, ¬Unrecognised round.1 :=
  requests_understood_iff (List.forall_mem_singleton.mpr ⟨by decide, by decide, by decide +kernel⟩)
    silentServer 2

/-- The line `/foo` sends a message with an empty tag. -/
theorem unrecognised_line_sends :
    ¬∀ (input : List (List Char)), (∀ line ∈ input, InputLine line) →
      ∀ (conn : Connection) (rounds : ℕ), ∀ round ∈ (sendHelper rounds input conn).2,
        (∀ msg ∈ round.2.sent, Understood msg) ∧ (Unrecognised round.1 → round.2.sent = []) := by
  intro h
  have hinput : ∀ line ∈ ["/foo".toList], InputLine line :=
    List.forall_mem_singleton.mpr ⟨by decide, by decide, by decide +kernel⟩
  have hround : ("/foo".toList, (round "/foo".toList silentServer).2) ∈
      (sendHelper 1 ["/foo".toList] silentServer).2 := List.mem_singleton_self _
  obtain ⟨hsent, -⟩ := h _ hinput silentServer 1 _ hround
  have hmessage := (hsent (message "/foo".toList) (by rw [(round_spec _ _).2.1]; simp)).1
  exact absurd hmessage (by decide)

end Requests

end CsfAssignments.Chat.Sender
