import CsfAssignments.WireRoundTrip

/-!
# The receiver program

Definitions of the delivery loop of `receiver.cpp`. The program takes the line of a delivery apart
again: it looks for the name of its room before the first colon, and for the username before the
second one.
-/

namespace CsfAssignments.Chat.Receiver
open CIntegers

/-- What the program writes: to the standard output, or a complaint with `perror`. -/
inductive Output
  | print (text : List Char)
  | perror (text : String)
  deriving DecidableEq

/-- The message that asks for the room of the command line. -/
def messageJoined (roomName : List Char) : Message := ⟨tagJoin, roomName⟩

/-- What is written for a message: `int` holds the positions of the colons, and `printf` stops at
a terminator. -/
def respond (roomName : List Char) (response : Message) : List Output :=
  if response.tag = tagDelivery then
    let firstco := toInt (find response.data ':')
    let room := substr response.data 0 (toUInt64 firstco)
    if room = roomName then
      let message := substr response.data (toUInt64 (firstco + 1)) npos
      let secondco := toInt (find message ':')
      [.print (cString (substr message 0 (toUInt64 secondco) ++ ": ".toList ++
        substr message (toUInt64 (secondco + 1)) npos))]
    else []
  else [.perror "server's response tag is unexpected\n"]

/-- A round of the delivery loop. -/
def round (roomName : List Char) (conn : Connection) : List Output × Connection :=
  match conn.receive ⟨[], []⟩ with
  | (true, response, conn) => (respond roomName response, conn)
  | (false, _, conn) =>
      (if conn.lastResult = .eofOrError then [] else [.perror "the formate is invalid\n"], conn)

/-- A position within an `int` survives the conversions. -/
private theorem toUInt64_toInt {n : ℕ} (hn : n < 2 ^ 31 - 1) :
    toUInt64 (toInt n) = n ∧ toUInt64 (toInt n + 1) = n + 1 := by
  rw [toInt_natCast (by omega)]
  exact ⟨toUInt64_natCast (by omega), toUInt64_natCast (n := n + 1) (by omega)⟩

/-- Nothing is written when another name is before the first colon. -/
theorem respond_of_ne {roomName room rest : List Char} (hroom : ':' ∉ room)
    (hlen : room.length < 2 ^ 31 - 1) (hne : room ≠ roomName) :
    respond roomName ⟨tagDelivery, room ++ ':' :: rest⟩ = [] := by
  simp only [respond, find_append hroom, (toUInt64_toInt hlen).1, substr_left, if_neg hne,
    if_true]

/-- Behind the name of the room come the username and the text. -/
theorem respond_delivery {roomName username text : List Char} (hroom : ':' ∉ roomName)
    (husername : ':' ∉ username) (hnul : Char.ofNat 0 ∉ username ++ text)
    (hlen : roomName.length + username.length + text.length + 2 < 2 ^ 31 - 1) :
    respond roomName ⟨tagDelivery, roomName ++ ':' :: (username ++ ':' :: text)⟩ =
      [.print (username ++ ": ".toList ++ text)] := by
  have hnpos : 2 ^ 31 ≤ npos := by decide
  obtain ⟨hfirst, hbehind⟩ := toUInt64_toInt (n := roomName.length) (by omega)
  obtain ⟨hsecond, hrest⟩ := toUInt64_toInt (n := username.length) (by omega)
  have hmessage : substr (roomName ++ ':' :: (username ++ ':' :: text)) (roomName.length + 1)
      npos = username ++ ':' :: text := substr_behind roomName ':' (by simp; omega)
  have htext : substr (username ++ ':' :: text) (username.length + 1) npos = text :=
    substr_behind username ':' (by omega)
  have hprinted : Char.ofNat 0 ∉ username ++ ": ".toList ++ text := by
    have hseparator : Char.ofNat 0 ∉ ": ".toList := by decide
    simp only [List.mem_append, not_or] at hnul ⊢
    exact ⟨⟨hnul.1, hseparator⟩, hnul.2⟩
  simp only [respond, find_append hroom, find_append husername, hfirst, hbehind, hsecond,
    hrest, hmessage, htext, substr_left, cString_eq hprinted, if_true]

/-- A delivery for the first part of the name is written out exactly if this part is the whole
name and has no colon. -/
theorem respond_delivery_iff {roomName room username text : List Char} (hroom : room <+: roomName)
    (husername : ':' ∉ username) (hnul : Char.ofNat 0 ∉ username ++ text)
    (hlen : room.length + username.length + text.length + 2 < 2 ^ 31 - 1) :
    respond roomName ⟨tagDelivery, room ++ ':' :: (username ++ ':' :: text)⟩ =
        [.print (username ++ ": ".toList ++ text)] ↔
      ':' ∉ roomName ∧ room = roomName := by
  by_cases hcolon : ':' ∈ room
  · obtain ⟨first, rest, rfl, hfirst⟩ := List.eq_append_cons_of_mem hcolon
    have hne : first ≠ roomName := by
      rintro rfl
      exact hfirst (hroom.subset hcolon)
    simp only [List.length_append, List.length_cons] at hlen
    rw [List.append_assoc, List.cons_append, respond_of_ne hfirst (by omega) hne]
    refine iff_of_false (List.cons_ne_nil _ _).symm fun h => ?_
    exact h.1 (hroom.subset hcolon)
  · by_cases hname : room = roomName
    · subst hname
      exact iff_of_true (respond_delivery hcolon husername hnul hlen) ⟨hcolon, rfl⟩
    · rw [respond_of_ne hcolon (by omega) hname]
      exact iff_of_false (List.cons_ne_nil _ _).symm fun h => hname h.2

/-- A message shorter than the limit is read whole. -/
theorem round_of_wellFormed {msg : Message} (hmsg : msg.WellFormed)
    (hlen : (encode msg).length < maxLen) {conn : Connection} {rest : List Char}
    (hstream : conn.fdbuf.stream = encode msg ++ rest) (roomName : List Char) :
    (round roomName conn).1 = respond roomName ⟨msg.tag, msg.data ++ ['\n']⟩ := by
  obtain ⟨conn', hreceive, -⟩ := hmsg.receive_line hlen hstream ⟨[], []⟩
  rw [round, hreceive]

end CsfAssignments.Chat.Receiver
