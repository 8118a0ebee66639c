import CsfAssignments.WireRoundTrip

/-!
# Request lines

The lines that a client writes, and what `receive` makes of the next one. The reader keeps one
byte of its buffer for the terminator, so that a line has at most 254 characters with its newline
if it is read whole.
-/

namespace CsfAssignments.Chat

/-- The bytes of lines, each with its newline. -/
def wire (lines : List (List Char)) : List Char := lines.flatMap fun line => line ++ ['\n']

@[simp] theorem wire_nil : wire [] = [] := rfl

@[simp] theorem wire_cons (line : List Char) (lines : List (List Char)) :
    wire (line :: lines) = line ++ '\n' :: wire lines := by
  simp [wire]

theorem wire_append (lines more : List (List Char)) :
    wire (lines ++ more) = wire lines ++ wire more :=
  List.flatMap_append

theorem stream_freshConnection (bytes : List Char) :
    (freshConnection bytes).fdbuf.stream = bytes := by
  cases bytes <;> simp [freshConnection, RobustIO.Rio.stream, RobustIO.arriving]

/-- A message within the documented limits whose tag is that of `quit`. -/
def QuitLine (line : List Char) : Prop :=
  ∃ msg : Message, msg.WellFormed ∧ msg.tag = tagQuit ∧ line ++ ['\n'] = encode msg

theorem QuitLine.eq_append {line : List Char} (hquit : QuitLine line) :
    ∃ data, line = tagQuit ++ ':' :: data ∧ '\n' ∉ data ∧ Char.ofNat 0 ∉ data ∧
      line.length < maxLen := by
  obtain ⟨msg, hmsg, htag, hline⟩ := hquit
  have hlen := hmsg.length_le
  rw [← hline, List.length_append, List.length_singleton] at hlen
  rw [encode_eq hmsg.tag_known hmsg.data_text, htag] at hline
  exact ⟨msg.data, List.append_cancel_right hline, hmsg.data_line, hmsg.data_text, hlen⟩

theorem QuitLine.head? {line : List Char} (hquit : QuitLine line) : line.head? = some 'q' := by
  obtain ⟨data, rfl, -⟩ := hquit.eq_append
  rfl

/-- A line that is read whole is a request to quit only if it is a well-formed one. -/
theorem quitLine_of_tag {line : List Char} (hnewline : '\n' ∉ line) (hnul : Char.ofNat 0 ∉ line)
    (hlen : line.length < maxLen) (htag : (parse (line ++ ['\n'])).tag = tagQuit) :
    QuitLine line := by
  have hnpos : maxLen + 1 < npos := by decide
  by_cases hcolon : ':' ∈ line
  · obtain ⟨tag, data, rfl, hfirst⟩ := List.eq_append_cons_of_mem hcolon
    simp only [List.length_append, List.length_cons] at hlen
    rw [List.append_assoc, List.cons_append, parse_colon hfirst _ (by simp; omega)] at htag
    have htag : tag = tagQuit := htag
    subst htag
    have hdata : '\n' ∉ data ∧ Char.ofNat 0 ∉ data :=
      ⟨fun h => hnewline (by simp [h]), fun h => hnul (by simp [h])⟩
    have hknown : tagQuit ∈ knownTags := by decide
    refine ⟨⟨tagQuit, data⟩, ⟨hknown, hdata.1, hdata.2, ?_⟩, rfl, ?_⟩
    · rw [length_encode hknown hdata.2]
      show tagQuit.length + data.length + 2 ≤ maxLen
      omega
    · rw [encode_eq hknown hdata.2]
  · have hnone : ':' ∉ line ++ ['\n'] := by simp [hcolon]
    have hwhole : (parse (line ++ ['\n'])).tag = line ++ ['\n'] := by
      rw [parse, find_of_notMem hnone]
      exact List.take_of_length_le (by simp; omega)
    have hin : '\n' ∈ tagQuit := by
      rw [← htag, hwhole]
      simp
    exact absurd hin (by decide)

theorem Connection.receive_true {conn conn' : Connection} {m msg : Message}
    (h : conn.receive m = (true, msg, conn')) : conn'.lastResult = .success := by
  rw [Connection.receive] at h
  split at h
  · cases h
  · cases h
  · dsimp only at h
    split_ifs at h
    · cases h
      rfl
    · cases h

/-- A request to quit is understood, even when it is cut. -/
theorem QuitLine.receive {line u : List Char} (hquit : QuitLine line) {conn conn' : Connection}
    (h : conn.fdbuf.stream = line ++ '\n' :: u) {received : Bool} {msg : Message}
    (hreceive : conn.receive ⟨[], []⟩ = (received, msg, conn')) :
    msg.tag = tagQuit ∧ conn'.lastResult = .success := by
  obtain ⟨quit, hformed, htag, hline⟩ := hquit
  have hstream : conn.fdbuf.stream = encode quit ++ u := by
    rw [h, ← hline, List.append_assoc, List.singleton_append]
  rcases hformed.length_le.lt_or_eq with hlen | hlen
  · obtain ⟨conn₁, hread, -⟩ := hformed.receive_line hlen hstream ⟨[], []⟩
    rw [hreceive] at hread
    cases hread
    exact ⟨htag, Connection.receive_true hreceive⟩
  · obtain ⟨conn₁, hread⟩ := hformed.receive_cut hlen hstream ⟨[], []⟩
    rw [hreceive] at hread
    cases hread
    exact ⟨htag, Connection.receive_true hreceive⟩

/-- The request to quit of the sender program. -/
theorem quitLine_quit : QuitLine "quit:".toList :=
  ⟨⟨tagQuit, []⟩, ⟨by decide, by decide, by decide, by decide⟩, rfl, by decide⟩

/-- The lines that a sender writes up to its first request to quit. -/
structure Conversation (before : List (List Char)) (quit : List Char) : Prop where
  newline_notMem : ∀ line ∈ before, '\n' ∉ line
  nul_notMem : ∀ line ∈ before, Char.ofNat 0 ∉ line
  not_quit : ∀ line ∈ before, ¬QuitLine line
  quit : QuitLine quit

end CsfAssignments.Chat
