import CsfAssignments.WireRoundTrip

/-!
# The grammar of messages

A message is a known tag, a colon and the data. `receive` accepts the lines of this grammar, and
besides them the tags alone, which a client can send as its last bytes: without a colon both parts
of the line are all of it.
-/

namespace CsfAssignments.Chat
open RobustIO

/-- The message of a line: the tag is before the first colon and the data behind it. -/
structure Message.Spells (msg : Message) (line : List Char) : Prop where
  split : line = msg.tag ++ ':' :: msg.data
  first : ':' ∉ msg.tag
  known : msg.tag ∈ knownTags

/-- A call of `receive` accepts exactly the messages, and takes the tag and the data from them. -/
structure FollowsGrammar (line : List Char) (outcome : Bool × Message × Connection) : Prop where
  accepted : outcome.1 = true ↔ ∃ msg : Message, msg.Spells line
  received : ∀ msg : Message, msg.Spells line → outcome.2.1 = msg
  refused : outcome.1 = false → outcome.2.2.lastResult = .invalidMsg

section Parse
variable {line : List Char}

theorem Message.Spells.parse_eq {msg : Message} (h : msg.Spells line)
    (hlen : line.length < npos) : parse line = msg := by
  have hsplit := h.split
  subst hsplit
  rw [List.length_append, List.length_cons] at hlen
  exact parse_colon h.first _ (by omega)

/-- Without a colon the tag and the data are the whole line. -/
theorem parse_of_notMem (hcolon : ':' ∉ line) (hlen : line.length ≤ npos) :
    parse line = ⟨line, line⟩ := by
  have hwrap : (npos + 1) % 2 ^ 64 = 0 := by decide
  rw [parse, find_of_notMem hcolon, hwrap, substr, List.drop_zero, List.take_of_length_le hlen]

/-- The tag that is split off is known for a message, and for a tag alone. -/
theorem parse_tag_known_iff (hlen : line.length < npos) :
    (parse line).tag ∈ knownTags ↔ (∃ msg : Message, msg.Spells line) ∨ line ∈ knownTags := by
  by_cases hcolon : ':' ∈ line
  · obtain ⟨tag, data, rfl, htag⟩ := List.eq_append_cons_of_mem hcolon
    have hbare : tag ++ ':' :: data ∉ knownTags := fun h => (knownTags_plain _ h).1 hcolon
    rw [or_iff_left hbare]
    constructor
    · intro hknown
      rw [List.length_append, List.length_cons] at hlen
      rw [parse_colon htag _ (by omega)] at hknown
      exact ⟨⟨tag, data⟩, rfl, htag, hknown⟩
    · rintro ⟨msg, hmsg⟩
      rw [hmsg.parse_eq hlen]
      exact hmsg.known
  · have hnone : ¬∃ msg : Message, msg.Spells line := by
      rintro ⟨msg, hmsg⟩
      exact hcolon (by simp [hmsg.split])
    rw [parse_of_notMem hcolon hlen.le, or_iff_right hnone]

end Parse

/-- A line that was read is received by the grammar exactly if it is not one of the tags
alone. -/
theorem receive_accepts_iff {conn : Connection} {line : List Char} {fdbuf : Rio}
    (hread : rioReadlineb conn.fdbuf maxLen = (some line, fdbuf)) (hline : line ≠ [])
    (hnul : Char.ofNat 0 ∉ line) (m : Message) :
    FollowsGrammar line (conn.receive m) ↔ line ∉ knownTags := by
  have hlimit : maxLen ≤ npos := by decide
  have hlen : line.length < npos := by
    have hle := (rioReadlineb_dropLast (by decide) hread).2
    have hpos := List.length_pos_iff.mpr hline
    omega
  have hknown := parse_tag_known_iff hlen
  rw [conn.receive_read hread hline m, cString_eq hnul]
  constructor
  · intro h hbare
    have hcolon := (knownTags_plain line hbare).1
    obtain ⟨msg, hmsg⟩ := h.accepted.mp (decide_eq_true (hknown.mpr (.inr hbare)))
    exact hcolon (by simp [hmsg.split])
  · intro hbare
    rw [or_iff_left hbare] at hknown
    refine ⟨by rw [decide_eq_true_iff, hknown], fun msg hmsg => hmsg.parse_eq hlen, fun h => ?_⟩
    exact if_neg (of_decide_eq_false h)

/-- A connection whose peer sends these characters in one piece and closes its end. -/
def closingConnection (s : String) : Connection := ⟨⟨[], [.data s.toList]⟩, ⟨[], []⟩, .success⟩

theorem receive_accepts_unterminated :
    FollowsGrammar "ok:a:b".toList ((closingConnection "ok:a:b").receive ⟨[], []⟩) ↔
      "ok:a:b".toList ∉ knownTags :=
  receive_accepts_iff
    (show rioReadlineb (closingConnection "ok:a:b").fdbuf maxLen = (some "ok:a:b".toList, ⟨[], []⟩) by
      decide +kernel)
    (by decide) (by decide) ⟨[], []⟩

/-- The line `quit` without a colon or a newline, which the peer can send before it closes its
end, is accepted with its tag as the data. -/
theorem receive_accepts_bare_tag :
    ¬∀ (conn : Connection) (line : List Char) (fdbuf : Rio) (m : Message),
      rioReadlineb conn.fdbuf maxLen = (some line, fdbuf) → line ≠ [] → Char.ofNat 0 ∉ line →
      FollowsGrammar line (conn.receive m) := by
  intro h
  have haccepts := h (closingConnection "quit") "quit".toList ⟨[], []⟩ ⟨[], []⟩ (by decide +kernel)
    (by decide) (by decide)
  obtain ⟨msg, hmsg⟩ := haccepts.accepted.mp (by decide +kernel)
  exact absurd (show ':' ∈ "quit".toList by simp [hmsg.split]) (by decide)

end CsfAssignments.Chat
