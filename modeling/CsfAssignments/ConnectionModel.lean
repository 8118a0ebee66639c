import CsfAssignments.RobustIO

/-!
# Messages and connections

Definitions of `message.h` and `connection.cpp`. A string is the list of its characters.
-/

namespace CsfAssignments.Chat
open RobustIO

structure Message where
  tag : List Char
  data : List Char
  deriving DecidableEq, Repr

/-- An encoded message may have at most this many characters, with its newline. -/
def maxLen : ℕ := 255

def tagErr : List Char := "err".toList
def tagOk : List Char := "ok".toList
def tagSlogin : List Char := "slogin".toList
def tagRlogin : List Char := "rlogin".toList
def tagJoin : List Char := "join".toList
def tagLeave : List Char := "leave".toList
def tagSendall : List Char := "sendall".toList
def tagSenduser : List Char := "senduser".toList
def tagQuit : List Char := "quit".toList
def tagDelivery : List Char := "delivery".toList
def tagEmpty : List Char := "empty".toList

/-- The tags `receive` accepts, in the order of its comparisons. -/
def knownTags : List (List Char) :=
  [tagErr, tagOk, tagSlogin, tagRlogin, tagJoin, tagLeave, tagSendall, tagSenduser, tagQuit,
    tagDelivery, tagEmpty]

/-- `std::string::npos`. -/
def npos : ℕ := 2 ^ 64 - 1

/-- `std::string::find` of a character. -/
def find (s : List Char) (c : Char) : ℕ := (s.findIdx? (fun d => d = c)).getD npos

/-- `std::string::substr` from a position within the string. -/
def substr (s : List Char) (pos n : ℕ) : List Char := (s.drop pos).take n

/-- The characters of a C string before its terminator. -/
def cString (s : List Char) : List Char := s.takeWhile (fun c => c ≠ Char.ofNat 0)

inductive Result
  | success
  | eofOrError
  | invalidMsg
  deriving DecidableEq, Repr

theorem Result.eq_success {result : Result} (hresult : result ≠ .eofOrError)
    (hinvalid : result ≠ .invalidMsg) : result = .success := by
  cases result with
  | success => rfl
  | eofOrError => exact absurd rfl hresult
  | invalidMsg => exact absurd rfl hinvalid

/-- A connection, with the two directions of its descriptor. -/
structure Connection where
  fdbuf : Rio
  out : Writer
  lastResult : Result
  deriving DecidableEq, Repr

/-- The characters `send` writes. -/
def encode (msg : Message) : List Char := cString (msg.tag ++ ':' :: msg.data ++ ['\n'])

/-- Returns whether everything was written. -/
def Connection.send (conn : Connection) (msg : Message) : Bool × Connection :=
  match rioWriten conn.out (encode msg) with
  | (true, out) => (true, { conn with out := out, lastResult := .success })
  | (false, out) => (false, { conn with out := out, lastResult := .eofOrError })

/-- The message `receive` makes of a line: `find` gives `npos` on a line without a colon, and
`npos + 1` is 0. -/
def parse (message : List Char) : Message where
  tag := substr message 0 (find message ':')
  data := substr message ((find message ':' + 1) % 2 ^ 64) npos

/-- `msg` is both passed in and returned; at the end of the file or after an error only its
tag changes. -/
def Connection.receive (conn : Connection) (msg : Message) : Bool × Message × Connection :=
  match rioReadlineb conn.fdbuf maxLen with
  | (none, fdbuf) =>
      (false, { msg with tag := tagEmpty }, { conn with fdbuf := fdbuf, lastResult := .eofOrError })
  | (some [], fdbuf) =>
      (false, { msg with tag := tagEmpty }, { conn with fdbuf := fdbuf, lastResult := .eofOrError })
  | (some line, fdbuf) =>
      let msg := parse (cString line)
      if msg.tag ∈ knownTags then (true, msg, { conn with fdbuf := fdbuf, lastResult := .success })
      else (false, msg, { conn with fdbuf := fdbuf, lastResult := .invalidMsg })

theorem find_of_notMem {s : List Char} {c : Char} (hc : c ∉ s) : find s c = npos := by
  rw [find, List.findIdx?_eq_none_iff.mpr fun d hd => by simpa using ne_of_mem_of_not_mem hd hc]
  rfl

theorem find_append {s : List Char} {c : Char} (hc : c ∉ s) (t : List Char) :
    find (s ++ c :: t) c = s.length := by
  have hnone : s.findIdx? (fun d => d = c) = none :=
    List.findIdx?_eq_none_iff.mpr fun d hd => by simpa using ne_of_mem_of_not_mem hd hc
  rw [find, List.findIdx?_append, hnone]
  simp [List.findIdx?_cons]

@[simp] theorem substr_left (s t : List Char) : substr (s ++ t) 0 s.length = s := by
  simp [substr]

/-- What is behind a character, when `npos` is long enough. -/
theorem substr_behind (s : List Char) (c : Char) {t : List Char} (ht : t.length ≤ npos) :
    substr (s ++ c :: t) (s.length + 1) npos = t := by
  have hdrop : (s ++ c :: t).drop (s.length + 1) = t := by
    rw [← List.drop_drop, List.drop_left]
    rfl
  rw [substr, hdrop, List.take_of_length_le ht]

/-- The part of a line before its first colon is the tag and the part behind it the data; a
line without a colon is both. -/
theorem parse_colon {tag : List Char} (htag : ':' ∉ tag) (data : List Char)
    (hlen : tag.length + data.length + 1 < npos) : parse (tag ++ ':' :: data) = ⟨tag, data⟩ := by
  have hmod : (tag.length + 1) % 2 ^ 64 = tag.length + 1 :=
    Nat.mod_eq_of_lt (by rw [npos] at hlen; omega)
  rw [parse, find_append htag, hmod, substr_left, substr_behind _ _ (by omega)]

theorem cString_eq {s : List Char} (hs : Char.ofNat 0 ∉ s) : cString s = s :=
  List.takeWhile_eq_self_iff.mpr fun c hc => by
    simpa using ne_of_mem_of_not_mem hc hs

/-- What `receive` makes of the bytes that `rio_readlineb` has read. -/
theorem Connection.receive_read {conn : Connection} {line : List Char} {fdbuf : Rio}
    (hread : rioReadlineb conn.fdbuf maxLen = (some line, fdbuf)) (hline : line ≠ [])
    (m : Message) :
    conn.receive m = (decide ((parse (cString line)).tag ∈ knownTags), parse (cString line),
      { conn with
        fdbuf := fdbuf
        lastResult := if (parse (cString line)).tag ∈ knownTags then .success
          else .invalidMsg }) := by
  rw [Connection.receive, hread]
  cases line with
  | nil => exact absurd rfl hline
  | cons c line =>
    dsimp only
    split_ifs with hknown
    · rw [decide_eq_true hknown]
    · rw [decide_eq_false hknown]

/-- A line that ends within the buffer is received with its newline. -/
theorem Connection.receive_line {conn : Connection} {t u : List Char} (ht : '\n' ∉ t)
    (hnul : Char.ofNat 0 ∉ t) (hlen : t.length + 2 ≤ maxLen)
    (h : conn.fdbuf.stream = t ++ '\n' :: u) (m : Message) :
    ∃ fdbuf, fdbuf.stream = u ∧
      conn.receive m = (decide ((parse (t ++ ['\n'])).tag ∈ knownTags), parse (t ++ ['\n']),
        { conn with
          fdbuf := fdbuf
          lastResult := if (parse (t ++ ['\n'])).tag ∈ knownTags then .success
            else .invalidMsg }) := by
  obtain ⟨fdbuf, hread, hrest⟩ := rioReadlineb_line ht maxLen (by decide) hlen h
  have hline : Char.ofNat 0 ∉ t ++ ['\n'] := by
    rw [List.mem_append, not_or]
    exact ⟨hnul, by decide⟩
  refine ⟨fdbuf, hrest, ?_⟩
  rw [conn.receive_read hread (by simp) m, cString_eq hline]

/-- A longer line is cut, and what is behind the cut stays in the stream. -/
theorem Connection.receive_cut {conn : Connection} {t u : List Char} (ht : '\n' ∉ t)
    (hnul : Char.ofNat 0 ∉ t) (hlen : t.length + 1 = maxLen) (h : conn.fdbuf.stream = t ++ u)
    (m : Message) :
    ∃ fdbuf, fdbuf.stream = u ∧
      conn.receive m = (decide ((parse t).tag ∈ knownTags), parse t,
        { conn with
          fdbuf := fdbuf
          lastResult := if (parse t).tag ∈ knownTags then .success else .invalidMsg }) := by
  obtain ⟨fdbuf, hread, hrest⟩ := rioReadlineb_cut ht maxLen (by decide) hlen h
  have hne : t ≠ [] := by
    rintro rfl
    cases hlen
  refine ⟨fdbuf, hrest, ?_⟩
  rw [conn.receive_read hread hne m, cString_eq hnul]

end CsfAssignments.Chat
