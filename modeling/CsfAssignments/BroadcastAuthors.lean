import CsfAssignments.ReceiverHistory
import CsfAssignments.SenderHistory
import Mathlib.Data.List.TakeDrop

/-!
# Authors of broadcasts

Where the strings of a broadcast come from. The requests of a worker are the lines that its
connection has read, the username is the payload of the first one, and the text that of a later
one. None of them contains a newline before its end or a terminator.
-/

namespace CsfAssignments.Chat
open RobustIO

/-- A string read from a line: it ends before the terminator, has a newline at most at its end and
fits the buffer. -/
structure LineText (s : List Char) : Prop where
  nul_notMem : Char.ofNat 0 ∉ s
  newline_last : '\n' ∉ s.dropLast
  length_lt : s.length < maxLen

theorem LineText.drop {s : List Char} (hs : LineText s) (n : ℕ) : LineText (s.drop n) where
  nul_notMem := fun h => hs.nul_notMem (List.mem_of_mem_drop h)
  newline_last := by
    rw [List.dropLast_drop_eq_drop_dropLast]
    exact fun h => hs.newline_last (List.mem_of_mem_drop h)
  length_lt := lt_of_le_of_lt (by simp) hs.length_lt

private theorem dropLast_subset_of_isPrefix {s t : List Char} (ht : t <+: s) :
    t.dropLast ⊆ s.dropLast := by
  obtain ⟨u, rfl⟩ := ht
  cases u with
  | nil => rw [List.append_nil]; exact List.Subset.refl _
  | cons c u =>
    rw [List.dropLast_append_cons]
    exact fun d hd => List.mem_append_left _ (List.dropLast_subset t hd)

theorem LineText.of_isPrefix {s t : List Char} (hs : LineText s) (ht : t <+: s) : LineText t where
  nul_notMem := fun h => hs.nul_notMem (ht.subset h)
  newline_last := fun h => hs.newline_last (dropLast_subset_of_isPrefix ht h)
  length_lt := lt_of_le_of_lt ht.length_le hs.length_lt

/-- The trimmed string has no newline. -/
theorem LineText.rightTrim {s : List Char} (hs : LineText s) : '\n' ∉ rightTrim s := by
  intro h
  have hne : Chat.rightTrim s ≠ [] := List.ne_nil_of_mem h
  have hlast : ¬decide ((Chat.rightTrim s).getLast hne ∈ trimmed) = true :=
    List.rdropWhile_last_not _ s hne
  have htrimmed : LineText (Chat.rightTrim s) := hs.of_isPrefix (List.rdropWhile_prefix _ s)
  rw [← List.dropLast_append_getLast hne, List.mem_append, List.mem_singleton] at h
  rcases h with h | h
  · exact htrimmed.newline_last h
  · rw [← h] at hlast
    exact hlast (by decide)

/-- What `receive` gives has been read from a line. -/
theorem Connection.receive_lineText {conn conn' : Connection} {received : Bool} {msg : Message}
    (h : conn.receive ⟨[], []⟩ = (received, msg, conn')) : LineText msg.data := by
  have hempty : LineText [] := ⟨List.not_mem_nil, List.not_mem_nil, by decide⟩
  have hline {line : List Char} {fdbuf : Rio}
      (hread : rioReadlineb conn.fdbuf maxLen = (some line, fdbuf)) :
      LineText (parse (cString line)).data := by
    obtain ⟨hnewline, hlen⟩ := rioReadlineb_dropLast (by decide) hread
    have hprefix : cString line <+: line := List.takeWhile_prefix _
    have hmessage : LineText (cString line) := by
      refine ⟨fun h => ?_, fun h => hnewline ?_, ?_⟩
      · simpa using List.mem_takeWhile_imp h
      · exact dropLast_subset_of_isPrefix hprefix h
      · exact lt_of_le_of_lt hprefix.length_le (lt_of_le_of_lt hlen (by decide))
    exact (hmessage.drop _).of_isPrefix (List.take_prefix _ _)
  rw [Connection.receive] at h
  split at h
  · cases h
    exact hempty
  · cases h
    exact hempty
  · next hread =>
    dsimp only at h
    split_ifs at h <;> (cases h; exact hline hread)

/-- A username made of a login line. -/
def Named (h : List Event) (username : List Char) : Prop :=
  ∃ loginMes, (requests h).head? = some loginMes ∧ username = rightTrim loginMes.data ∧
    ∀ c ∈ username, c ∈ alphabet

/-- The text is that of a `sendall`. -/
def Texted (h : List Event) (text : List Char) : Prop :=
  ∃ textMes ∈ requests h, textMes.tag = tagSendall ∧ text = rightTrim textMes.data

/-- The username of the session that a login may lead to. -/
def Login.username : Login → Option (List Char)
  | .reply _ next => next.username
  | .throw => none
  | .sender username | .receiver username => some username

def Caller.username : Caller → Option (List Char)
  | .sender username => some username
  | .receiver => none

/-- The username of a sender at its program point. -/
def Point.username : Point → Option (List Char)
  | .handshake _ next => next.username
  | .senderLoop username _ | .senderReply _ username _ => some username
  | .findAcquire caller _ | .findBody caller _ | .findRelease caller _ => caller.username
  | .broadcastAcquire b | .broadcasting b _ | .enqueueAcquire b _ _ | .enqueuePush b _ _
  | .enqueuePost b _ _ | .enqueueRelease b _ _ | .broadcastRelease b => some b.username
  | _ => none

/-- A short string in which nothing else is found has only these characters. -/
theorem mem_of_findFirstNotOf {s chars : List Char} (hlen : s.length ≤ npos)
    (h : findFirstNotOf s chars = npos) : ∀ c ∈ s, c ∈ chars := by
  rw [findFirstNotOf] at h
  cases hfound : s.findIdx? (fun c => c ∉ chars) with
  | none => simpa using List.findIdx?_eq_none_iff.mp hfound
  | some i =>
    rw [hfound, Option.getD_some] at h
    have hlt : i < s.length := (List.findIdx?_eq_some_iff_getElem.mp hfound).1
    omega

/-- The username is the payload of the login line, and the alphabet has all of it. -/
theorem username_login {result : Result} {loginMes : Message} {username : List Char}
    (hdata : loginMes.data.length < maxLen)
    (h : (login result loginMes).username = some username) :
    username = rightTrim loginMes.data ∧ ∀ c ∈ username, c ∈ alphabet := by
  have hchoose (h : (chooseSession loginMes).username = some username) :
      username = rightTrim loginMes.data := by
    unfold chooseSession at h
    split_ifs at h <;> cases h <;> rfl
  have hcheck (h : (checkLogin loginMes).username = some username) :
      username = rightTrim loginMes.data ∧ ∀ c ∈ username, c ∈ alphabet := by
    unfold checkLogin at h
    by_cases hnewline : ¬hasNewline loginMes.data
    · rw [if_pos hnewline] at h
      cases h
    rw [if_neg hnewline] at h
    by_cases hname : loginMes.data.length ≤ 1 ∨
        findFirstNotOf (rightTrim loginMes.data) alphabet ≠ npos
    · rw [if_pos hname] at h
      cases h
    · rw [if_neg hname] at h
      obtain rfl := hchoose h
      have hall : findFirstNotOf (rightTrim loginMes.data) alphabet = npos :=
        not_not.mp fun hne => hname (.inr hne)
      have hlen : (rightTrim loginMes.data).length ≤ loginMes.data.length :=
        (List.rdropWhile_prefix _ _).length_le
      have hlimit : maxLen ≤ npos := by decide
      exact ⟨rfl, mem_of_findFirstNotOf (by omega) hall⟩
  unfold login at h
  split_ifs at h
  · exact hcheck h
  · exact hcheck h

theorem username_point {next : Login} {username : List Char}
    (h : next.point.username = some username) : next.username = some username := by
  cases next <;> first | exact h | cases h

theorem username_senderRequest {username username' : List Char} {current : Option RoomId}
    {result : Result} {msg : Message}
    (h : (senderRequest username current result msg).username = some username') :
    username = username' := by
  unfold senderRequest at h
  cases current with
  | none =>
    dsimp only at h
    split_ifs at h <;> first | exact Option.some.inj h | cases h
  | some r =>
    dsimp only at h
    split_ifs at h <;> first | exact Option.some.inj h | cases h

@[simp] theorem username_receiverRequest (result : Result) (msg : Message) :
    (receiverRequest result msg).username = none := by
  unfold receiverRequest
  split_ifs <;> rfl

/-- A sender keeps the username of its login. -/
theorem Move.username {w : Worker} {s t : Server} {p next : Point} {es : List Event}
    {username : List Char} (h : Move w s (code w p) es t next)
    (hnext : next.username = some username) : p.username = some username ∨ p = .login := by
  cases p with
  | login => exact .inr rfl
  | senderLoop username' current =>
    rw [code] at h
    cases h
    exact .inl (congrArg some (username_senderRequest hnext))
  | dequeueWait r =>
    rw [code] at h
    cases h with
    | semWait _ => cases hnext
    | timeout =>
      dsimp only at hnext
      split_ifs at hnext <;> cases hnext
  | handshake msg loginNext =>
    rw [code] at h
    cases h with
    | sent _ =>
      exact .inl (username_point hnext)
    | notSent _ => cases hnext
  | findRelease caller r =>
    rw [code] at h
    cases h
    cases caller <;> exact .inl hnext
  | receiverJoin =>
    rw [code] at h
    cases h
    rw [username_receiverRequest] at hnext
    cases hnext
  | _ =>
    rw [code] at h
    cases h <;> first | exact .inl hnext | cases hnext

/-- A call of `broadcast_message` follows a `sendall`. -/
theorem call_senderRequest {username : List Char} {current : Option RoomId} {result : Result}
    {msg : Message} {b : Broadcast}
    (h : (senderRequest username current result msg).call = some b) :
    msg.tag = tagSendall ∧ b.text = rightTrim msg.data := by
  unfold senderRequest at h
  cases current with
  | none =>
    dsimp only at h
    split_ifs at h <;> cases h
  | some r =>
    dsimp only at h
    split_ifs at h <;> first | cases h; exact ⟨by assumption, rfl⟩ | cases h

theorem call_point (next : Login) : next.point.call = none := by
  cases next <;> rfl

theorem call_receiverRequest (result : Result) (msg : Message) :
    (receiverRequest result msg).call = none := by
  unfold receiverRequest
  split_ifs <;> rfl

/-- Only a `sendall` leads to a call. -/
theorem Move.call {w : Worker} {s t : Server} {p next : Point} {es : List Event} {b : Broadcast}
    (h : Move w s (code w p) es t next) (hnext : next.call = some b) :
    ∃ result msg, es = [.received w result msg] ∧ msg.tag = tagSendall ∧
      b.text = rightTrim msg.data := by
  cases p with
  | login =>
    rw [code] at h
    cases h
    dsimp only at hnext
    split_ifs at hnext
    · cases hnext
    · rw [call_point] at hnext
      cases hnext
  | senderLoop username current =>
    rw [code] at h
    cases h
    exact ⟨_, _, rfl, call_senderRequest hnext⟩
  | dequeueWait r =>
    rw [code] at h
    cases h with
    | semWait _ => cases hnext
    | timeout =>
      dsimp only at hnext
      split_ifs at hnext <;> cases hnext
  | handshake msg loginNext =>
    rw [code] at h
    cases h with
    | sent _ =>
      rw [call_point] at hnext
      cases hnext
    | notSent _ => cases hnext
  | findRelease caller r =>
    rw [code] at h
    cases h
    cases caller <;> cases hnext
  | receiverJoin =>
    rw [code] at h
    cases h
    rw [call_receiverRequest] at hnext
    cases hnext
  | _ =>
    rw [code] at h
    cases h <;> cases hnext

/-- What a move hears has been read from a line. -/
theorem Move.lineText {w : Worker} {s t : Server} {op : Operation} {es : List Event}
    {next : Point} {msg : Message} (h : Move w s op es t next) (hmsg : msg ∈ requests (own w es)) :
    LineText msg.data := by
  obtain ⟨e, he, hrequest⟩ := List.mem_filterMap.mp hmsg
  have he : e ∈ es := List.mem_of_mem_filter he
  cases h with
  | receive hreceive =>
    obtain rfl := List.mem_singleton.mp he
    cases hrequest
    exact Connection.receive_lineText hreceive
  | _ =>
    first
      | exact absurd he List.not_mem_nil
      | (obtain rfl := List.mem_singleton.mp he; cases hrequest)

/-- A broadcast takes the lock of its room at the beginning of the call. -/
theorem Move.call_of_broadcasts {w : Worker} {s t : Server} {p next : Point} {es : List Event}
    {b : Broadcast} (h : Move w s (code w p) es t next) (hb : b ∈ broadcasts (own w es)) :
    p.call = some b := by
  obtain ⟨e, he, hbroadcast⟩ := List.mem_filterMap.mp hb
  have he : e ∈ es := List.mem_of_mem_filter he
  cases e with
  | locked v b' msg =>
    cases hbroadcast
    exact (h.locked he).1
  | _ => cases hbroadcast

section Spoken
variable {h es : List Event}

theorem Named.append {username : List Char} (hnamed : Named h username) (es : List Event) :
    Named (h ++ es) username := by
  obtain ⟨loginMes, hfirst, hname⟩ := hnamed
  refine ⟨loginMes, ?_, hname⟩
  rw [requests_append, List.head?_append, hfirst, Option.some_or]

theorem Texted.append {text : List Char} (htexted : Texted h text) (es : List Event) :
    Texted (h ++ es) text := by
  obtain ⟨textMes, hin, htext⟩ := htexted
  refine ⟨textMes, ?_, htext⟩
  rw [requests_append]
  exact List.mem_append_left _ hin

/-- The requests of a worker, its username and its texts at a program point. -/
structure Spoken (h : List Event) (p : Point) : Prop where
  lines : ∀ msg ∈ requests h, LineText msg.data
  named : ∀ username, p.username = some username → Named h username
  texted : ∀ b, p.call = some b → Texted h b.text
  authored : ∀ b ∈ broadcasts h, Named h b.username ∧ Texted h b.text

theorem username_of_call {p : Point} {b : Broadcast} (h : p.call = some b) :
    p.username = some b.username := by
  cases p <;> first | cases h; rfl | cases h

theorem Spoken.step {w : Worker} {s t : Server} {p next : Point} (hspoken : Spoken h p)
    (hunheard : p = .login → requests h = []) (hmove : Move w s (code w p) es t next) :
    Spoken (h ++ own w es) next := by
  refine ⟨?_, ?_, ?_, ?_⟩
  · intro msg hmsg
    rw [requests_append, List.mem_append] at hmsg
    rcases hmsg with hmsg | hmsg
    · exact hspoken.lines msg hmsg
    · exact hmove.lineText hmsg
  · intro username hnext
    rcases hmove.username hnext with hbefore | rfl
    · exact (hspoken.named username hbefore).append _
    · rw [code] at hmove
      cases hmove with
      | @receive _ _ msg conn hreceive =>
        dsimp only at hnext
        split_ifs at hnext
        · cases hnext
        · have hline : LineText msg.data := Connection.receive_lineText hreceive
          obtain ⟨hname, hchars⟩ := username_login hline.length_lt (username_point hnext)
          refine ⟨msg, ?_, hname, hchars⟩
          rw [own_of_worker rfl, requests_append, hunheard rfl]
          rfl
  · intro b hnext
    obtain ⟨result, msg, rfl, htag, htext⟩ := hmove.call hnext
    refine ⟨msg, ?_, htag, htext⟩
    rw [own_of_worker rfl, requests_append]
    exact List.mem_append_right _ (List.mem_singleton_self msg)
  · intro b hb
    rw [broadcasts_append, List.mem_append] at hb
    rcases hb with hb | hb
    · obtain ⟨hname, htext⟩ := hspoken.authored b hb
      exact ⟨hname.append _, htext.append _⟩
    · have hcall := hmove.call_of_broadcasts hb
      exact ⟨(hspoken.named _ (username_of_call hcall)).append _,
        (hspoken.texted b hcall).append _⟩

end Spoken

theorem Run.spoken {conn : Worker → Connection} {events : List Event} {s : Server}
    (hrun : Run conn events s) (w : Worker) : Spoken (own w events) (s.point w) := by
  have htold : ReceiverTold s (own w events) (s.point w) ∧ Spoken (own w events) (s.point w) :=
    hrun.told (P := fun s h p => ReceiverTold s h p ∧ Spoken h p)
      (fun _ => ⟨⟨⟨rfl, rfl⟩, rfl⟩, by simp [requests], by simp [Point.username],
        by simp [Point.call], by simp [broadcasts]⟩)
      (fun htold hlookup => ⟨htold.1.mono hlookup, htold.2⟩)
      (fun htold hmove => ⟨htold.1.step hmove, htold.2.step (fun hp => (hp ▸ htold.1).2) hmove⟩) w
  exact htold.2

end CsfAssignments.Chat
