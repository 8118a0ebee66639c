import CsfAssignments.CIntegers
import Mathlib.Data.List.TakeWhile

/-!
# Buffered reading and complete writing on a descriptor

The functions of the robust I/O package that the chat programs use. A descriptor is given
by the results of the system calls still to come, so that every way of cutting a stream into
reads and writes is covered.
-/

namespace CsfAssignments.RobustIO
open CIntegers

/-- A result of `read`; no bytes are the end of the file. -/
inductive ReadResult
  | data (bytes : List Char)
  | interrupted
  | failed
  deriving DecidableEq, Repr

/-- A result of `write`: all bytes but `left` of those passed to it, at least one. -/
inductive WriteResult
  | accepted (left : ℕ)
  | interrupted
  | failed
  deriving DecidableEq, Repr

/-- `rio_t`, with the unread part of its buffer. When no result is left, `read` finds the end
of the file. -/
structure Rio where
  unread : List Char
  incoming : List ReadResult
  deriving DecidableEq, Repr

/-- The loop that refills the empty buffer, and the copy from it. `none` is the result -1. -/
def refill (n : ℕ) : List ReadResult → Option (List Char) × Rio
  | [] => (some [], ⟨[], []⟩)
  | .interrupted :: incoming => refill n incoming
  | .failed :: incoming => (none, ⟨[], incoming⟩)
  | .data bytes :: incoming => (some (bytes.take n), ⟨bytes.drop n, incoming⟩)

def rioRead (rp : Rio) (n : ℕ) : Option (List Char) × Rio :=
  match rp.unread with
  | [] => refill n rp.incoming
  | c :: unread => (some ((c :: unread).take n), ⟨(c :: unread).drop n, rp.incoming⟩)

/-- The rounds of the loop of `rio_readlineb`, with the bytes copied so far. -/
def readLoop : ℕ → Rio → List Char → Option (List Char) × Rio
  | 0, rp, usrbuf => (some usrbuf, rp)
  | rounds + 1, rp, usrbuf =>
      match rioRead rp 1 with
      | (none, rp) => (none, rp)
      | (some [], rp) => (some usrbuf, rp)
      | (some (c :: _), rp) =>
          if c = '\n' then (some (usrbuf ++ [c]), rp) else readLoop rounds rp (usrbuf ++ [c])

/-- The bytes put into the buffer before the terminator, whose number is returned. -/
def rioReadlineb (rp : Rio) (maxlen : ℕ) : Option (List Char) × Rio :=
  readLoop (toInt maxlen - 1).toNat rp []

/-- The writing end: the bytes the descriptor has accepted. -/
structure Writer where
  outgoing : List WriteResult
  sent : List Char
  deriving DecidableEq, Repr

/-- The loop of `rio_writen` over the results of `write`; when no result is left, `write`
accepts everything. -/
def writeLoop (sent : List Char) : List WriteResult → List Char → Bool × Writer
  | outgoing, [] => (true, ⟨outgoing, sent⟩)
  | [], bytes => (true, ⟨[], sent ++ bytes⟩)
  | .interrupted :: outgoing, bytes => writeLoop sent outgoing bytes
  | .failed :: outgoing, _ => (false, ⟨outgoing, sent⟩)
  | .accepted left :: outgoing, c :: bytes =>
      let written := c :: bytes.take (bytes.length - left)
      writeLoop (sent ++ written) outgoing (bytes.drop (bytes.length - left))

/-- Whether all bytes were written. -/
def rioWriten (w : Writer) (bytes : List Char) : Bool × Writer :=
  writeLoop w.sent w.outgoing bytes

/-- The bytes that arrive before the end of the file or a failure. -/
def arriving : List ReadResult → List Char
  | [] => []
  | .interrupted :: incoming => arriving incoming
  | .failed :: _ => []
  | .data [] :: _ => []
  | .data (c :: bytes) :: incoming => c :: bytes ++ arriving incoming

/-- The bytes still to be read. -/
def Rio.stream (rp : Rio) : List Char := rp.unread ++ arriving rp.incoming

private theorem refill_one {incoming : List ReadResult} {c : Char} {s : List Char}
    (h : arriving incoming = c :: s) :
    ∃ rp, refill 1 incoming = (some [c], rp) ∧ rp.stream = s := by
  induction incoming with
  | nil => simp [arriving] at h
  | cons result incoming ih =>
    cases result with
    | interrupted => exact ih h
    | failed => simp [arriving] at h
    | data bytes =>
      cases bytes with
      | nil => simp [arriving] at h
      | cons d bytes =>
        simp only [arriving, List.cons_append, List.cons.injEq] at h
        obtain ⟨rfl, rfl⟩ := h
        exact ⟨_, rfl, rfl⟩

/-- Reading one byte takes the first of the stream. -/
theorem rioRead_one {rp : Rio} {c : Char} {s : List Char} (h : rp.stream = c :: s) :
    ∃ rp', rioRead rp 1 = (some [c], rp') ∧ rp'.stream = s := by
  obtain ⟨unread, incoming⟩ := rp
  cases unread with
  | nil => exact refill_one h
  | cons d unread =>
    simp only [Rio.stream, List.cons_append, List.cons.injEq] at h
    obtain ⟨rfl, rfl⟩ := h
    exact ⟨_, rfl, rfl⟩

/-- Bytes without a newline are copied until the rounds end. -/
theorem readLoop_full {t u : List Char} (ht : '\n' ∉ t) (rounds : ℕ) {rp : Rio}
    (h : rp.stream = t ++ u) (usrbuf : List Char) :
    ∃ rp', readLoop (t.length + rounds) rp usrbuf = readLoop rounds rp' (usrbuf ++ t) ∧
      rp'.stream = u := by
  induction t generalizing rp usrbuf with
  | nil => exact ⟨rp, by simp, h⟩
  | cons c t ih =>
    rw [List.mem_cons, not_or] at ht
    obtain ⟨rp', hread, hstream⟩ := rioRead_one h
    obtain ⟨rp'', hloop, hrest⟩ := ih ht.2 hstream (usrbuf ++ [c])
    refine ⟨rp'', ?_, hrest⟩
    rw [List.length_cons, Nat.succ_add, readLoop, hread]
    simp only [if_neg (Ne.symm ht.1)]
    rw [hloop, List.append_assoc, List.singleton_append]

/-- A line that ends within the buffer is read with its newline. -/
theorem rioReadlineb_line {t u : List Char} (ht : '\n' ∉ t) (maxlen : ℕ) (hint : maxlen < 2 ^ 31)
    (hlen : t.length + 2 ≤ maxlen) {rp : Rio} (h : rp.stream = t ++ '\n' :: u) :
    ∃ rp', rioReadlineb rp maxlen = (some (t ++ ['\n']), rp') ∧ rp'.stream = u := by
  obtain ⟨rp', hloop, hstream⟩ := readLoop_full ht (maxlen - 2 - t.length + 1) h []
  obtain ⟨rp'', hread, hrest⟩ := rioRead_one hstream
  refine ⟨rp'', ?_, hrest⟩
  have hrounds : (toInt maxlen - 1).toNat = t.length + (maxlen - 2 - t.length + 1) := by
    rw [toInt_natCast hint]
    omega
  rw [rioReadlineb, hrounds, hloop, readLoop, hread]
  simp

/-- A longer line is cut when the buffer is full. -/
theorem rioReadlineb_cut {t u : List Char} (ht : '\n' ∉ t) (maxlen : ℕ) (hint : maxlen < 2 ^ 31)
    (hlen : t.length + 1 = maxlen) {rp : Rio} (h : rp.stream = t ++ u) :
    ∃ rp', rioReadlineb rp maxlen = (some t, rp') ∧ rp'.stream = u := by
  obtain ⟨rp', hloop, hstream⟩ := readLoop_full ht 0 h []
  refine ⟨rp', ?_, hstream⟩
  have hrounds : (toInt maxlen - 1).toNat = t.length + 0 := by
    rw [toInt_natCast hint]
    omega
  rw [rioReadlineb, hrounds, hloop]
  rfl

/-- What is read has a newline at most at its end, and fits the buffer. -/
theorem readLoop_line {rounds : ℕ} {rp rp' : Rio} {usrbuf line : List Char}
    (hbuf : '\n' ∉ usrbuf) (h : readLoop rounds rp usrbuf = (some line, rp')) :
    '\n' ∉ line.dropLast ∧ line.length ≤ usrbuf.length + rounds := by
  induction rounds generalizing rp usrbuf with
  | zero =>
    cases h
    exact ⟨fun hin => hbuf ((List.dropLast_prefix _).subset hin), le_refl _⟩
  | succ rounds ih =>
    rw [readLoop] at h
    split at h
    · cases h
    · cases h
      exact ⟨fun hin => hbuf ((List.dropLast_prefix _).subset hin), by omega⟩
    · next c more rp₁ hread =>
      split_ifs at h with hc
      · cases h
        simp only [List.dropLast_concat, List.length_append, List.length_singleton]
        exact ⟨hbuf, by omega⟩
      · have hlonger : '\n' ∉ usrbuf ++ [c] := by simp [hbuf, Ne.symm hc]
        obtain ⟨hline, hlen⟩ := ih hlonger h
        rw [List.length_append, List.length_singleton] at hlen
        exact ⟨hline, by omega⟩

theorem rioReadlineb_dropLast {rp rp' : Rio} {maxlen : ℕ} {line : List Char}
    (hint : maxlen < 2 ^ 31) (h : rioReadlineb rp maxlen = (some line, rp')) :
    '\n' ∉ line.dropLast ∧ line.length ≤ maxlen - 1 := by
  obtain ⟨hline, hlen⟩ := readLoop_line List.not_mem_nil h
  rw [toInt_natCast hint, List.length_nil] at hlen
  exact ⟨hline, by omega⟩

/-- A successful write puts all its bytes behind those already sent. -/
theorem rioWriten_sent {w w' : Writer} {bytes : List Char} (h : rioWriten w bytes = (true, w')) :
    w'.sent = w.sent ++ bytes := by
  obtain ⟨outgoing, sent⟩ := w
  simp only [rioWriten] at h ⊢
  fun_induction writeLoop sent outgoing bytes with
  | case1 sent outgoing =>
    cases h
    simp
  | case2 sent bytes =>
    cases h
    rfl
  | case3 sent outgoing bytes _ ih => exact ih h
  | case4 => simp at h
  | case5 sent left outgoing c bytes written ih =>
    rw [ih h]
    simp [written]

end CsfAssignments.RobustIO
