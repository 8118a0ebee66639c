import CsfAssignments.RobustIO

/-!
# Reads and writes of streams

What the functions of the robust I/O package do to a stream when no system call fails, however the
stream is cut into reads and writes and however often they are interrupted.
-/

namespace CsfAssignments.RobustIO
open CIntegers

section Reading

/-- The stream ends where the results do. -/
def Unbroken (incoming : List ReadResult) : Prop :=
  ∀ result ∈ incoming, result ≠ .failed ∧ result ≠ .data []

/-- What `rio_readlineb` takes off a stream in so many rounds, and what it leaves. -/
def takeLine : ℕ → List Char → List Char × List Char
  | 0, stream => ([], stream)
  | _ + 1, [] => ([], [])
  | rounds + 1, c :: stream =>
      if c = '\n' then ([c], stream)
      else (c :: (takeLine rounds stream).1, (takeLine rounds stream).2)

variable {rp rp' : Rio}

theorem refill_unbroken {incoming : List ReadResult} (h : Unbroken incoming) :
    ∃ rp, refill 1 incoming = (some ((arriving incoming).take 1), rp) ∧
      rp.stream = (arriving incoming).drop 1 ∧ Unbroken rp.incoming := by
  induction incoming with
  | nil => exact ⟨⟨[], []⟩, rfl, rfl, h⟩
  | cons result incoming ih =>
    obtain ⟨⟨hfailed, hend⟩, hrest⟩ := List.forall_mem_cons.mp h
    cases result with
    | interrupted => exact ih hrest
    | failed => exact absurd rfl hfailed
    | data bytes =>
      have hbytes : bytes ≠ [] := by
        rintro rfl
        exact hend rfl
      obtain ⟨c, bytes, rfl⟩ := List.exists_cons_of_ne_nil hbytes
      exact ⟨⟨bytes, incoming⟩, rfl, rfl, hrest⟩

/-- A read of one byte takes it off the stream. -/
theorem rioRead_unbroken (h : Unbroken rp.incoming) :
    ∃ rp', rioRead rp 1 = (some (rp.stream.take 1), rp') ∧ rp'.stream = rp.stream.drop 1 ∧
      Unbroken rp'.incoming := by
  obtain ⟨unread, incoming⟩ := rp
  cases unread with
  | nil => exact refill_unbroken h
  | cons c unread => exact ⟨⟨unread, incoming⟩, rfl, rfl, h⟩

theorem readLoop_unbroken (rounds : ℕ) (h : Unbroken rp.incoming) (usrbuf : List Char) :
    ∃ rp', readLoop rounds rp usrbuf = (some (usrbuf ++ (takeLine rounds rp.stream).1), rp') ∧
      rp'.stream = (takeLine rounds rp.stream).2 ∧ Unbroken rp'.incoming := by
  induction rounds generalizing rp usrbuf with
  | zero => exact ⟨rp, by rw [takeLine, List.append_nil, readLoop], rfl, h⟩
  | succ rounds ih =>
    obtain ⟨rp₁, hread, hstream, hunbroken⟩ := rioRead_unbroken h
    rw [readLoop, hread]
    cases hbytes : rp.stream with
    | nil =>
      rw [hbytes] at hstream
      exact ⟨rp₁, by rw [takeLine, List.append_nil]; rfl, hstream, hunbroken⟩
    | cons c bytes =>
      rw [hbytes] at hstream
      have hstream : rp₁.stream = bytes := hstream
      rw [takeLine, List.take_succ_cons, List.take_zero]
      dsimp only
      split_ifs with hc
      · exact ⟨rp₁, rfl, hstream, hunbroken⟩
      · obtain ⟨rp', hloop, hrest, hunbroken'⟩ := ih hunbroken (usrbuf ++ [c])
        rw [hstream] at hloop hrest
        exact ⟨rp', by rw [hloop, List.append_assoc, List.singleton_append], hrest, hunbroken'⟩


/-- A line is taken off the stream, however the stream is cut. -/
theorem rioReadlineb_unbroken {maxlen rounds : ℕ} (hrounds : (toInt maxlen - 1).toNat = rounds)
    (h : Unbroken rp.incoming) :
    ∃ rp', rioReadlineb rp maxlen = (some (takeLine rounds rp.stream).1, rp') ∧
      rp'.stream = (takeLine rounds rp.stream).2 ∧ Unbroken rp'.incoming := by
  rw [rioReadlineb, hrounds]
  exact readLoop_unbroken rounds h []

end Reading

section Writing

theorem writeLoop_unfailing {outgoing : List WriteResult} (h : .failed ∉ outgoing)
    (sent bytes : List Char) :
    ∃ w, writeLoop sent outgoing bytes = (true, w) ∧ w.sent = sent ++ bytes ∧
      .failed ∉ w.outgoing := by
  fun_induction writeLoop sent outgoing bytes with
  | case1 sent outgoing => exact ⟨_, rfl, (List.append_nil _).symm, h⟩
  | case2 sent bytes => exact ⟨_, rfl, rfl, h⟩
  | case3 sent outgoing bytes _ ih => exact ih fun hmem => h (List.mem_cons_of_mem _ hmem)
  | case4 sent outgoing bytes => exact absurd List.mem_cons_self h
  | case5 sent left outgoing c bytes written ih =>
    obtain ⟨w, hloop, hsent, hrest⟩ := ih fun hmem => h (List.mem_cons_of_mem _ hmem)
    exact ⟨w, hloop, by rw [hsent]; simp [written], hrest⟩

/-- Everything is written, however the writes are cut. -/
theorem rioWriten_unfailing {w : Writer} (h : .failed ∉ w.outgoing) (bytes : List Char) :
    ∃ w', rioWriten w bytes = (true, w') ∧ w'.sent = w.sent ++ bytes ∧ .failed ∉ w'.outgoing :=
  writeLoop_unfailing h w.sent bytes

end Writing

end CsfAssignments.RobustIO
