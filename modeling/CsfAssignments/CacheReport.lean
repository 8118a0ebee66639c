import CsfAssignments.CacheCycles
import CsfAssignments.CacheTrace

/-!
# What the simulator reports

For an accepted command line the outcome of `csim` is determined by its input alone, whatever the
iteration order of the maps is: it reports the counters of the accesses on the complete lines,
unless one of them has no number for its address.
-/

namespace CsfAssignments.Csim
open CNumerals HexNumerals
open Limbs (isSpace skipSign)

section Outcomes
variable {argv : List String} {cfg : Config} {stdin : List Char} {as : List Access}
  (hargs : mainArguments argv = some (.ok cfg)) (hv : cfg.Sized)
  (hcharge : traceCharge cfg as.reverse < 2 ^ 31)

include hv in
/-- The counters of a run are those of its accesses. -/
theorem IntRun.output_eq {h : List (Access × Bool)} {c : Cache} {cycles : ℤ}
    (run : IntRun cfg h c cycles) :
    output { c with cycles := cycles } = output (tally cfg (h.map Prod.fst)) := by
  have hcycles : cycles = c.cycles := (run.cycles_eq hv).1.trans (run.run.cycles_eq hv).symm
  rw [hcycles, ← (run.run.simulates hv).counters]
  rfl

include hargs hv hcharge

theorem main_complete_iff (hloop : traceLoop stdin = (as, true)) (o : Outcome) :
    Main argv stdin o ↔ o = .finished (output (tally cfg as.reverse)) := by
  constructor
  · intro hmain
    cases hmain with
    | refused hargs' =>
      rw [hargs] at hargs'
      cases hargs'
    | terminated hargs' hloop' =>
      rw [hloop] at hloop'
      cases hloop'
    | finished hargs' hloop' run hh =>
      rw [hargs] at hargs'
      rw [hloop] at hloop'
      cases hargs'
      cases hloop'
      rw [run.output_eq hv, hh]
  · rintro rfl
    obtain ⟨h, c, hh, run⟩ := exists_intRun hv hcharge
    rw [← hh, ← run.output_eq hv]
    exact .finished hargs hloop run hh

theorem main_incomplete_iff (hloop : traceLoop stdin = (as, false)) (o : Outcome) :
    Main argv stdin o ↔ o = .terminated := by
  constructor
  · intro hmain
    cases hmain with
    | refused hargs' =>
      rw [hargs] at hargs'
      cases hargs'
    | terminated => rfl
    | finished hargs' hloop' =>
      rw [hloop] at hloop'
      cases hloop'
  · rintro rfl
    obtain ⟨h, c, hh, run⟩ := exists_intRun hv hcharge
    exact .terminated hargs hloop run hh

end Outcomes

section Lines
variable {stdin rest : List Char} {line : List Char × List Char}

/-- The letters and addresses of the complete lines of an input. -/
def lines (stdin : List Char) : List (List Char × List Char) :=
  match _h : readLine stdin with
  | none => []
  | some (line, rest) => line :: lines rest
termination_by stdin.length
decreasing_by exact readLine_length _h

theorem lines_of_none (h : readLine stdin = none) : lines stdin = [] := by
  rw [lines]
  split
  · rfl
  · rename_i h'
    rw [h] at h'
    cases h'

theorem lines_of_some (h : readLine stdin = some (line, rest)) :
    lines stdin = line :: lines rest := by
  rw [lines]
  split
  · rename_i h'
    rw [h] at h'
    cases h'
  · rename_i h'
    rw [h] at h'
    cases h'
    rfl

theorem countP_access (letter : List Char) (addressnum : BitVec 32) (as : List Access) :
    (access letter addressnum ++ as).countP (fun a => a.isStore = false) =
        (if letter = ['l'] then 1 else 0) + as.countP (fun a => a.isStore = false) ∧
      (access letter addressnum ++ as).countP (fun a => a.isStore = true) =
        (if letter = ['s'] then 1 else 0) + as.countP (fun a => a.isStore = true) := by
  unfold access
  split_ifs with hl hs hs
  · rw [hl] at hs
    cases hs
  · simp [Access.isStore, Nat.add_comm]
  · simp [Access.isStore, Nat.add_comm]
  · simp

/-- The loop ends without an exception if and only if the addresses of all complete lines are
numbers, and then it has made one access for each line with one of the two letters. -/
theorem traceLoop_lines (stdin : List Char) :
    ((traceLoop stdin).2 = true ↔ ∀ line ∈ lines stdin, stol line.2 ≠ none) ∧
      ((traceLoop stdin).2 = true →
        (traceLoop stdin).1.countP (fun a => a.isStore = false) =
            (lines stdin).countP (fun line => line.1 = ['l']) ∧
          (traceLoop stdin).1.countP (fun a => a.isStore = true) =
            (lines stdin).countP (fun line => line.1 = ['s'])) := by
  fun_induction traceLoop stdin with
  | case1 stdin h => simp [lines_of_none h]
  | case2 stdin line rest h hbad => simp [lines_of_some h, hbad]
  | case3 stdin line rest h n hn as complete hrest ih =>
    rw [hrest] at ih
    obtain ⟨hload, hstore⟩ := countP_access line.1 (BitVec.ofInt 32 n) as
    rw [lines_of_some h]
    refine ⟨?_, fun hcomplete => ?_⟩
    · rw [List.forall_mem_cons, ← ih.1]
      exact (and_iff_right (by simp [hn])).symm
    · obtain ⟨hloads, hstores⟩ := ih.2 hcomplete
      rw [hload, hstore, hloads, hstores, List.countP_cons, List.countP_cons]
      simp [Nat.add_comm]

end Lines

section Layout

/-- Only whitespace. -/
def Gap (s : List Char) : Prop := ∀ c ∈ s, isSpace c = true

/-- Whitespace that separates two words. -/
def Separator (s : List Char) : Prop := s ≠ [] ∧ Gap s

def Word (s : List Char) : Prop := s ≠ [] ∧ ∀ c ∈ s, isSpace c = false

/-- A word that is read as an address. -/
def Spells (word : List Char) (address : BitVec 32) : Prop :=
  Word word ∧ ∃ n, stol word = some n ∧ BitVec.ofInt 32 n = address

def letter : Access → Char
  | .load _ => 'l'
  | .store _ => 's'

/-- The texts of a trace: the three words of each access, laid out in any way. -/
inductive TraceText : List Char → List Access → Prop
  | done {gap} (hgap : Gap gap) : TraceText gap []
  | line {before gap₁ gap₂ address third rest as} (a : Access) (hbefore : Gap before)
      (hgap₁ : Separator gap₁) (haddress : Spells address a.address) (hgap₂ : Separator gap₂)
      (hthird : Word third) (hrest : ∀ c ∈ rest.head?, isSpace c = true)
      (htrace : TraceText rest as) :
      TraceText (before ++ ([letter a] ++ (gap₁ ++ (address ++ (gap₂ ++ (third ++ rest))))))
        (a :: as)

/-- A word is extracted behind whitespace. -/
theorem extract_word {gap word rest : List Char} (hgap : Gap gap) (hword : Word word)
    (hrest : ∀ c ∈ rest.head?, isSpace c = true) :
    extract (gap ++ (word ++ rest)) = some (word, rest) := by
  obtain ⟨hne, hall⟩ := hword
  have hin : ∀ c ∈ word, (!isSpace c) = true := fun c hc => by simp [hall c hc]
  have hstop : rest.takeWhile (fun c => !isSpace c) = [] ∧
      rest.dropWhile (fun c => !isSpace c) = rest := by
    cases rest with
    | nil => exact ⟨rfl, rfl⟩
    | cons c rest =>
      have hc := hrest c rfl
      simp [hc]
  have hskip : (gap ++ (word ++ rest)).dropWhile isSpace = word ++ rest := by
    rw [List.dropWhile_append_of_pos hgap]
    obtain ⟨c, word, rfl⟩ := List.exists_cons_of_ne_nil hne
    exact List.dropWhile_cons_of_neg (by simp [hall c List.mem_cons_self])
  have htake : (word ++ rest).takeWhile (fun c => !isSpace c) = word := by
    rw [List.takeWhile_append_of_pos hin, hstop.1, List.append_nil]
  have hdrop : (word ++ rest).dropWhile (fun c => !isSpace c) = rest := by
    rw [List.dropWhile_append_of_pos hin, hstop.2]
  simp only [extract, hskip, htake, hdrop]

theorem extract_gap {gap : List Char} (hgap : Gap gap) : extract gap = none := by
  have hskip : gap.dropWhile isSpace = [] := List.dropWhile_eq_nil_iff.mpr hgap
  simp only [extract, hskip, List.takeWhile_nil]

theorem head_of_separator {gap rest : List Char} (h : Separator gap) :
    ∀ c ∈ (gap ++ rest).head?, isSpace c = true := by
  obtain ⟨c, gap, rfl⟩ := List.exists_cons_of_ne_nil h.1
  intro c' hc
  exact Option.some.inj hc ▸ h.2 c List.mem_cons_self

theorem word_letter (a : Access) : Word [letter a] := by
  cases a <;> exact ⟨nofun, List.forall_mem_singleton.mpr rfl⟩

theorem access_letter (a : Access) : access [letter a] a.address = [a] := by
  cases a <;> rfl

/-- The loop reads a trace back from any of its texts. -/
theorem traceLoop_of_text {text : List Char} {as : List Access} (h : TraceText text as) :
    traceLoop text = (as, true) := by
  induction h with
  | done hgap =>
    rw [traceLoop]
    split
    · rfl
    · rename_i hline
      rw [readLine, extract_gap hgap] at hline
      cases hline
  | @line before gap₁ gap₂ address third rest as a hbefore hgap₁ haddress hgap₂ hthird hrest _ ih =>
    obtain ⟨hword, n, hn, heq⟩ := haddress
    have hread : readLine (before ++ ([letter a] ++ (gap₁ ++ (address ++ (gap₂ ++ (third ++ rest)))))) =
        some (([letter a], address), rest) := by
      rw [readLine, extract_word hbefore (word_letter a) (head_of_separator hgap₁)]
      simp only [Option.bind_eq_bind, Option.bind_some]
      rw [extract_word hgap₁.2 hword (head_of_separator hgap₂)]
      simp only [Option.bind_some]
      rw [extract_word hgap₂.2 hthird hrest]
      rfl
    rw [traceLoop]
    split
    · rename_i hline
      rw [hread] at hline
      cases hline
    · rename_i hline
      rw [hread] at hline
      cases hline
      simp only [hn, ih, heq, access_letter, List.singleton_append]

theorem word_hex {s : List Char} (hs : AllHex s) : Word ('0' :: 'x' :: s) := by
  refine ⟨nofun, fun c hc => ?_⟩
  rcases List.mem_cons.mp hc with rfl | hc
  · rfl
  rcases List.mem_cons.mp hc with rfl | hc
  · rfl
  · exact Limbs.not_isSpace_of_mem c (hs c hc)

/-- Hexadecimal digits in either case and with any leading zeros are read as their value. -/
theorem spells_hex {s : List Char} (hs : AllHex s) (hne : s ≠ []) (hvalue : value s < 2 ^ 63) :
    Spells ('0' :: 'x' :: s) (BitVec.ofNat 32 (value s)) := by
  refine ⟨word_hex hs, value s, ?_, BitVec.ofInt_natCast 32 (value s)⟩
  have hread : numeral 16 s = some (value s, []) :=
    numeral_of_all hne fun c hc => digit_lt c (hs c hc)
  have hradix : radix ('0' :: 'x' :: s) = (16, s) := by
    obtain ⟨d, s, rfl⟩ := List.exists_cons_of_ne_nil hne
    rw [radix, if_pos ⟨.inl rfl, hs d List.mem_cons_self⟩]
  have hrange : decide (-2 ^ 63 ≤ (value s : ℤ) ∧ (value s : ℤ) < 2 ^ 63) = true :=
    decide_eq_true ⟨by omega, by exact_mod_cast hvalue⟩
  simp only [stol, Limbs.skipSign_of_mem (by decide : '0' ∈ hexDigits), hradix, hread,
    Option.map_some, Bool.false_eq_true, if_false, Option.filter_some, hrange, if_true]

/-- A trace in the format of the traces of the repository. -/
def traceText (as : List Access) : List Char :=
  as.flatMap fun a => [letter a] ++ ([' '] ++ ('0' :: 'x' ::
    List.leftpad 8 '0' (Nat.toDigits 16 a.address.toNat) ++ ([' '] ++ (['1'] ++ ['\n']))))

theorem traceText_layout (as : List Access) {gap : List Char} (hgap : Gap gap) :
    TraceText (gap ++ traceText as) as := by
  induction as generalizing gap with
  | nil => exact .done (by rwa [traceText, List.flatMap_nil, List.append_nil])
  | cons a as ih =>
    have hspace : Separator [' '] := ⟨nofun, List.forall_mem_singleton.mpr rfl⟩
    have hhex : AllHex (List.leftpad 8 '0' (Nat.toDigits 16 a.address.toNat)) := by
      refine AllHex.append (fun c hc => ?_) (allHex_toDigits _)
      rw [List.eq_of_mem_replicate hc]
      decide
    have hvalue : value (List.leftpad 8 '0' (Nat.toDigits 16 a.address.toNat)) =
        a.address.toNat := by
      rw [List.leftpad, value_append, value_replicate_zero, value_toDigits]
      simp
    have hbound : value (List.leftpad 8 '0' (Nat.toDigits 16 a.address.toNat)) < 2 ^ 63 := by
      have hlt := a.address.isLt
      omega
    have haddress := spells_hex hhex (by simp [List.leftpad, Nat.toDigits_ne_nil]) hbound
    rw [hvalue, BitVec.ofNat_toNat, BitVec.setWidth_eq] at haddress
    have hthird : Word ['1'] := ⟨nofun, List.forall_mem_singleton.mpr rfl⟩
    have hrest : ∀ c ∈ (['\n'] ++ traceText as).head?, isSpace c = true :=
      fun c hc => Option.some.inj hc ▸ rfl
    have hline := TraceText.line a hgap hspace haddress hspace hthird hrest
      (ih (List.forall_mem_singleton.mpr rfl))
    simpa [traceText, List.append_assoc] using hline

end Layout

section Report

private theorem report_cancel {l l' : List (String × ℤ)}
    (hlabels : l.map Prod.fst = l'.map Prod.fst)
    (h : l.flatMap reportLine = l'.flatMap reportLine) : l = l' := by
  induction l generalizing l' with
  | nil => exact (List.map_eq_nil_iff.mp hlabels.symm).symm
  | cons e l ih =>
    cases l' with
    | nil => cases hlabels
    | cons e' l' =>
      obtain ⟨label, n⟩ := e
      obtain ⟨label', n'⟩ := e'
      obtain ⟨hlabel, htail⟩ := List.cons.inj hlabels
      obtain rfl : label = label' := hlabel
      rw [List.flatMap_cons, List.flatMap_cons] at h
      simp only [reportLine, List.append_assoc, List.append_cancel_left_eq] at h
      have hend : ∀ s : List Char, ∀ c ∈ (['\n'] ++ s).head?, ¬digit c < 10 := fun s c hc =>
        Option.some.inj hc ▸ by decide
      obtain ⟨rfl, hrest⟩ := decimal_append_cancel (hend _) (hend _) h
      rw [ih htail (List.cons.inj hrest).2]

/-- A report determines its seven figures. -/
theorem figures_of_output {c c' : Cache} (h : output c = output c') : figures c = figures c' :=
  report_cancel rfl h

variable {argv : List String} {cfg : Config} (hargs : mainArguments argv = some (.ok cfg))
  (hset : 0 < cfg.setNum) (hblock : 0 < cfg.blockNum) (haddr : cfg.setNum * cfg.byteNum < 2 ^ 32)
include hargs hset hblock haddr

/-- The outcome of `csim` on any input that it counts without an overflow. When the address of a
complete line is no number, it is terminated without a report. Otherwise its report, which does
not depend on the iteration order of the maps, counts the lines with `l` and with `s` as loads and
stores, each of them as a hit or as a miss; other lines and an incomplete one do not count. -/
theorem csim_report (stdin : List Char)
    (hcharge : traceCharge cfg (traceLoop stdin).1.reverse < 2 ^ 31) :
    ((∃ line ∈ lines stdin, stol line.2 = none) → ∀ o, Main argv stdin o ↔ o = .terminated) ∧
      ((∀ line ∈ lines stdin, stol line.2 ≠ none) → ∃ c : Cache,
        (∀ o, Main argv stdin o ↔ o = .finished (output c)) ∧
          (∀ c', output c' = output c → figures c' = figures c) ∧
          c.totalLoad = (lines stdin).countP (fun line => line.1 = ['l']) ∧
          c.totalStore = (lines stdin).countP (fun line => line.1 = ['s']) ∧
          c.loadHit + c.loadMiss = c.totalLoad ∧ c.storeHit + c.storeMiss = c.totalStore ∧
          c.cycles = traceCharge cfg (traceLoop stdin).1.reverse) := by
  have hv := sized_of_mainArguments hargs hset hblock haddr
  obtain ⟨hcomplete, hcounts⟩ := traceLoop_lines stdin
  rcases hloop : traceLoop stdin with ⟨as, _ | _⟩
  · rw [hloop] at hcomplete hcharge
    refine ⟨fun _ => main_incomplete_iff hargs hv hcharge hloop, fun hall => ?_⟩
    cases hcomplete.mpr hall
  · rw [hloop] at hcomplete hcounts hcharge
    obtain ⟨hloads, hstores⟩ := hcounts rfl
    refine ⟨fun ⟨line, hline, hbad⟩ => absurd hbad (hcomplete.mp rfl line hline), fun _ => ?_⟩
    obtain ⟨h, c, hh, run⟩ := exists_run hv as.reverse
    have hcount := run.counts hv
    have hmain := main_complete_iff hargs hv hcharge hloop
    rw [← hh, ← (run.simulates hv).counters] at hmain
    refine ⟨{ c with data := [] }, hmain, fun c' => figures_of_output, ?_, ?_,
      hcount.totalLoad.symm, hcount.totalStore.symm, ?_⟩
    · have hsum := countOf_add false h
      have hload : c.totalLoad = countOf false true h + countOf false false h := by
        rw [hcount.totalLoad, hcount.loadHit, hcount.loadMiss]
      rw [hh, List.countP_reverse, hloads] at hsum
      rw [← hsum, hload]
      push_cast
      rfl
    · have hsum := countOf_add true h
      have hstore : c.totalStore = countOf true true h + countOf true false h := by
        rw [hcount.totalStore, hcount.storeHit, hcount.storeMiss]
      rw [hh, List.countP_reverse, hstores] at hsum
      rw [← hsum, hstore]
      push_cast
      rfl
    · have hcycles := run.cycles_eq hv
      rwa [hh] at hcycles

end Report

theorem csim_report_load_store : ∃ c : Cache,
    Main ["csim", "256", "4", "16", "write-allocate", "write-back", "lru"]
        (traceText [.load 16, .store 16]) (.finished (output c)) ∧
      c.loadHit + c.loadMiss = c.totalLoad := by
  have hargs : mainArguments ["csim", "256", "4", "16", "write-allocate", "write-back", "lru"] =
      some (.ok ⟨256, 4, 16, true, false, true⟩) := by decide +kernel
  have hloop := traceLoop_of_text
    (traceText_layout [.load 16, .store 16] (show Gap [] from nofun))
  rw [List.nil_append] at hloop
  have hall := (traceLoop_lines (traceText [.load 16, .store 16])).1.mp (by rw [hloop])
  have hcharge : traceCharge ⟨256, 4, 16, true, false, true⟩
      (traceLoop (traceText [.load 16, .store 16])).1.reverse < 2 ^ 31 := by
    rw [hloop]
    decide +kernel
  obtain ⟨c, hmain, -, -, -, hloads, -⟩ := (csim_report hargs (by decide) (by decide) (by decide)
    _ hcharge).2 hall
  exact ⟨c, (hmain _).mpr rfl, hloads⟩

section Traces
variable {argv : List String} {cfg : Config} (hargs : mainArguments argv = some (.ok cfg))
  (hset : 0 < cfg.setNum) (hblock : 0 < cfg.blockNum) (haddr : cfg.setNum * cfg.byteNum < 2 ^ 32)
include hargs hset hblock haddr

/-- From any text of a trace to its report: a trace can be written down, and however its words
are separated and its addresses are spelled, `csim` reports the counters of its accesses. -/
theorem csim_on_trace (as : List Access) (hcharge : traceCharge cfg as.reverse < 2 ^ 31) :
    TraceText (traceText as) as ∧
      ∀ text, TraceText text as → ∀ o,
        Main argv text o ↔ o = .finished (output (tally cfg as.reverse)) :=
  ⟨traceText_layout as (show Gap [] from nofun), fun _ htext =>
    main_complete_iff hargs (sized_of_mainArguments hargs hset hblock haddr) hcharge
      (traceLoop_of_text htext)⟩

end Traces

theorem csim_on_trace_load_store :
    Main ["csim", "256", "4", "16", "write-allocate", "write-back", "lru"]
      (traceText [.load 16, .store 16])
      (.finished (output (tally ⟨256, 4, 16, true, false, true⟩ [.store 16, .load 16]))) := by
  have hargs : mainArguments ["csim", "256", "4", "16", "write-allocate", "write-back", "lru"] =
      some (.ok ⟨256, 4, 16, true, false, true⟩) := by decide +kernel
  obtain ⟨htext, hall⟩ := csim_on_trace hargs (by decide) (by decide) (by decide)
    [.load 16, .store 16] (by decide +kernel)
  exact (hall _ htext _).mpr rfl

end CsfAssignments.Csim
