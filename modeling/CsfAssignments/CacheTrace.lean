import CsfAssignments.CNumerals
import CsfAssignments.CacheCycleOverflow
import CsfAssignments.UInt256Hex

/-!
# From the trace to the report

The loop of `main` in `csim.cpp` over standard input, and the report of `output`. A trace may be
laid out in any way that separates its words, and its addresses may be written in any base that
`stol` reads.
-/

namespace CsfAssignments.Csim
open CNumerals HexNumerals
open Limbs (isSpace skipSign)

/-- `cin >> word`: the next word, and what is left. -/
def extract (stdin : List Char) : Option (List Char × List Char) :=
  let stdin := stdin.dropWhile isSpace
  match stdin.takeWhile (fun c => !isSpace c) with
  | [] => none
  | word => some (word, stdin.dropWhile (fun c => !isSpace c))

/-- `cin >> LorS >> address >> c`; the third word is not used. -/
def readLine (stdin : List Char) : Option ((List Char × List Char) × List Char) := do
  let (letter, stdin) ← extract stdin
  let (address, stdin) ← extract stdin
  let (_, stdin) ← extract stdin
  return ((letter, address), stdin)

/-- The base that `strtol(nptr, endptr, 0)` finds in front of a numeral, and the digits. -/
def radix : List Char → ℕ × List Char
  | '0' :: x :: d :: s =>
      if (x = 'x' ∨ x = 'X') ∧ d ∈ hexDigits then (16, d :: s) else (8, '0' :: x :: d :: s)
  | '0' :: s => (8, '0' :: s)
  | s => (10, s)

/-- `std::stol(str, NULL, 0)`; no result stands for either of its exceptions. -/
def stol (str : List Char) : Option ℤ :=
  let (negative, s) := skipSign (str.dropWhile isSpace)
  let (base, s) := radix s
  ((numeral base s).map fun (n, _) => if negative then -(n : ℤ) else n).filter
    (fun n => -2 ^ 63 ≤ n ∧ n < 2 ^ 63)

/-- The access of a line, if its first word is one of the two letters. -/
def access (letter : List Char) (addressnum : BitVec 32) : List Access :=
  if letter = ['l'] then [.load addressnum]
  else if letter = ['s'] then [.store addressnum]
  else []

theorem extract_length {stdin word rest : List Char} (h : extract stdin = some (word, rest)) :
    rest.length < stdin.length := by
  rw [extract] at h
  split at h
  · cases h
  · rename_i hword
    cases h
    have hdrop := List.length_dropWhile_le isSpace stdin
    have hsplit := congrArg List.length
      (List.takeWhile_append_dropWhile (p := fun c => !isSpace c) (l := stdin.dropWhile isSpace))
    have hpos := List.length_pos_iff.mpr hword
    rw [List.length_append] at hsplit
    omega

theorem readLine_length {stdin rest : List Char} {line : List Char × List Char}
    (h : readLine stdin = some (line, rest)) : rest.length < stdin.length := by
  obtain ⟨⟨letter, rest₁⟩, h₁, h⟩ := Option.bind_eq_some_iff.mp h
  obtain ⟨⟨address, rest₂⟩, h₂, h⟩ := Option.bind_eq_some_iff.mp h
  obtain ⟨⟨c, rest₃⟩, h₃, heq⟩ := Option.bind_eq_some_iff.mp h
  cases heq
  have hlen₁ := extract_length h₁
  have hlen₂ := extract_length h₂
  have hlen₃ := extract_length h₃
  omega

/-- The loop of `main`: the accesses it makes, and whether it ends without an exception. -/
def traceLoop (stdin : List Char) : List Access × Bool :=
  match _h : readLine stdin with
  | none => ([], true)
  | some (line, rest) =>
      match stol line.2 with
      | none => ([], false)
      | some n =>
          let (as, complete) := traceLoop rest
          (access line.1 (BitVec.ofInt 32 n) ++ as, complete)
termination_by stdin.length
decreasing_by exact readLine_length _h

def figures (c : Cache) : List (String × ℤ) :=
  [("Total loads: ", c.totalLoad), ("Total stores: ", c.totalStore), ("Load hits: ", c.loadHit),
    ("Load misses: ", c.loadMiss), ("Store hits: ", c.storeHit), ("Store misses: ", c.storeMiss),
    ("Total cycles: ", c.cycles)]

def reportLine (figure : String × ℤ) : List Char :=
  figure.1.toList ++ decimal figure.2 ++ ['\n']

def output (c : Cache) : List Char := (figures c).flatMap reportLine

/-- How the program ends: with the message of a refused command line, by an exception of
`stol`, or with a report on standard output. -/
inductive Outcome
  | refused (message : String)
  | terminated
  | finished (stdout : List Char)
  deriving DecidableEq

/-- The program on a command line and an input. The iteration order of the maps is open, and
there is no outcome after an undefined step or an overflow of the cycles. -/
inductive Main (argv : List String) (stdin : List Char) : Outcome → Prop
  | refused {message : String} (hargs : mainArguments argv = some (.error message)) :
      Main argv stdin (.refused message)
  | terminated {cfg as h c cycles} (hargs : mainArguments argv = some (.ok cfg))
      (hloop : traceLoop stdin = (as, false)) (run : IntRun cfg h c cycles)
      (hh : h.map Prod.fst = as.reverse) : Main argv stdin .terminated
  | finished {cfg as h c cycles} (hargs : mainArguments argv = some (.ok cfg))
      (hloop : traceLoop stdin = (as, true)) (run : IntRun cfg h c cycles)
      (hh : h.map Prod.fst = as.reverse) :
      Main argv stdin (.finished (output { c with cycles := cycles }))

end CsfAssignments.Csim
