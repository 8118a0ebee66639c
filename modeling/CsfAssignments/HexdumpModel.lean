import CsfAssignments.ByteMemory
import CsfAssignments.CIntegers

/-!
# The two hexdump programs

Definitions of `c_hexmain.c` with `c_hexfuncs.c` and of `asm_hexmain.S` with
`asm_hexfuncs.S`. A program is given the results of its calls of `read`, after which it finds
the end of the file. The slots of an assembly function's stack frame and its saved registers
are local values, and every other access goes to memory with the width of the instruction.
-/

namespace CsfAssignments.Hexdump
open CIntegers ByteMemory

def charByte (c : Char) : Byte := BitVec.ofNat 8 c.toNat

def text (s : String) : List Byte := s.toList.map charByte

/-- A pointer to a string in read-only memory. -/
def literal (s : String) : ℕ → Byte := fun i => (text s).getD i 0

structure Process where
  memory : Memory
  /-- The bytes written to standard output. -/
  output : List Byte

namespace C

/-- Returns the length of the block that was read, which has at most 16 bytes. -/
def hexRead (dataBuf : ℕ) (block : List Byte) (s : Process) : ℕ × Process :=
  let memory := s.memory.write dataBuf block
  let len := block.length
  (len, { s with memory := memory.write (dataBuf + len) [0] })

/-- The loop that writes a string byte by byte. There are not more rounds than addresses. -/
def writeLoop : ℕ → (ℕ → Byte) → ℕ → List Byte → List Byte
  | 0, _, _, output => output
  | rounds + 1, s, count, output =>
      if s count ≠ 0 then writeLoop rounds s (count + 1) (output ++ [s count]) else output

def hexWriteString (string : ℕ → Byte) (s : Process) : Process :=
  { s with output := writeLoop (2 ^ 64) string 0 s.output }

/-- Four bits of a value as a character, by the addition of 48 or 87. -/
def digitChar (value : BitVec 32) (i : ℕ) : Byte :=
  let curdigits := (value >>> (4 * i)) &&& ~~~(~~~0#32 <<< 4)
  if curdigits.slt 10 then (curdigits + 48).setWidth 8 else (curdigits + 87).setWidth 8

def hexFormatOffset (offset : BitVec 32) (sbuf : ℕ) (m : Memory) : Memory :=
  (forLoop 8 (fun i m => m.write (sbuf + (7 - i)) [digitChar offset i]) m).write (sbuf + 8) [0]

def hexFormatByteAsHex (byteval : Byte) (sbuf : ℕ) (m : Memory) : Memory :=
  (forLoop 2 (fun i m => m.write (sbuf + (1 - i)) [digitChar (byteval.setWidth 32) i]) m).write
    (sbuf + 2) [0]

def hexToPrintable (byteval : Byte) : Byte :=
  if byteval < 32 ∨ byteval > 126 then charByte '.' else byteval

/-- The local arrays of `main`. -/
structure Frame where
  offset : ℕ
  data : ℕ
  hex : ℕ
  offset_data : offset + 9 ≤ data ∨ data + 17 ≤ offset
  offset_hex : offset + 9 ≤ hex ∨ hex + 3 ≤ offset
  data_hex : data + 17 ≤ hex ∨ hex + 3 ≤ data

/-- `value` is an `int`, which `hex_format_offset` takes as an `unsigned`. -/
def printoffset (value : ℤ) (offset : ℕ) (s : Process) : Process :=
  let s := { s with memory := hexFormatOffset (BitVec.ofInt 32 value) offset s.memory }
  let s := hexWriteString (s.memory.view offset) s
  hexWriteString (literal ": ") s

def printdata (data : ℕ) (s : Process) : Process :=
  let s := hexWriteString (literal " ") s
  let s := hexWriteString (s.memory.view data) s
  hexWriteString (literal "\n") s

/-- The number of rounds of the loop of `printsupplement`. -/
def supplement (index : ℤ) : ℕ :=
  if index.tmod 16 ≠ 0 then (16 - index.tmod 16).toNat else 0

def printsupplement (index : ℤ) (s : Process) : Process :=
  forLoop (supplement index) (fun _ s => hexWriteString (literal "   ") s) s

def printloop (readlength data hex : ℕ) (s : Process) : Process :=
  forLoop readlength (fun i s =>
    let s := { s with memory := hexFormatByteAsHex (s.memory (data + i)) hex s.memory }
    let s := hexWriteString (s.memory.view hex) s
    hexWriteString (literal " ") s) s

/-- The loop that replaces the data by its printable form and counts it. -/
def convertLoop (readlength data : ℕ) (index : ℤ) (s : Process) : ℤ × Process :=
  let memory := forLoop readlength
    (fun i m => m.write (data + i) [hexToPrintable (m (data + i))]) s.memory
  (index + readlength, { s with memory := memory })

/-- The body of the loop of `main` after a read. -/
def mainBody (f : Frame) (readlength : ℕ) (index : ℤ) (s : Process) : ℤ × Process :=
  let s := printoffset (toInt index) f.offset s
  let s := printloop readlength f.data f.hex s
  let (index, s) := convertLoop readlength f.data index s
  let s := printsupplement (toInt index) s
  (index, printdata f.data s)

def mainLoop (f : Frame) : List (List Byte) → ℤ → Process → Process
  | [], _, s => (hexRead f.data [] s).2
  | block :: reads, index, s =>
      let (readlength, s) := hexRead f.data block s
      if readlength > 0 then
        let (index, s) := mainBody f readlength index s
        mainLoop f reads index s
      else s

/-- The output of the program. -/
def main (f : Frame) (m : Memory) (reads : List (List Byte)) : List Byte :=
  (mainLoop f reads 0 ⟨m, []⟩).output

end C

namespace Asm

/-- Clears the eight bytes behind the block. -/
def hexRead (rdi : ℕ) (block : List Byte) (s : Process) : BitVec 64 × Process :=
  let rbp := rdi
  let memory := s.memory.write rdi block
  let rax := BitVec.ofNat 64 block.length
  (rax, { s with memory := memory.store64 (rax.toNat + rbp) 0 })

/-- The loop that advances `%rdx` to the terminator. -/
def lengthLoop : ℕ → (ℕ → Byte) → ℕ → ℕ
  | 0, _, rdx => rdx
  | rounds + 1, rdi, rdx => if rdi rdx = 0 then rdx else lengthLoop rounds rdi (rdx + 1)

/-- Writes the string with one call of `write`. -/
def hexWriteString (rdi : ℕ → Byte) (s : Process) : Process :=
  let rdx := lengthLoop (2 ^ 64) rdi 0
  { s with output := s.output ++ (List.range rdx).map rdi }

def conbyteToHex (rdi : BitVec 64) : BitVec 64 := if rdi.slt 10 then rdi + 48 else rdi + 87

def hexToPrintable (rdi : BitVec 64) : BitVec 64 :=
  if rdi.slt 32 then 46 else if (126 : BitVec 64).slt rdi then 46 else rdi

/-- A store to the low half of a quad word. -/
def withLow (v : BitVec 64) (low : BitVec 32) : BitVec 64 := v.extractLsb' 32 32 ++ low

def hexFormatByteAsHex (rdi : BitVec 64) (rsi : ℕ) (m : Memory) : Memory :=
  let slot0 := rdi
  let slot8 := rdi
  let slot0 := withLow slot0 (slot0.setWidth 32 >>> 4)
  let m := m.store64 rsi (conbyteToHex slot0)
  let slot0 := withLow slot0 (slot0.setWidth 32 <<< 4)
  let m := m.store64 (rsi + 1) (conbyteToHex (slot8 - slot0))
  m.store64 (rsi + 2) 0

/-- A round of the loop of `hex_format_offset`, on `%rdi`, the stack copy and the memory: it
stores the low four bits and shifts the copy right. -/
def offsetRound (rsi rbx : ℕ) : BitVec 64 × BitVec 64 × Memory → BitVec 64 × BitVec 64 × Memory
  | (rdi, slot, m) =>
      let rax := conbyteToHex (rdi &&& 15)
      let m := m.write (rsi + (7 - rbx)) [rax.setWidth 8]
      let slot := slot >>> 4
      (slot, slot, m)

def hexFormatOffset (rdi : BitVec 64) (rsi : ℕ) (m : Memory) : Memory :=
  let m := (forLoop 8 (offsetRound rsi) (rdi, rdi, m)).2.2
  m.write (rsi + 8) [0]

/-- The addresses of the variables behind the beginning of `.data`. -/
def singleHex : ℕ := 17
def offsetHex : ℕ := 20
def printable : ℕ := 29
def offset : ℕ := 46
def readlength : ℕ := 54

def printOffset (rdi : BitVec 64) (rsi : ℕ) (s : Process) : Process :=
  let s := { s with memory := hexFormatOffset rdi rsi s.memory }
  hexWriteString (s.memory.view rsi) s

def printInputChars (rdi : BitVec 64) (rsi rdx : ℕ) (rcx : ℕ → Byte) (s : Process) : Process :=
  forLoop rdi.toInt.toNat (fun r12 s =>
    let dil := s.memory (rsi + r12)
    let s := { s with memory := hexFormatByteAsHex (dil.setWidth 64) rdx s.memory }
    let s := hexWriteString (s.memory.view rdx) s
    hexWriteString rcx s) s

/-- The counter runs from the length of the block to 15. -/
def printsupplement (rdi : BitVec 64) (rsi rdx : ℕ → Byte) (s : Process) : Process :=
  let s := forLoop (16 - rdi.toInt).toNat (fun _ s => hexWriteString rdx s) s
  hexWriteString rsi s

def printPrintable (rdi : BitVec 64) (rsi rdx : ℕ) (s : Process) : Process :=
  let n := rdi.toInt.toNat
  let memory := forLoop n (fun rbp m =>
    m.write (rsi + rbp) [(hexToPrintable ((m (rdx + rbp)).setWidth 64)).setWidth 8]) s.memory
  let memory := memory.write (rsi + n) [0]
  hexWriteString (memory.view rsi) { s with memory := memory }

/-- The rest of the main loop after a read of at least one byte. -/
def mainBody (data : ℕ) (s : Process) : Process :=
  let s := printOffset (s.memory.load64 (data + offset)) (data + offsetHex) s
  let s := hexWriteString (literal ": ") s
  let s := printInputChars (s.memory.load64 (data + readlength)) data (data + singleHex)
    (literal " ") s
  let s := printsupplement (s.memory.load64 (data + readlength)) (literal " ") (literal "   ") s
  let s := printPrintable (s.memory.load64 (data + readlength)) (data + printable) data s
  let s := hexWriteString (literal "\n") s
  let rbp := s.memory.load64 (data + readlength)
  { s with memory := s.memory.store64 (data + offset) (s.memory.load64 (data + offset) + rbp) }

def mainLoop (data : ℕ) : List (List Byte) → Process → Process
  | [], s =>
      let (rax, s) := hexRead data [] s
      { s with memory := s.memory.store64 (data + readlength) rax }
  | block :: reads, s =>
      let (rax, s) := hexRead data block s
      let s := { s with memory := s.memory.store64 (data + readlength) rax }
      if (s.memory.load64 (data + readlength)).sle 0 then s
      else mainLoop data reads (mainBody data s)

/-- The output of the program, whose `.data` section begins at `data` and is all zeros. -/
def main (data : ℕ) (m : Memory) (reads : List (List Byte)) : List Byte :=
  (mainLoop data reads ⟨m.write data (List.replicate 62 0), []⟩).output

end Asm
end CsfAssignments.Hexdump
