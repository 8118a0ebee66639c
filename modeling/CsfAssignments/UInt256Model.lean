import CsfAssignments.CIntegers
import CsfAssignments.HexNumerals

/-!
# 256-bit integers as four 64-bit limbs

Definitions of `uint256.c`. C strings are the lists of the characters before their
terminator; the debugging output of the parser is left out.
-/

namespace CsfAssignments.Limbs
open CIntegers HexNumerals

/-- `data[0]` is the least significant limb. -/
structure UInt256 where
  data : Vector (BitVec 64) 4
  deriving DecidableEq

/-- The represented number. -/
def UInt256.toNat (v : UInt256) : ℕ :=
  v.data[0].toNat + v.data[1].toNat * 2 ^ 64 + v.data[2].toNat * 2 ^ 128 +
    v.data[3].toNat * 2 ^ 192

/-- The limbs of a number modulo 2 ^ 256. -/
def UInt256.ofNat (n : ℕ) : UInt256 :=
  ⟨#v[BitVec.ofNat 64 n, BitVec.ofNat 64 (n / 2 ^ 64), BitVec.ofNat 64 (n / 2 ^ 128),
    BitVec.ofNat 64 (n / 2 ^ 192)]⟩

/-- `isspace` in the C locale. -/
def isSpace (c : Char) : Bool := c = ' ' || ('\t' ≤ c && c ≤ '\r')

def skipSign : List Char → Bool × List Char
  | '-' :: s => (true, s)
  | '+' :: s => (false, s)
  | s => (false, s)

/-- Skips `0x` in front of a hexadecimal digit. -/
def skipRadix : List Char → List Char
  | '0' :: x :: d :: s =>
      if (x = 'x' ∨ x = 'X') ∧ d ∈ hexDigits then d :: s else '0' :: x :: d :: s
  | s => s

/-- `strtoul(nptr, endptr, 16)`: an overflow gives `ULONG_MAX`. -/
def strtoul (nptr : List Char) : BitVec 64 :=
  let (negative, s) := skipSign (nptr.dropWhile isSpace)
  let n := value ((skipRadix s).takeWhile (fun c => c ∈ hexDigits))
  if n < 2 ^ 64 then
    if negative then -BitVec.ofNat 64 n else BitVec.ofNat 64 n
  else BitVec.allOnes 64

/-- A copying loop over `n` characters of a string from an offset. -/
def copyChars (s : List Char) (offset n : ℕ) : List Char := (s.drop offset).take n

/-- The branch of the parser for 64 or more characters. -/
def createFromLong (hex : List Char) (len : ℕ) : UInt256 :=
  let newstuff := copyChars hex (len - 64) 64
  let newchar1 := copyChars newstuff 0 16
  let newchar2 := copyChars newstuff 16 16
  let newchar3 := copyChars newstuff 32 16
  let newchar4 := copyChars newstuff 48 16
  ⟨#v[strtoul newchar4, strtoul newchar3, strtoul newchar2, strtoul newchar1]⟩

/-- The branch for fewer than 64 characters. -/
def createFromShort (hex : List Char) (len : ℕ) : UInt256 :=
  let quo := len / 16
  let rem := len % 16
  let remain := copyChars hex 0 rem
  let data : Vector (BitVec 64) 4 := Vector.replicate 4 0
  let data := data.setIfInBounds quo (strtoul remain)
  let rest := copyChars hex rem (len - rem)
  ⟨(List.range quo).foldl (fun data i =>
    let quoi := copyChars rest (i * 16) 16
    data.setIfInBounds (quo - i - 1) (strtoul quoi)) data⟩

/-- The parser. `strlen` is stored in an `int`; a negative length makes the sizes of
its arrays undefined. -/
def uint256CreateFromHex (hex : List Char) : Option UInt256 :=
  let len := toInt hex.length
  if len < 0 then none
  else if 64 ≤ len then some (createFromLong hex len.toNat)
  else some (createFromShort hex len.toNat)

/-- `sprintf(buf, "%lx", n)`. -/
def formatLx (n : BitVec 64) : List Char := Nat.toDigits 16 n.toNat

/-- `sprintf(buf, "%016lx", n)`. -/
def formatLx016 (n : BitVec 64) : List Char := List.leftpad 16 '0' (Nat.toDigits 16 n.toNat)

/-- The printer, with its loops over the lower limbs unrolled. -/
def uint256FormatAsHex (val : UInt256) : List Char :=
  let data0 := val.data[0]
  let data1 := val.data[1]
  let data2 := val.data[2]
  let data3 := val.data[3]
  if data3 ≠ 0 then
    formatLx data3 ++ formatLx016 data2 ++ formatLx016 data1 ++ formatLx016 data0
  else if data2 ≠ 0 then
    formatLx data2 ++ formatLx016 data1 ++ formatLx016 data0
  else if data1 ≠ 0 then
    formatLx data1 ++ formatLx016 data0
  else
    formatLx data0

def uint256Create (data : Vector (BitVec 64) 4) : UInt256 := ⟨data⟩

/-- Only the least significant limb is set. -/
def uint256CreateFromU64 (val : BitVec 64) : UInt256 := ⟨#v[val, 0, 0, 0]⟩

/-- The round `i` of the loop of `uint256_add`, on the limbs of the sum and the carry. -/
def addRound (left right : UInt256) (acc : Vector (BitVec 64) 4 × ℤ) (i : Fin 4) :
    Vector (BitVec 64) 4 × ℤ :=
  let temp := left.data[i] + right.data[i] + BitVec.ofInt 64 acc.2
  (acc.1.set i temp, if temp < left.data[i] ∨ temp < right.data[i] then 1 else 0)

/-- Every limb of the uninitialised sum is written. -/
def uint256Add (left right : UInt256) : UInt256 :=
  ⟨((List.finRange 4).foldl (addRound left right) (Vector.replicate 4 0, 0)).1⟩

def uint256Sub (left right : UInt256) : UInt256 :=
  let tem : UInt256 := ⟨right.data.map (fun limb => ~~~limb)⟩
  let one := uint256CreateFromU64 1
  let negativeRight := uint256Add tem one
  uint256Add left negativeRight

/-- A shift of a `uint64_t` is defined for the amounts 0 to 63. -/
def shl (n : BitVec 64) (k : ℤ) : Option (BitVec 64) :=
  if 0 ≤ k ∧ k < 64 then some (n <<< k.toNat) else none

def shr (n : BitVec 64) (k : ℤ) : Option (BitVec 64) :=
  if 0 ≤ k ∧ k < 64 then some (n >>> k.toNat) else none

def uint256LeftShift (val : UInt256) (shift : ℕ) : Option UInt256 := do
  let data0 := val.data[0]
  let data1 := val.data[1]
  let data2 := val.data[2]
  let data3 := val.data[3]
  if shift > 192 then
    let data3 := data0 &&& ~~~(← shl (~~~0) (256 - shift))
    let data3 ← shl data3 (shift - 192)
    return uint256Create #v[0, 0, 0, data3]
  else if shift = 192 then
    return uint256Create #v[0, 0, 0, data0]
  else if shift > 128 then
    let a : ℤ := 256 - shift
    let b := a - 64
    let c := 64 - b
    let data3 := (← shl data1 c) + (← shr data0 b)
    let data2 ← shl data0 c
    return uint256Create #v[0, 0, data2, data3]
  else if shift = 128 then
    return uint256Create #v[0, 0, data0, data1]
  else if shift > 64 then
    let comp1 : ℤ := shift - 64
    let comp2 := 64 - comp1
    let data3 := (← shl data2 comp1) + (← shr data1 comp2)
    let data2 := (← shl data1 comp1) + (← shr data0 comp2)
    let data1 ← shl data0 comp1
    return uint256Create #v[0, data1, data2, data3]
  else if shift = 64 then
    return uint256Create #v[0, data0, data1, data2]
  else if shift > 0 then
    let comp : ℤ := 64 - shift
    let data3 := (← shl data3 shift) + (← shr data2 comp)
    let data2 := (← shl data2 shift) + (← shr data1 comp)
    let data1 := (← shl data1 shift) + (← shr data0 comp)
    let data0 ← shl data0 shift
    return uint256Create #v[data0, data1, data2, data3]
  else
    return uint256Create #v[data0, data1, data2, data3]

/-- The test of the four branches of `uint256_bit_is_set`. -/
def limbBit (limb : BitVec 64) (index : ℕ) : ℤ :=
  if limb &&& (1#64 <<< (index % 64)) ≠ 0 then 1 else 0

def uint256BitIsSet (val : UInt256) (index : ℕ) : ℤ :=
  if index / 64 = 0 then limbBit val.data[0] index
  else if index / 64 = 1 then limbBit val.data[1] index
  else if index / 64 = 2 then limbBit val.data[2] index
  else if index / 64 = 3 then limbBit val.data[3] index
  else 0

/-- The round `i` of the loop of `uint256_mul`. -/
def mulRound (left right product : UInt256) (i : ℕ) : Option UInt256 :=
  if uint256BitIsSet left i ≠ 0 then do
    let res ← uint256LeftShift right i
    return uint256Add product res
  else some product

def uint256Mul (left right : UInt256) : Option UInt256 :=
  (List.range 256).foldlM (mulRound left right) ⟨#v[0, 0, 0, 0]⟩

namespace UInt256

theorem ext {v w : UInt256} (h0 : v.data[0] = w.data[0]) (h1 : v.data[1] = w.data[1])
    (h2 : v.data[2] = w.data[2]) (h3 : v.data[3] = w.data[3]) : v = w := by
  obtain ⟨v⟩ := v
  obtain ⟨w⟩ := w
  congr 1
  refine Vector.ext fun i hi => ?_
  match i, hi with
  | 0, _ => exact h0
  | 1, _ => exact h1
  | 2, _ => exact h2
  | 3, _ => exact h3

theorem toNat_lt (v : UInt256) : v.toNat < 2 ^ 256 := by
  have h0 := v.data[0].isLt
  have h1 := v.data[1].isLt
  have h2 := v.data[2].isLt
  have h3 := v.data[3].isLt
  rw [toNat]
  omega

/-- The limbs are determined by the number. -/
theorem ofNat_toNat (v : UInt256) : ofNat v.toNat = v := by
  have h0 := v.data[0].isLt
  have h1 := v.data[1].isLt
  have h2 := v.data[2].isLt
  have h3 := v.data[3].isLt
  apply ext <;> apply BitVec.eq_of_toNat_eq <;>
    simp only [ofNat, toNat, BitVec.toNat_ofNat, Vector.getElem_mk, List.getElem_toArray,
      List.getElem_cons_zero, List.getElem_cons_succ] <;> omega

theorem toNat_ofNat (n : ℕ) : (ofNat n).toNat = n % 2 ^ 256 := by
  simp only [ofNat, toNat, BitVec.toNat_ofNat, Vector.getElem_mk, List.getElem_toArray,
    List.getElem_cons_zero, List.getElem_cons_succ]
  omega

end UInt256
end CsfAssignments.Limbs
