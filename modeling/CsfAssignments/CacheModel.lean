import CsfAssignments.CIntegers
import Mathlib.Data.List.Forall2

/-!
# The cache simulator

Definitions of `cache.cpp`. Undefined behaviour (a shift by a negative amount or by
the width of the type, an index outside of the vector, reading a victim that was
never assigned) has no result. The counters are unbounded integers; orders and sizes
keep the widths and conversions of the source.
-/

namespace CsfAssignments.Csim
open CIntegers

abbrev Tag := BitVec 32

/-- The eviction order of a block, and its dirty bit. -/
structure Block where
  first : ℕ
  second : Bool
  deriving DecidableEq, Repr

/-- A set is a map from tags to blocks, listed in its iteration order. -/
abbrev CacheSet := List (Tag × Block)

/-- The constructor's arguments; they never change afterwards. -/
structure Config where
  setNum : ℤ
  blockNum : ℤ
  byteNum : ℤ
  writeAllocate : Bool
  writeThrough : Bool
  lru : Bool
  deriving DecidableEq, Repr

/-- The counters are of type `int` in the source; here they are unbounded. -/
structure Cache where
  data : List CacheSet
  totalLoad : ℤ
  totalStore : ℤ
  loadHit : ℤ
  loadMiss : ℤ
  storeHit : ℤ
  storeMiss : ℤ
  cycles : ℤ
  deriving DecidableEq, Repr

/-- A 32-bit shift is defined for the amounts 0 to 31. -/
def shiftAmount (n : ℤ) : Option ℕ := if 0 ≤ n ∧ n < 32 then some n.toNat else none

def getLeastSigN (num : BitVec 32) (n : ℤ) : Option (BitVec 32) := do
  let k ← shiftAmount n
  return num &&& ~~~(~~~0#32 <<< k)

def getLowSig (num : BitVec 32) (n m : ℤ) : Option (BitVec 32) := do
  let k ← shiftAmount n
  getLeastSigN (num >>> k) m

/-- The loop `while (num >>= 1) highest++`, with a bound on its iterations. -/
def highestBitSetLoop : ℕ → ℕ → ℕ
  | 0, _ => 0
  | fuel + 1, num => if num / 2 = 0 then 0 else highestBitSetLoop fuel (num / 2) + 1

def highestBitSet (num : BitVec 32) : ℕ := highestBitSetLoop 32 num.toNat

def Config.indexLen (cfg : Config) : ℤ := highestBitSet (BitVec.ofInt 32 cfg.setNum)

def Config.offsetLen (cfg : Config) : ℤ := highestBitSet (BitVec.ofInt 32 cfg.byteNum)

def Config.tagLen (cfg : Config) : ℤ := 32 - cfg.indexLen - cfg.offsetLen

/-- The constructor: `setNum` empty sets and seven zero counters. -/
def cache (cfg : Config) : Cache :=
  { data := List.replicate cfg.setNum.toNat [], totalLoad := 0, totalStore := 0, loadHit := 0,
    loadMiss := 0, storeHit := 0, storeMiss := 0, cycles := 0 }

def isSetFull (cfg : Config) (s : CacheSet) : Bool := s.length = toUInt64 cfg.blockNum

/-- `find(tag) != end()`. -/
def isHit (s : CacheSet) (tag : Tag) : Bool := s.any (fun e => e.1 = tag)

/-- `operator[]` inserts a zero block under an absent tag. -/
def subscript (s : CacheSet) (tag : Tag) : CacheSet :=
  if isHit s tag then s else s ++ [(tag, ⟨0, false⟩)]

/-- The value of `s[tag].first`. -/
def order (s : CacheSet) (tag : Tag) : ℕ :=
  ((s.find? (fun e => e.1 = tag)).map (fun e => e.2.first)).getD 0

def setFirst (s : CacheSet) (tag : Tag) (n : ℕ) : CacheSet :=
  (subscript s tag).map (fun e => if e.1 = tag then (e.1, { e.2 with first := n }) else e)

def setSecond (s : CacheSet) (tag : Tag) (b : Bool) : CacheSet :=
  (subscript s tag).map (fun e => if e.1 = tag then (e.1, { e.2 with second := b }) else e)

/-- `it->second.first++`. -/
def increment (e : Tag × Block) : Tag × Block :=
  (e.1, { e.2 with first := (e.2.first + 1) % 2 ^ 64 })

/-- The loop of the two hit handlers over the orders below `maxi`. -/
def incrementBelow (s : CacheSet) (maxi : ℕ) : CacheSet :=
  s.map (fun e => if e.2.first < maxi then increment e else e)

/-- One iteration of the victim search of the two miss handlers. -/
def victimStep (cfg : Config) (acc : Option Tag × ℤ) (e : Tag × Block) : Option Tag × ℤ :=
  if e.2.first = toUInt64 (cfg.blockNum - 1) then
    (some e.1, if e.2.second then acc.2 + cfg.byteNum * 25 else acc.2)
  else acc

/-- The victim search; the key is unassigned before its first match. -/
def victimLoop (cfg : Config) (s : CacheSet) (cycles : ℤ) : Option Tag × ℤ :=
  s.foldl (victimStep cfg) (none, cycles)

/-- The full-set branch of the two miss handlers. -/
def evict (cfg : Config) (s : CacheSet) (cycles : ℤ) : Option (CacheSet × ℤ) :=
  if isSetFull cfg s then
    match victimLoop cfg s cycles with
    | (some key, cycles) => some (s.filter (fun e => e.1 ≠ key), cycles)
    | (none, _) => none
  else some (s, cycles)

def countLoadHit (cfg : Config) (c : Cache) (index : BitVec 32) (tag : Tag) : Option Cache := do
  let s ← c.data[index.toNat]?
  let s := if cfg.lru then
      let s := subscript s tag
      let maxi := toInt (order s tag)
      setFirst (incrementBelow s (toUInt64 maxi)) tag 0
    else s
  return { c with
    data := c.data.set index.toNat s
    loadHit := c.loadHit + 1
    cycles := c.cycles + 1 }

def countLoadMiss (cfg : Config) (c : Cache) (index : BitVec 32) (tag : Tag) : Option Cache := do
  let s ← c.data[index.toNat]?
  let (s, cycles) ← evict cfg s c.cycles
  let s := s.map increment
  let s := setSecond (setFirst s tag 0) tag false
  return { c with
    data := c.data.set index.toNat s
    loadMiss := c.loadMiss + 1
    cycles := cycles + cfg.byteNum * 25 }

def countStoreHit (cfg : Config) (c : Cache) (index : BitVec 32) (tag : Tag) : Option Cache := do
  let s ← c.data[index.toNat]?
  let cycles := c.cycles + 1
  let s := if cfg.lru then
      let s := subscript s tag
      let maxi := toUInt32 (order s tag)
      setFirst (incrementBelow s maxi) tag 0
    else s
  let (s, cycles) := if cfg.writeThrough then (s, cycles + 100) else (setSecond s tag true, cycles)
  return { c with
    data := c.data.set index.toNat s
    storeHit := c.storeHit + 1
    cycles := cycles }

def countStoreMiss (cfg : Config) (c : Cache) (index : BitVec 32) (tag : Tag) : Option Cache := do
  let c := { c with storeMiss := c.storeMiss + 1 }
  if cfg.writeAllocate then
    let s ← c.data[index.toNat]?
    let (s, cycles) ← evict cfg s (c.cycles + 25 * cfg.byteNum)
    let s := s.map increment
    let s := setSecond (setFirst s tag 0) tag true
    let cycles := cycles + 1
    let (s, cycles) := if cfg.writeThrough then (setSecond s tag false, cycles + 100) else (s, cycles)
    return { c with data := c.data.set index.toNat s, cycles := cycles }
  else
    return { c with cycles := c.cycles + 100 }

/-- One line of a trace. -/
inductive Access
  | load (address : BitVec 32)
  | store (address : BitVec 32)
  deriving DecidableEq, Repr

def Access.address : Access → BitVec 32
  | .load address => address
  | .store address => address

/-- The set index and the tag that `load` and `store` cut out of an address. -/
def slice (cfg : Config) (address : BitVec 32) : Option (BitVec 32 × Tag) := do
  let index ← getLowSig address cfg.offsetLen cfg.indexLen
  let tag ← getLowSig address (cfg.indexLen + cfg.offsetLen) cfg.tagLen
  return (index, tag)

/-- The test of `load` and `store` on the sliced address. -/
def hits (cfg : Config) (c : Cache) (address : BitVec 32) : Option Bool := do
  let (index, tag) ← slice cfg address
  let s ← c.data[index.toNat]?
  return isHit s tag

def load (cfg : Config) (c : Cache) (address : BitVec 32) : Option Cache := do
  let (index, tag) ← slice cfg address
  let hit ← hits cfg c address
  let c ← if hit then countLoadHit cfg c index tag else countLoadMiss cfg c index tag
  return { c with totalLoad := c.totalLoad + 1 }

def store (cfg : Config) (c : Cache) (address : BitVec 32) : Option Cache := do
  let (index, tag) ← slice cfg address
  let hit ← hits cfg c address
  let c ← if hit then countStoreHit cfg c index tag else countStoreMiss cfg c index tag
  return { c with totalStore := c.totalStore + 1 }

def perform (cfg : Config) (c : Cache) : Access → Option Cache
  | .load address => load cfg c address
  | .store address => store cfg c address

/-- The runs of a cache. The history lists the accesses, the latest first, each with
the answer `is_hit` gave it. Between two accesses the iteration order of any map may
have changed. -/
inductive Run (cfg : Config) : List (Access × Bool) → Cache → Prop
  | start : Run cfg [] (cache cfg)
  | access {h c c'} (a : Access) {hit : Bool} (run : Run cfg h c)
      (test : hits cfg c a.address = some hit) (step : perform cfg c a = some c') :
      Run cfg ((a, hit) :: h) c'
  | rehash {h c} {data : List CacheSet} (run : Run cfg h c)
      (perm : List.Forall₂ List.Perm c.data data) : Run cfg h { c with data := data }

end CsfAssignments.Csim
