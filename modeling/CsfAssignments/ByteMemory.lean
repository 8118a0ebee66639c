import Mathlib.Data.List.Basic
import Mathlib.Data.Nat.Notation
import Mathlib.Tactic.Ring

/-!
# Byte-addressed memory

A memory gives the byte at every address. Every store is the writing of a list of bytes, and
the lemmas say which list results from several stores and what a later access reads.
-/

namespace CsfAssignments.ByteMemory

abbrev Byte := BitVec 8

abbrev Memory := ℕ → Byte

/-- Runs the body with the counters `0 .. n-1`. -/
def forLoop {σ : Type} : ℕ → (ℕ → σ → σ) → σ → σ
  | 0, _, s => s
  | n + 1, body, s => body n (forLoop n body s)

@[simp] theorem forLoop_zero {σ : Type} (body : ℕ → σ → σ) (s : σ) : forLoop 0 body s = s := rfl

theorem forLoop_succ {σ : Type} (n : ℕ) (body : ℕ → σ → σ) (s : σ) :
    forLoop (n + 1) body s = body n (forLoop n body s) := rfl

namespace Memory

def write (m : Memory) (a : ℕ) (bytes : List Byte) : Memory :=
  fun x => if a ≤ x then (bytes[x - a]?).getD (m x) else m x

/-- The bytes from a pointer on. -/
def view (m : Memory) (a : ℕ) : ℕ → Byte := fun i => m (a + i)

def read (m : Memory) (a n : ℕ) : List Byte := (List.range n).map (m.view a)

/-- The low bytes of a number, the least significant first. -/
def littleEndian (n : ℕ) : ℕ → List Byte
  | 0 => []
  | k + 1 => BitVec.ofNat 8 n :: littleEndian (n / 256) k

def fromLittleEndian : List Byte → ℕ
  | [] => 0
  | b :: bytes => b.toNat + 256 * fromLittleEndian bytes

def store64 (m : Memory) (a : ℕ) (v : BitVec 64) : Memory := m.write a (littleEndian v.toNat 8)

def load64 (m : Memory) (a : ℕ) : BitVec 64 := BitVec.ofNat 64 (fromLittleEndian (m.read a 8))

variable (m : Memory) (a : ℕ)

theorem write_apply_add (bytes : List Byte) (i : ℕ) :
    m.write a bytes (a + i) = (bytes[i]?).getD (m (a + i)) := by
  rw [write, if_pos (Nat.le_add_right a i), Nat.add_sub_cancel_left]

theorem write_apply_of_lt {x : ℕ} (hx : x < a) (bytes : List Byte) : m.write a bytes x = m x :=
  if_neg (not_le.mpr hx)

theorem write_apply_of_le {x : ℕ} {bytes : List Byte} (hx : a + bytes.length ≤ x) :
    m.write a bytes x = m x := by
  rw [write, if_pos (by omega), List.getElem?_eq_none (by omega), Option.getD_none]

@[simp] theorem write_nil : m.write a [] = m := by
  funext x
  simp [write]

/-- Two neighbouring stores. -/
theorem write_append (s t : List Byte) :
    (m.write a s).write (a + s.length) t = m.write a (s ++ t) := by
  funext x
  rcases Nat.lt_or_ge x a with hx | hx
  · rw [write_apply_of_lt _ _ (by omega), write_apply_of_lt _ _ hx, write_apply_of_lt _ _ hx]
  · obtain ⟨i, rfl⟩ := Nat.exists_eq_add_of_le hx
    rcases Nat.lt_or_ge i s.length with hi | hi
    · rw [write_apply_of_lt _ _ (by omega), write_apply_add, write_apply_add,
        List.getElem?_append_left hi]
    · obtain ⟨j, rfl⟩ := Nat.exists_eq_add_of_le hi
      rw [← Nat.add_assoc, write_apply_add, Nat.add_assoc, write_apply_add, write_apply_add,
        List.getElem?_append_right (by omega), Nat.add_sub_cancel_left,
        List.getElem?_eq_none (l := s) (by omega), Option.getD_none]

/-- A store in front of the previous one. -/
theorem write_cons (b : Byte) (s : List Byte) :
    (m.write (a + 1) s).write a [b] = m.write a (b :: s) := by
  funext x
  rcases Nat.lt_trichotomy x a with hx | rfl | hx
  · rw [write_apply_of_lt _ _ hx, write_apply_of_lt _ _ (by omega), write_apply_of_lt _ _ hx]
  · simp [write]
  · obtain ⟨i, rfl⟩ := Nat.exists_eq_add_of_lt hx
    have hi : a + i + 1 = a + 1 + i := by omega
    have hi' : a + i + 1 = a + (i + 1) := by omega
    rw [write_apply_of_le _ _ (by simp), hi, write_apply_add, ← hi, hi', write_apply_add,
      List.getElem?_cons_succ]

/-- A store over the whole of the previous one. -/
theorem write_write {s t : List Byte} (hle : s.length ≤ t.length) :
    (m.write a s).write a t = m.write a t := by
  funext x
  rcases Nat.lt_or_ge x a with hx | hx
  · rw [write_apply_of_lt _ _ hx, write_apply_of_lt _ _ hx, write_apply_of_lt _ _ hx]
  · obtain ⟨i, rfl⟩ := Nat.exists_eq_add_of_le hx
    rw [write_apply_add, write_apply_add, write_apply_add]
    rcases Nat.lt_or_ge i t.length with hi | hi
    · rw [List.getElem?_eq_getElem hi, Option.getD_some, Option.getD_some]
    · rw [List.getElem?_eq_none hi, List.getElem?_eq_none (l := s) (by omega), Option.getD_none]

/-- A store that begins inside the previous one and reaches its end. -/
theorem write_overlap (s : List Byte) {u t : List Byte} (hle : u.length ≤ t.length) :
    (m.write a (s ++ u)).write (a + s.length) t = m.write a (s ++ t) := by
  rw [← write_append, write_write _ _ hle, write_append]

theorem view_write_of_disjoint {p : ℕ} {bytes : List Byte} {i : ℕ}
    (h : p + i < a ∨ a + bytes.length ≤ p + i) : (m.write a bytes).view p i = m.view p i := by
  rcases h with h | h
  · exact write_apply_of_lt _ _ h _
  · exact write_apply_of_le _ _ h

@[simp] theorem length_read (n : ℕ) : (m.read a n).length = n := by simp [read]

theorem read_succ (n : ℕ) : m.read a (n + 1) = m.read a n ++ [m (a + n)] := by
  rw [read, List.range_succ, List.map_append]
  rfl

/-- A read of what was stored last. -/
theorem read_write (s t : List Byte) : (m.write a (s ++ t)).read a s.length = s := by
  apply List.ext_getElem (by simp)
  intro i hi hi'
  rw [length_read] at hi
  simp [read, view, write_apply_add, List.getElem?_append_left hi', hi']

theorem apply_of_read {bytes : List Byte} (h : m.read a bytes.length = bytes) {i : ℕ}
    (hi : i < bytes.length) : m (a + i) = bytes[i] := by
  have hget := congrArg (fun l => l[i]?) h
  simpa [read, view, hi] using hget

/-- A store of what is already there. -/
theorem write_eq_self_iff (bytes : List Byte) :
    m.write a bytes = m ↔ m.read a bytes.length = bytes := by
  refine ⟨fun h => ?_, fun h => ?_⟩
  · have hread := read_write m a bytes []
    rwa [List.append_nil, h] at hread
  · funext x
    rcases Nat.lt_or_ge x a with hx | hx
    · exact write_apply_of_lt _ _ hx _
    · obtain ⟨i, rfl⟩ := Nat.exists_eq_add_of_le hx
      rcases Nat.lt_or_ge i bytes.length with hi | hi
      · rw [write_apply_add, List.getElem?_eq_getElem hi, Option.getD_some, apply_of_read m a h hi]
      · exact write_apply_of_le _ _ (by omega)

theorem read_write_of_disjoint {p n : ℕ} {bytes : List Byte}
    (h : p + n ≤ a ∨ a + bytes.length ≤ p) : (m.write a bytes).read p n = m.read p n := by
  refine List.map_congr_left fun i hi => view_write_of_disjoint m a ?_
  rw [List.mem_range] at hi
  omega

/-- A longer store does what the shorter one does when the rest is already there. -/
theorem write_append_eq_iff (s t : List Byte) :
    m.write a (s ++ t) = m.write a s ↔ m.read (a + s.length) t.length = t := by
  rw [← write_append, write_eq_self_iff, read_write_of_disjoint m a (.inr (le_refl _))]

@[simp] theorem length_littleEndian (n k : ℕ) : (littleEndian n k).length = k := by
  induction k generalizing n with
  | zero => rfl
  | succ k ih => simp [littleEndian, ih]

theorem fromLittleEndian_littleEndian (n k : ℕ) :
    fromLittleEndian (littleEndian n k) = n % 256 ^ k := by
  induction k generalizing n with
  | zero => simp [littleEndian, fromLittleEndian, Nat.mod_one]
  | succ k ih =>
    have hpow : 256 ^ (k + 1) = 256 * 256 ^ k := pow_succ' 256 k
    rw [littleEndian, fromLittleEndian, ih, BitVec.toNat_ofNat, hpow, Nat.mod_mul]

theorem load64_store64 (v : BitVec 64) : (m.store64 a v).load64 a = v := by
  have hread : (m.store64 a v).read a 8 = littleEndian v.toNat 8 := by
    have h := read_write m a (littleEndian v.toNat 8) []
    rwa [List.append_nil, length_littleEndian] at h
  rw [load64, hread, fromLittleEndian_littleEndian]
  apply BitVec.eq_of_toNat_eq
  have hv := v.isLt
  rw [BitVec.toNat_ofNat]
  omega

theorem load64_write_of_disjoint {p : ℕ} {bytes : List Byte}
    (h : p + 8 ≤ a ∨ a + bytes.length ≤ p) : (m.write a bytes).load64 p = m.load64 p := by
  rw [load64, read_write_of_disjoint _ _ h, load64]

theorem littleEndian_zero (k : ℕ) : littleEndian 0 k = List.replicate k 0 := by
  induction k with
  | zero => rfl
  | succ k ih =>
    rw [littleEndian, Nat.zero_div, ih, List.replicate_succ]
    rfl

/-- A byte in a quad word. -/
theorem store64_setWidth (b : Byte) :
    m.store64 a (b.setWidth 64) = m.write a (b :: List.replicate 7 0) := by
  have hb := b.isLt
  have hvalue : (b.setWidth 64).toNat = b.toNat := by
    rw [BitVec.toNat_setWidth, Nat.mod_eq_of_lt (by omega)]
  rw [store64, hvalue, littleEndian, Nat.div_eq_of_lt (by omega), littleEndian_zero,
    BitVec.ofNat_toNat, BitVec.setWidth_eq]

theorem store64_zero : m.store64 a 0 = m.write a (List.replicate 8 0) := littleEndian_zero 8 ▸ rfl

/-- A loop that fills a buffer from its end. -/
theorem forLoop_write_down (n : ℕ) (f : ℕ → Byte) {k : ℕ} (hk : k ≤ n) :
    forLoop k (fun i m => m.write (a + (n - 1 - i)) [f i]) m =
      m.write (a + (n - k)) ((List.range k).map (fun j => f (k - 1 - j))) := by
  induction k with
  | zero => simp
  | succ k ih =>
    have haddr : a + (n - k) = a + (n - (k + 1)) + 1 := by omega
    have haddr' : n - 1 - k = n - (k + 1) := by omega
    rw [forLoop_succ, ih (by omega), haddr, haddr', write_cons, List.range_succ_eq_map,
      List.map_cons, List.map_map]
    congr 2
    refine List.map_congr_left fun j hj => ?_
    simp only [Function.comp]
    congr 1
    omega

/-- A loop that maps one buffer into another, which may be the same one. -/
theorem forLoop_write_map {src dst : ℕ} (block : List Byte) (g : Byte → Byte)
    (hsrc : m.read src block.length = block)
    (h : src = dst ∨ src + block.length ≤ dst ∨ dst + block.length ≤ src) :
    forLoop block.length (fun i m => m.write (dst + i) [g (m (src + i))]) m =
      m.write dst (block.map g) := by
  have hrounds : ∀ k ≤ block.length,
      forLoop k (fun i m => m.write (dst + i) [g (m (src + i))]) m =
        m.write dst ((block.take k).map g) := by
    intro k hk
    induction k with
    | zero => simp
    | succ k ih =>
      have hlen : ((block.take k).map g).length = k := by
        rw [List.length_map, List.length_take]
        omega
      have hunread : m.write dst ((block.take k).map g) (src + k) = m (src + k) := by
        rcases h with rfl | h | h
        · exact write_apply_of_le _ _ (by omega)
        · exact write_apply_of_lt _ _ (by omega) _
        · exact write_apply_of_le _ _ (by omega)
      have happend := write_append m dst ((block.take k).map g) [g (m (src + k))]
      rw [hlen] at happend
      rw [forLoop_succ, ih (by omega), hunread, happend, apply_of_read m src hsrc (by omega),
        List.take_succ_eq_append_getElem (by omega), List.map_append, List.map_singleton]
  rw [hrounds _ (le_refl _), List.take_length]

end Memory
end CsfAssignments.ByteMemory
