import Mathlib.Algebra.Order.Group.Nat
import Mathlib.Data.Bool.AllAny
import Mathlib.Data.Nat.Digits.Defs
import Mathlib.Tactic.Ring

/-!
# Hexadecimal numerals

Reading a string of hexadecimal digits and printing a number in base 16. Printing what was
read gives the digits back in lower case without leading zeros.
-/

namespace CsfAssignments.HexNumerals

def hexDigits : List Char := "0123456789abcdefABCDEF".toList

/-- A string of hexadecimal digits in either case. -/
def AllHex (s : List Char) : Prop := ∀ c ∈ s, c ∈ hexDigits

instance (s : List Char) : Decidable (AllHex s) := List.decidableBAll _ s

def digit (c : Char) : ℕ := "0123456789abcdef".toList.idxOf c.toLower

/-- The value of a numeral behind an already read number. -/
def valueFrom (n : ℕ) (s : List Char) : ℕ := s.foldl (fun m c => 16 * m + digit c) n

def value (s : List Char) : ℕ := valueFrom 0 s

/-- The digits in lower case without leading zeros, `0` when nothing is left. -/
def canonical (s : List Char) : List Char :=
  match (s.dropWhile (fun c => c = '0')).map Char.toLower with
  | [] => ['0']
  | t => t

theorem digit_lt : ∀ c ∈ hexDigits, digit c < 16 := List.all_iff_forall_prop.mp (by decide)

theorem digitChar_digit : ∀ c ∈ hexDigits, Nat.digitChar (digit c) = c.toLower :=
  List.all_iff_forall_prop.mp (by decide)

theorem digit_ne_zero : ∀ c ∈ hexDigits, c ≠ '0' → digit c ≠ 0 :=
  List.all_iff_forall_prop.mp (by decide)

theorem digit_digitChar : ∀ d < 16, digit (Nat.digitChar d) = d := by decide

theorem digitChar_mem : ∀ d < 16, Nat.digitChar d ∈ hexDigits := by decide

@[simp] theorem valueFrom_nil (n : ℕ) : valueFrom n [] = n := rfl

@[simp] theorem valueFrom_cons (n : ℕ) (c : Char) (s : List Char) :
    valueFrom n (c :: s) = valueFrom (16 * n + digit c) s := rfl

theorem valueFrom_append (n : ℕ) (s t : List Char) :
    valueFrom n (s ++ t) = valueFrom (valueFrom n s) t := List.foldl_append

theorem valueFrom_eq (n : ℕ) (s : List Char) : valueFrom n s = n * 16 ^ s.length + value s := by
  induction s generalizing n with
  | nil => simp [value]
  | cons c s ih =>
    rw [value, valueFrom_cons, valueFrom_cons, ih, ih (16 * 0 + digit c), List.length_cons]
    ring

theorem value_append (s t : List Char) : value (s ++ t) = value s * 16 ^ t.length + value t := by
  rw [value, valueFrom_append, valueFrom_eq]
  rfl

theorem value_lt {s : List Char} (hs : AllHex s) : value s < 16 ^ s.length := by
  induction s with
  | nil => simp [value]
  | cons c s ih =>
    have hc := digit_lt c (hs c List.mem_cons_self)
    have ht := ih fun d hd => hs d (List.mem_cons_of_mem _ hd)
    have hle : digit c * 16 ^ s.length ≤ 15 * 16 ^ s.length := Nat.mul_le_mul_right _ (by omega)
    rw [value, valueFrom_cons, valueFrom_eq, List.length_cons, pow_succ, Nat.mul_zero, Nat.zero_add]
    omega

theorem AllHex.append {s t : List Char} (hs : AllHex s) (ht : AllHex t) : AllHex (s ++ t) := by
  intro c hc
  rcases List.mem_append.mp hc with hc | hc
  · exact hs c hc
  · exact ht c hc

theorem AllHex.take {s : List Char} (hs : AllHex s) (n : ℕ) : AllHex (s.take n) :=
  fun c hc => hs c (List.mem_of_mem_take hc)

theorem AllHex.drop {s : List Char} (hs : AllHex s) (n : ℕ) : AllHex (s.drop n) :=
  fun c hc => hs c (List.mem_of_mem_drop hc)

theorem allHex_toDigits (n : ℕ) : AllHex (Nat.toDigits 16 n) := by
  induction n using Nat.strong_induction_on with
  | _ n ih =>
    rw [Nat.toDigits_eq_if (by norm_num)]
    split
    · rename_i hn
      exact fun c hc => List.mem_singleton.mp hc ▸ digitChar_mem n hn
    · refine (ih (n / 16) (by omega)).append fun c hc => ?_
      exact List.mem_singleton.mp hc ▸ digitChar_mem _ (Nat.mod_lt _ (by norm_num))

/-- Reading what was printed gives the number back. -/
theorem value_toDigits (n : ℕ) : value (Nat.toDigits 16 n) = n := by
  induction n using Nat.strong_induction_on with
  | _ n ih =>
    rw [Nat.toDigits_eq_if (by norm_num)]
    split
    · rename_i hn
      simpa [value] using digit_digitChar n hn
    · have hd := digit_digitChar (n % 16) (Nat.mod_lt _ (by norm_num))
      rw [value_append, ih (n / 16) (by omega)]
      simp only [value, valueFrom_cons, valueFrom_nil, List.length_singleton, hd]
      omega

/-- Digits behind a positive number are printed behind it. -/
theorem toDigits_valueFrom {n : ℕ} (hn : 0 < n) {s : List Char} (hs : AllHex s) :
    Nat.toDigits 16 (valueFrom n s) = Nat.toDigits 16 n ++ s.map Char.toLower := by
  induction s generalizing n with
  | nil => simp
  | cons c s ih =>
    have hmem := hs c List.mem_cons_self
    have hstep := Nat.toDigits_append_toDigits (b := 16) (by norm_num) hn (digit_lt c hmem)
    rw [Nat.toDigits_of_lt_base (digit_lt c hmem), digitChar_digit c hmem] at hstep
    rw [valueFrom_cons, ih (by omega) (fun d hd => hs d (List.mem_cons_of_mem _ hd)), ← hstep]
    simp

/-- Printing what was read gives the canonical form of the digits. -/
theorem toDigits_value {s : List Char} (hs : AllHex s) :
    Nat.toDigits 16 (value s) = canonical s := by
  induction s with
  | nil => simp [value, canonical]
  | cons c s ih =>
    have hmem := hs c List.mem_cons_self
    have ht : AllHex s := fun d hd => hs d (List.mem_cons_of_mem _ hd)
    by_cases hc : c = '0'
    · subst hc
      have hzero : digit '0' = 0 := by decide
      have hvalue : value ('0' :: s) = value s := by simp [value, hzero]
      rw [hvalue, ih ht]
      simp [canonical]
    · have hpos : 0 < 16 * 0 + digit c := by
        have := digit_ne_zero c hmem hc
        omega
      rw [value, valueFrom_cons, toDigits_valueFrom hpos ht, Nat.mul_zero, Nat.zero_add,
        Nat.toDigits_of_lt_base (digit_lt c hmem), digitChar_digit c hmem]
      simp [canonical, hc]

theorem map_toLower_toDigits (n : ℕ) :
    (Nat.toDigits 16 n).map Char.toLower = Nat.toDigits 16 n := by
  have hfix : ∀ d < 16, (Nat.digitChar d).toLower = Nat.digitChar d := by decide
  induction n using Nat.strong_induction_on with
  | _ n ih =>
    rw [Nat.toDigits_eq_if (by norm_num)]
    split
    · rename_i hn
      simp [hfix n hn]
    · rw [List.map_append, ih (n / 16) (by omega)]
      simp [hfix _ (Nat.mod_lt n (by norm_num : 0 < 16))]

theorem value_replicate_zero (n : ℕ) : value (List.replicate n '0') = 0 := by
  have hzero : digit '0' = 0 := by decide
  induction n with
  | zero => rfl
  | succ n ih => simpa [value, List.replicate_succ, hzero] using ih

/-- A numeral padded with zeros to a fixed width, after the digits of a positive number. -/
theorem toDigits_append_leftpad {m r k : ℕ} (hm : 0 < m) (hk : 0 < k) (hr : r < 16 ^ k) :
    Nat.toDigits 16 m ++ List.leftpad k '0' (Nat.toDigits 16 r) =
      Nat.toDigits 16 (m * 16 ^ k + r) := by
  have hlen : (List.leftpad k '0' (Nat.toDigits 16 r)).length = k := by
    have hle := Nat.toDigits_length 16 r k hk hr
    rw [List.leftpad, List.length_append, List.length_replicate]
    omega
  have hvalue : value (List.leftpad k '0' (Nat.toDigits 16 r)) = r := by
    rw [List.leftpad, value_append, value_replicate_zero, value_toDigits]
    simp
  have hhex : AllHex (List.leftpad k '0' (Nat.toDigits 16 r)) := by
    refine AllHex.append (fun c hc => ?_) (allHex_toDigits r)
    rw [List.eq_of_mem_replicate hc]
    decide
  have hlower : (List.leftpad k '0' (Nat.toDigits 16 r)).map Char.toLower =
      List.leftpad k '0' (Nat.toDigits 16 r) := by
    rw [List.leftpad, List.map_append, map_toLower_toDigits]
    simp
  have h := toDigits_valueFrom hm hhex
  rw [valueFrom_eq, hlen, hvalue, hlower] at h
  exact h.symm

end CsfAssignments.HexNumerals
