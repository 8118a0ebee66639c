import CsfAssignments.HexNumerals
import Mathlib.Data.List.TakeWhile

/-!
# Numerals in a base

Reading the digits in front of a string, in a base up to 16, as the conversions of the C library
do. What was printed is read back, whatever is behind it that is no digit.
-/

namespace CsfAssignments.CNumerals
open HexNumerals

def valueIn (base : ℕ) (s : List Char) : ℕ := s.foldl (fun n c => base * n + digit c) 0

/-- The number in front of a string, and what is behind its digits; no result without a digit. -/
def numeral (base : ℕ) (s : List Char) : Option (ℕ × List Char) :=
  match s.takeWhile (fun c => digit c < base) with
  | [] => none
  | digits => some (valueIn base digits, s.dropWhile (fun c => digit c < base))

/-- The decimal numeral of an integer. -/
def decimal (n : ℤ) : List Char :=
  if n < 0 then '-' :: Nat.toDigits 10 n.natAbs else Nat.toDigits 10 n.natAbs

/-- A string of digits is read to its end. -/
theorem numeral_of_all {base : ℕ} {s : List Char} (hne : s ≠ [])
    (hall : ∀ c ∈ s, digit c < base) : numeral base s = some (valueIn base s, []) := by
  have hdigits : ∀ c ∈ s, decide (digit c < base) = true := fun c hc => decide_eq_true (hall c hc)
  have htake : s.takeWhile (fun c => digit c < base) = s :=
    List.takeWhile_eq_self_iff.mpr hdigits
  have hdrop : s.dropWhile (fun c => digit c < base) = [] :=
    List.dropWhile_eq_nil_iff.mpr hdigits
  obtain ⟨c, digits, rfl⟩ := List.exists_cons_of_ne_nil hne
  rw [numeral, htake, hdrop]

section Printed
variable {base : ℕ} (hlow : 1 < base) (hhigh : base ≤ 16)
include hlow hhigh

theorem exists_digit_of_mem_toDigits (n : ℕ) :
    ∀ c ∈ Nat.toDigits base n, ∃ d < base, c = Nat.digitChar d := by
  induction n using Nat.strong_induction_on with
  | _ n ih =>
    rw [Nat.toDigits_eq_if hlow]
    split
    · rename_i hn
      exact fun c hc => ⟨n, hn, List.mem_singleton.mp hc⟩
    · rename_i hn
      intro c hc
      rcases List.mem_append.mp hc with hc | hc
      · exact ih (n / base) (Nat.div_lt_self (by omega) hlow) c hc
      · exact ⟨n % base, Nat.mod_lt n (by omega), List.mem_singleton.mp hc⟩

theorem mem_hexDigits_of_mem_toDigits (n : ℕ) : ∀ c ∈ Nat.toDigits base n, c ∈ hexDigits := by
  intro c hc
  obtain ⟨d, hd, rfl⟩ := exists_digit_of_mem_toDigits hlow hhigh n c hc
  exact digitChar_mem d (hd.trans_le hhigh)

theorem digit_lt_of_mem_toDigits (n : ℕ) : ∀ c ∈ Nat.toDigits base n, digit c < base := by
  intro c hc
  obtain ⟨d, hd, rfl⟩ := exists_digit_of_mem_toDigits hlow hhigh n c hc
  rwa [digit_digitChar d (hd.trans_le hhigh)]

theorem valueIn_toDigits (n : ℕ) : valueIn base (Nat.toDigits base n) = n := by
  induction n using Nat.strong_induction_on with
  | _ n ih =>
    rw [Nat.toDigits_eq_if hlow]
    split
    · rename_i hn
      simpa [valueIn] using digit_digitChar n (by omega)
    · rename_i hn
      have hd := digit_digitChar (n % base) ((Nat.mod_lt n (by omega)).trans_le hhigh)
      have hdiv := ih (n / base) (Nat.div_lt_self (by omega) hlow)
      rw [valueIn] at hdiv
      rw [valueIn, List.foldl_append, hdiv, List.foldl_cons, List.foldl_nil, hd]
      exact Nat.div_add_mod n base

/-- A printed number is read back. -/
theorem numeral_toDigits (n : ℕ) {rest : List Char}
    (hrest : ∀ c ∈ rest.head?, ¬digit c < base) :
    numeral base (Nat.toDigits base n ++ rest) = some (n, rest) := by
  have hall : ∀ c ∈ Nat.toDigits base n, decide (digit c < base) = true := fun c hc =>
    decide_eq_true (digit_lt_of_mem_toDigits hlow hhigh n c hc)
  have hstop : rest.takeWhile (fun c => digit c < base) = [] ∧
      rest.dropWhile (fun c => digit c < base) = rest := by
    cases rest with
    | nil => exact ⟨rfl, rfl⟩
    | cons c rest =>
      have hc : ¬digit c < base := hrest c rfl
      simp [hc]
  have htake : (Nat.toDigits base n ++ rest).takeWhile (fun c => digit c < base) =
      Nat.toDigits base n := by
    rw [List.takeWhile_append_of_pos hall, hstop.1, List.append_nil]
  have hdrop : (Nat.toDigits base n ++ rest).dropWhile (fun c => digit c < base) = rest := by
    rw [List.dropWhile_append_of_pos hall, hstop.2]
  obtain ⟨c, digits, hcons⟩ := List.exists_cons_of_ne_nil (Nat.toDigits_ne_nil (n := n) (b := base))
  have hvalue := valueIn_toDigits hlow hhigh n
  rw [hcons] at hvalue
  rw [numeral, htake, hdrop, hcons]
  simp only [hvalue]

end Printed

section Decimals
variable {s t : List Char} (hs : ∀ c ∈ s.head?, ¬digit c < 10) (ht : ∀ c ∈ t.head?, ¬digit c < 10)
include hs ht

private theorem toDigits_append_cancel {m n : ℕ}
    (h : Nat.toDigits 10 m ++ s = Nat.toDigits 10 n ++ t) : m = n ∧ s = t := by
  have heq := numeral_toDigits (by norm_num) (by norm_num) m hs
  rw [h, numeral_toDigits (by norm_num) (by norm_num) n ht] at heq
  cases heq
  exact ⟨rfl, rfl⟩

omit hs ht in
private theorem ne_minus_append (m n : ℕ) :
    '-' :: Nat.toDigits 10 m ++ s ≠ Nat.toDigits 10 n ++ t := by
  intro h
  obtain ⟨c, digits, hcons⟩ := List.exists_cons_of_ne_nil (Nat.toDigits_ne_nil (n := n) (b := 10))
  have hmem : c ∈ hexDigits := mem_hexDigits_of_mem_toDigits (by norm_num) (by norm_num) n c
    (hcons ▸ List.mem_cons_self)
  rw [hcons] at h
  obtain ⟨rfl, -⟩ := List.cons.inj h
  exact absurd hmem (by decide)

/-- A printed integer is determined by the text it begins. -/
theorem decimal_append_cancel {m n : ℤ} (h : decimal m ++ s = decimal n ++ t) : m = n ∧ s = t := by
  rw [decimal, decimal] at h
  split_ifs at h with hm hn hn
  · obtain ⟨habs, rfl⟩ := toDigits_append_cancel hs ht (List.cons.inj h).2
    exact ⟨by omega, rfl⟩
  · exact absurd h (ne_minus_append _ _)
  · exact absurd h.symm (ne_minus_append _ _)
  · obtain ⟨habs, rfl⟩ := toDigits_append_cancel hs ht h
    exact ⟨by omega, rfl⟩

end Decimals
end CsfAssignments.CNumerals
