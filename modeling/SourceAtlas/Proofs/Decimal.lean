import Mathlib.Algebra.Group.Nat.Defs
import SourceAtlas.Text.Decimal
/-!
Numbers are read back from the digits that they are written with.
-/

namespace SourceAtlas.Decimal

theorem value_eq_ofDigitChars (text : List Char) : value text = Nat.ofDigitChars 10 text 0 := by
  simp [value, Nat.ofDigitChars_eq_foldl, Nat.mul_comm]

theorem digits_eq_toDigits (n : Nat) : digits n = Nat.toDigits 10 n := Nat.toList_repr

theorem digits_ne_nil (n : Nat) : digits n ≠ [] := by
  rw [digits_eq_toDigits]
  exact Nat.toDigits_ne_nil

theorem isDigit_of_mem_digits {n : Nat} {c : Char} (member : c ∈ digits n) : c.isDigit = true := by
  rw [digits_eq_toDigits] at member
  exact Nat.isDigit_of_mem_toDigits (by decide) (by decide) member

theorem value_digits (n : Nat) : value (digits n) = n := by
  rw [value_eq_ofDigitChars, digits_eq_toDigits, Nat.ofDigitChars_ten_toDigits]

theorem length_digits_le_iff {n width : Nat} (wide : 0 < width) :
    (digits n).length ≤ width ↔ n < 10 ^ width := by
  rw [digits_eq_toDigits]
  exact Nat.length_toDigits_le_iff (by decide) wide

theorem digits_zero_cons {n : Nat} {rest : List Char} (zero : digits n = '0' :: rest) : rest = [] := by
  induction n using Nat.strongRecOn generalizing rest with
  | _ n ih =>
      rw [digits_eq_toDigits, Nat.toDigits_eq_if (by decide)] at zero
      split at zero
      · simpa using (congrArg List.tail zero).symm
      · next large =>
          cases front : Nat.toDigits 10 (n / 10) with
          | nil => exact absurd front Nat.toDigits_ne_nil
          | cons c chars =>
              rw [front, List.cons_append, List.cons.injEq] at zero
              obtain ⟨rfl, -⟩ := zero
              rw [← digits_eq_toDigits] at front
              have alone := ih (n / 10) (by omega) front
              -- a number of several digits is its front times ten and more, and the front is zero
              have small := value_digits (n / 10)
              rw [front, alone] at small
              have nothing : n / 10 = 0 := by rw [← small]; rfl
              omega

theorem value_replicate_append (count : Nat) (text : List Char) :
    value (List.replicate count '0' ++ text) = value text := by
  rw [value_eq_ofDigitChars, Nat.ofDigitChars_append, Nat.ofDigitChars_replicate_zero,
    Nat.mul_zero, ← value_eq_ofDigitChars]

theorem value_padded (width n : Nat) : value (padded width n) = n := by
  rw [padded, value_replicate_append, value_digits]

theorem isDigit_of_mem_padded (width n : Nat) {c : Char} (member : c ∈ padded width n) :
    c.isDigit = true := by
  rcases List.mem_append.mp member with zero | digit
  · rw [List.eq_of_mem_replicate zero]
    rfl
  · exact isDigit_of_mem_digits digit

theorem padded_ne_nil (width n : Nat) : padded width n ≠ [] := by
  simp [padded, digits_ne_nil]

/-- A number that fits fills its field exactly. -/
theorem length_padded {width n : Nat} (wide : 0 < width) (fits : n < 10 ^ width) :
    (padded width n).length = width := by
  have short := (length_digits_le_iff wide).mpr fits
  simp only [padded, List.length_append, List.length_replicate]
  omega

end SourceAtlas.Decimal
