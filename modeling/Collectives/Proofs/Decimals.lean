import Mathlib.Algebra.Order.Group.Nat
import Mathlib.Data.List.Basic

/-!
# Decimal numerals

The digits of a number stand out from what follows them, unless that begins with a digit, and they
give the number back. A numeral begins with a zero only if it is that zero.
-/

namespace Collectives.Decimals

/-- Whether `rest` does not go on with a digit. -/
def Stops (rest : List Char) : Prop := ∀ c ∈ rest.head?, c.isDigit = false

@[simp] theorem stops_cons {c : Char} {rest : List Char} :
    Stops (c :: rest) ↔ c.isDigit = false := by
  simp [Stops]

theorem isDigit_of_mem {n : Nat} {c : Char} (h : c ∈ n.repr.toList) : c.isDigit = true := by
  rw [Nat.toList_repr] at h
  exact Nat.isDigit_of_mem_toDigits (by decide) (by decide) h

/-- What is no digit is not in a numeral. -/
theorem notMem {c : Char} (h : c.isDigit = false) (n : Nat) : c ∉ n.repr.toList := by
  intro hmem
  rw [isDigit_of_mem hmem] at h
  cases h

theorem takeWhile_digits {digits rest : List Char} (h : ∀ c ∈ digits, c.isDigit = true)
    (hrest : Stops rest) : (digits ++ rest).takeWhile Char.isDigit = digits := by
  rw [List.takeWhile_append_of_pos h]
  cases rest with
  | nil => simp
  | cons c rest => simp [stops_cons.1 hrest]

theorem dropWhile_digits {digits rest : List Char} (h : ∀ c ∈ digits, c.isDigit = true)
    (hrest : Stops rest) : (digits ++ rest).dropWhile Char.isDigit = rest := by
  rw [List.dropWhile_append_of_pos h]
  cases rest with
  | nil => rfl
  | cons c rest => simp [stops_cons.1 hrest]

theorem takeWhile_repr (n : Nat) {rest : List Char} (h : Stops rest) :
    (n.repr.toList ++ rest).takeWhile Char.isDigit = n.repr.toList :=
  takeWhile_digits (fun _ => isDigit_of_mem) h

theorem dropWhile_repr (n : Nat) {rest : List Char} (h : Stops rest) :
    (n.repr.toList ++ rest).dropWhile Char.isDigit = rest :=
  dropWhile_digits (fun _ => isDigit_of_mem) h

theorem toList_ne_nil (n : Nat) : n.repr.toList ≠ [] := by
  rw [Nat.toList_repr]
  exact Nat.toDigits_ne_nil

theorem ofDigitChars_repr (n : Nat) : Nat.ofDigitChars 10 n.repr.toList 0 = n := by
  rw [Nat.toList_repr, Nat.ofDigitChars_ten_toDigits]

theorem eq_zero_of_head? {n : Nat} (h : n.repr.toList.head? = some '0') : n = 0 := by
  induction n using Nat.strong_induction_on with
  | _ n ih =>
    rw [Nat.toList_repr, Nat.toDigits_eq_if (by decide)] at h
    split at h
    case isTrue => simpa using h
    case isFalse hten =>
      have hhead : (n / 10).repr.toList.head? = some '0' := by
        rwa [List.head?_append_of_ne_nil _ Nat.toDigits_ne_nil, ← Nat.toList_repr] at h
      have hzero := ih (n / 10) (by omega) hhead
      omega

/-- No other digits follow a zero at the beginning. -/
theorem ne_zero_cons (n : Nat) (c : Char) (cs : List Char) : n.repr.toList ≠ '0' :: c :: cs := by
  intro hdigits
  have hzero : n = 0 := eq_zero_of_head? (by rw [hdigits]; rfl)
  subst hzero
  simp at hdigits

end Collectives.Decimals
