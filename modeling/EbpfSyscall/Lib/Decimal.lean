import Mathlib
import EbpfSyscall.Lib.Checked

/-!
# Decimal numerals

Printing and reading natural numbers in base ten, as lists of characters. The printed form is `Nat.toDigits 10`; reading it back
gives the number (`read_print`), and it is a nonempty word of ASCII digits, so that no separator of a text format occurs in it.
-/

namespace Decimal

/-- The decimal numeral of a number, without leading zeros. -/
def print (n : Nat) : List Char := Nat.toDigits 10 n

/-- A nonempty word of ASCII digits, read in base ten. Leading zeros are allowed. -/
def read (ds : List Char) : Option Nat :=
  if ds ≠ [] ∧ ∀ c ∈ ds, c.isDigit = true then some (Nat.ofDigitChars 10 ds 0) else none

theorem print_ne_nil (n : Nat) : print n ≠ [] := Nat.toDigits_ne_nil

variable {c : Char}

theorem isDigit_of_mem_print {n : Nat} (h : c ∈ print n) : c.isDigit = true :=
  Nat.isDigit_of_mem_toDigits (by decide) (by decide) h

/-- Reading inverts printing. -/
@[simp] theorem read_print (n : Nat) : read (print n) = some n := by
  have h : print n ≠ [] ∧ ∀ c ∈ print n, c.isDigit = true := ⟨print_ne_nil n, fun _ => isDigit_of_mem_print⟩
  rw [read, if_pos h, print, Nat.ofDigitChars_ten_toDigits]

/-- Two numbers with the same numeral are equal. -/
theorem print_injective {m n : Nat} (h : print m = print n) : m = n := by
  have := congrArg read h
  simpa using this

/-- The signed numeral: a minus sign before the numeral of the absolute value. -/
def printInt (i : Int) : List Char := if i < 0 then '-' :: print i.natAbs else print i.natAbs

@[simp] theorem printInt_natCast (n : Nat) : printInt n = print n := by
  simp [printInt]

theorem mem_printInt {i : Int} (h : c ∈ printInt i) : c = '-' ∨ c.isDigit = true := by
  unfold printInt at h
  split at h
  · rcases List.mem_cons.mp h with rfl | h
    · exact .inl rfl
    · exact .inr (isDigit_of_mem_print h)
  · exact .inr (isDigit_of_mem_print h)

/-- A digit is none of the characters outside `'0'` to `'9'`. -/
theorem ne_of_isDigit {d : Char} (h : c.isDigit = true) (hd : d.isDigit = false) : c ≠ d := by
  rintro rfl
  rw [h] at hd
  cases hd

/-- A numeral ends where the first character that is no digit stands. -/
theorem print_append_inj {m n : Nat} (hc : c.isDigit = false) {a b : List Char} (h : print m ++ c :: a = print n ++ c :: b) : m = n ∧ a = b := by
  have htake : ∀ k (rest : List Char), (print k ++ c :: rest).takeWhile Char.isDigit = print k := by
    intro k rest
    rw [List.takeWhile_append_of_pos (fun d hd => isDigit_of_mem_print hd), List.takeWhile_cons_of_neg (by simp [hc]), List.append_nil]
  have hmn : m = n := print_injective (by rw [← htake m a, h, htake n b])
  subst hmn
  exact ⟨rfl, (List.cons.inj (List.append_cancel_left h)).2⟩

end Decimal
