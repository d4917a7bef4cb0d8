import KeyPath.Text

/-!
Decimal numerals below a fixed bound. Reading takes any non-empty run of ASCII digits, leading zeros
included; writing never makes a leading zero, and what is written reads back.
-/
namespace KeyPath.Numeral
set_option autoImplicit false

/-- Levels, sub-keys and indices are words of 64 bits, so they stay below the 64th power of two. -/
def bound : Nat := 18446744073709551616

def write (n : Nat) : Text := Nat.toDigits 10 n

def value (s : Text) : Nat := Nat.ofDigitChars 10 s 0

def read? (s : Text) : Option Nat :=
  if s ≠ [] ∧ s.all Char.isDigit ∧ value s < bound then some (value s) else none

/-- A captured number may carry one plus sign. -/
def readSigned? : Text → Option Nat
  | '+' :: s => read? s
  | s => read? s

theorem read?_eq_some_iff {s : Text} {n : Nat} :
    read? s = some n ↔ s ≠ [] ∧ s.all Char.isDigit ∧ value s < bound ∧ value s = n := by
  rw [read?]
  split
  · next h => simp [h]
  · next h =>
    constructor
    · intro hn; cases hn
    · rintro ⟨h1, h2, h3, _⟩; exact absurd ⟨h1, h2, h3⟩ h

theorem value_write (n : Nat) : value (write n) = n :=
  Nat.ofDigitChars_toDigits (by decide) (by decide)

theorem isDigit_write (n : Nat) : (write n).all Char.isDigit := by
  rw [List.all_eq_true]
  exact fun c hc => Nat.isDigit_of_mem_toDigits (by decide) (by decide) hc

theorem write_ne_nil (n : Nat) : write n ≠ [] := by
  rw [write, ← List.length_pos_iff]
  exact Nat.length_toDigits_pos

theorem read?_write {n : Nat} (h : n < bound) : read? (write n) = some n := by
  rw [read?_eq_some_iff, value_write]
  exact ⟨write_ne_nil n, isDigit_write n, h, rfl⟩

end KeyPath.Numeral
