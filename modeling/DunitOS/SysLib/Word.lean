import Mathlib.Data.Nat.Basic

/-!
# Arithmetic of machine words

The arithmetic of 64-bit unsigned words on numbers that fit into one: addition and
subtraction that wrap, addition that saturates, and rounding down to a multiple. Where
the result fits it is that of the numbers.
-/

namespace SysLib

/-- How many values a word has. -/
abbrev wordSize : ℕ := 18446744073709551616

/-- Addition of words. -/
def wadd (a b : ℕ) : ℕ := (a + b) % wordSize

/-- Subtraction of words. -/
def wsub (a b : ℕ) : ℕ := (a + wordSize - b) % wordSize

/-- Addition that stops at the largest word. -/
def satAdd (a b : ℕ) : ℕ := min (a + b) (wordSize - 1)

/-- The next multiple of `k` below a number (`a & !(k - 1)` for a power of two). -/
def alignDown (a k : ℕ) : ℕ := a / k * k

theorem wadd_of_lt {a b : ℕ} (h : a + b < wordSize) : wadd a b = a + b := Nat.mod_eq_of_lt h

theorem wsub_of_le {a b : ℕ} (ha : a < wordSize) (hb : b ≤ a) : wsub a b = a - b := by
  rw [wsub, wordSize] at *
  omega

end SysLib
