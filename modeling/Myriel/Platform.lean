import Mathlib.Algebra.Ring.Int.Defs
import Mathlib.Algebra.Ring.Nat
import Mathlib.Data.List.Basic
import Mathlib.Tactic.Common

/-! What the C++ of this repository takes from its LP64 platform: strings as
sequences of bytes and the integral conversions between the sizes it uses. -/
namespace Myriel

/-- A `std::string`: a byte is the character with that code. No result depends
on a bound of the codes. -/
abbrev Text := List Char

/-- Conversion of a `size_t` to `int`: the low 32 bits, read as signed. -/
def toInt (n : Nat) : Int := (n : Int).bmod (2 ^ 32)

/-- Conversion of an `int` to `size_t`: reduction modulo 2^64. -/
def toSizeT (i : Int) : Nat := (i % 2 ^ 64).toNat

theorem toInt_spec (n : Nat) :
    (-2 ^ 31 ≤ toInt n ∧ toInt n < 2 ^ 31) ∧ toInt n ≤ n ∧ (n < 2 ^ 31 → toInt n = n) := by
  unfold toInt; rw [Int.bmod_def]; split <;> omega

theorem toInt_lower (n : Nat) : -2 ^ 31 ≤ toInt n := (toInt_spec n).1.1

theorem toInt_upper (n : Nat) : toInt n < 2 ^ 31 := (toInt_spec n).1.2

/-- A length that stays non-negative as an `int` has only been cut. -/
theorem toInt_le (n : Nat) : toInt n ≤ n := (toInt_spec n).2.1

theorem toInt_small (n : Nat) (small : n < 2 ^ 31) : toInt n = n := (toInt_spec n).2.2 small

theorem toSizeT_nonneg (i : Int) (nonneg : 0 ≤ i) (upper : i < 2 ^ 31) : (toSizeT i : Int) = i := by
  unfold toSizeT; omega

/-- A negative `int` becomes a size beyond every buffer. -/
theorem toSizeT_negative (i : Int) (negative : i < 0) (lower : -2 ^ 31 ≤ i) :
    2 ^ 31 ≤ toSizeT i := by
  unfold toSizeT; omega

end Myriel
