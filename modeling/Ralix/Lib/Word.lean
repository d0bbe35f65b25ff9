import Mathlib.Data.Nat.Bitwise
import Mathlib.Tactic.Common

/-!
# Masks on words

A word of `w` bits is a natural number below `2^w`. The operations of a machine with 64-bit words
wrap: `wadd`, `wsub`, and `wmul` are what a release build computes for `+`, `-`, and `*`. Here are
also the values of the two bit operations that programs use for arithmetic: an `and` with a mask of
high bits, which rounds down to a power of two, and an `or` of two words without a common bit, which
adds them.
-/

namespace Ralix.Lib

/-- Wrapping addition of 64-bit words. -/
def wadd (a b : ℕ) : ℕ := (a + b) % 2^64

/-- Wrapping subtraction of 64-bit words. -/
def wsub (a b : ℕ) : ℕ := (a + 2^64 - b) % 2^64

/-- Wrapping multiplication of 64-bit words. -/
def wmul (a b : ℕ) : ℕ := a * b % 2^64

/-- The complement of a 64-bit word. -/
def wnot (a : ℕ) : ℕ := 2^64 - 1 - a

/-- Without overflow, `wadd` adds. -/
theorem wadd_of_lt {a b : ℕ} (h : a + b < 2^64) : wadd a b = a + b := Nat.mod_eq_of_lt h

/-- Without underflow, `wsub` subtracts. -/
theorem wsub_of_le {a b : ℕ} (ha : a < 2^64) (h : b ≤ a) : wsub a b = a - b := by
  unfold wsub
  omega

/-- Without overflow, `wmul` multiplies. -/
theorem wmul_of_lt {a b : ℕ} (h : a * b < 2^64) : wmul a b = a * b := Nat.mod_eq_of_lt h

/-- A wrapping difference is a word. -/
theorem wsub_lt (a b : ℕ) : wsub a b < 2^64 := Nat.mod_lt _ (by decide)

/-- The bits of the mask that clears the lowest `k` of `w` bits. -/
theorem testBit_highMask {w k : ℕ} (hk : k ≤ w) (j : ℕ) :
    (2^w - 2^k).testBit j = (decide (j < w) && decide (k ≤ j)) := by
  have hpos : 0 < 2^k := Nat.two_pow_pos k
  have hle : 2^k ≤ 2^w := Nat.pow_le_pow_right (by decide) hk
  have h := Nat.testBit_two_pow_sub_succ (x := 2^k - 1) (n := w) (by omega) j
  rw [show 2^k - 1 + 1 = 2^k by omega, Nat.testBit_two_pow_sub_one] at h
  rw [h]
  rcases Nat.lt_or_ge j k with hj | hj
  · simp [hj]
  · simp [hj]

/-- Keeping the bits from `k` up to `w` reduces a number modulo `2^w` and rounds it down to a multiple
of `2^k`. -/
theorem and_mask {w k x : ℕ} (hk : k ≤ w) : x &&& (2^w - 2^k) = x % 2^w / 2^k * 2^k := by
  apply Nat.eq_of_testBit_eq
  intro j
  rw [Nat.testBit_and, testBit_highMask hk, Nat.mul_comm, Nat.testBit_two_pow_mul,
    Nat.testBit_div_two_pow, Nat.testBit_mod_two_pow]
  by_cases hj : k ≤ j
  · rw [Nat.sub_add_cancel hj]
    simp [hj, Bool.and_comm]
  · simp [hj]

/-- Clearing the lowest `k` bits of a word rounds it down to a multiple of `2^k`. -/
theorem and_highMask {w k x : ℕ} (hx : x < 2^w) (hk : k ≤ w) :
    x &&& (2^w - 2^k) = x / 2^k * 2^k := by
  rw [and_mask hk, Nat.mod_eq_of_lt hx]

/-- Keeping the lowest `k` bits reduces a number modulo `2^k`. -/
theorem and_lowMask (x k : ℕ) : x &&& (2^k - 1) = x % 2^k := Nat.and_two_pow_sub_one_eq_mod x k

/-- The `or` of a multiple of `2^k` and a word below `2^k` is their sum. -/
theorem or_low {k a b : ℕ} (ha : a % 2^k = 0) (hb : b < 2^k) : a ||| b = a + b := by
  obtain ⟨q, rfl⟩ := Nat.dvd_of_mod_eq_zero ha
  exact (Nat.two_pow_add_eq_or_of_lt hb q).symm

end Ralix.Lib
