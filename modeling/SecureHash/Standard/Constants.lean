import Mathlib

/-!
The constants of SHA-256 by their definition in FIPS 180-4: the first thirty-two
bits of the fractional parts of roots of primes.

A root is taken of the integer `p * 2 ^ (32 * k)`, so that the bits wanted stand
in front of the point and the integer part is cut off with the higher bits.
-/

namespace SecureHash
namespace Standard

def isPrime (n : Nat) : Bool := 2 ≤ n && (List.range n).all fun d => d < 2 || n % d != 0

/-- The primes up to 311, of which there are sixty-four. -/
def primes : List Nat := (List.range 312).filter isPrime

/-- The greatest number of the form `r + x` with `x < 2 ^ bits` whose `k`-th power
does not exceed `n`, if `r` is one itself. -/
def rootFrom (k n : Nat) : Nat → Nat → Nat
  | 0, r => r
  | bits + 1, r =>
    if (r + 2 ^ bits) ^ k ≤ n then rootFrom k n bits (r + 2 ^ bits) else rootFrom k n bits r

/-- The first thirty-two bits of the fractional part of the `k`-th root of `p`. -/
def rootFraction (k p : Nat) : UInt32 :=
  UInt32.ofNat (rootFrom k (p * 2 ^ (32 * k)) 40 0)

def constant (t : Nat) : UInt32 := rootFraction 3 (primes.getD t 0)

def initialWord (i : Nat) : UInt32 := rootFraction 2 (primes.getD i 0)

theorem rootFrom_pow_le {k n : Nat} :
    ∀ (bits r : Nat), r ^ k ≤ n → rootFrom k n bits r ^ k ≤ n := by
  intro bits
  induction bits with
  | zero => intro r hr; exact hr
  | succ bits ih =>
    intro r hr
    rw [rootFrom]
    by_cases h : (r + 2 ^ bits) ^ k ≤ n
    · rw [if_pos h]; exact ih _ h
    · rw [if_neg h]; exact ih _ hr

theorem lt_succ_rootFrom_pow {k n : Nat} :
    ∀ (bits r : Nat), n < (r + 2 ^ bits) ^ k → n < (rootFrom k n bits r + 1) ^ k := by
  intro bits
  induction bits with
  | zero => intro r hr; exact hr
  | succ bits ih =>
    intro r hr
    rw [rootFrom]
    by_cases h : (r + 2 ^ bits) ^ k ≤ n
    · rw [if_pos h]
      refine ih _ ?_
      rw [Nat.add_assoc, ← Nat.mul_two, ← Nat.pow_succ]
      exact hr
    · rw [if_neg h]
      exact ih _ (Nat.lt_of_not_le h)

end Standard
end SecureHash
