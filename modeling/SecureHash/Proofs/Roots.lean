import SecureHash.Compression.Rounds
import SecureHash.Standard.Message

/-!
The tables of constants are fractional parts of roots of primes.

The standard's words come from an integer root of a scaled prime, and the real root only
enters where its floor is taken (`rootFrom_eq_floor`).  The tables of the rounds are
compared with those words by evaluation, and nowhere else are their entries read.
-/

namespace SecureHash
namespace Standard

/-! ## Primes -/

theorem isPrime_iff_prime (n : Nat) : isPrime n = true ↔ n.Prime := by
  simp only [isPrime, Bool.and_eq_true, decide_eq_true_eq, List.all_eq_true, List.mem_range,
    Bool.or_eq_true, bne_iff_ne, ne_eq]
  rw [Nat.prime_def_lt']
  refine and_congr_right fun _ => forall_congr' fun d => ?_
  rw [← Nat.dvd_iff_mod_eq_zero]
  constructor
  · intro h hd hlt
    rcases h hlt with hd' | hd'
    · omega
    · exact hd'
  · intro h hlt
    rcases Nat.lt_or_ge d 2 with hd | hd
    · exact Or.inl hd
    · exact Or.inr (h hd hlt)

theorem length_filter_range (p : Nat → Prop) [DecidablePred p] (n : Nat) :
    ((List.range n).filter p).length = Nat.count p n := by
  rw [Nat.count, List.countP_eq_length_filter]

theorem getElem?_filter_range (p : Nat → Prop) [DecidablePred p] {n t : Nat}
    (h : t < Nat.count p n) : ((List.range n).filter p)[t]? = some (Nat.nth p t) := by
  induction n with
  | zero => exact absurd h (by simp)
  | succ n ih =>
    rw [List.range_succ, List.filter_append]
    rcases Nat.lt_or_ge t (Nat.count p n) with hlt | hge
    · rw [List.getElem?_append_left (by rw [length_filter_range]; exact hlt), ih hlt]
    · have hp : p n := by
        by_contra hn
        rw [Nat.count_succ, if_neg hn] at h
        omega
      have ht : t = Nat.count p n := by
        rw [Nat.count_succ, if_pos hp] at h
        omega
      rw [List.getElem?_append_right (by rw [length_filter_range]; exact hge), length_filter_range,
        ht, Nat.sub_self, Nat.nth_count hp]
      simp [hp]

theorem primes_eq_filter : primes = (List.range 312).filter Nat.Prime := by
  rw [primes]
  refine List.filter_congr fun n _ => ?_
  rw [Bool.eq_iff_iff, isPrime_iff_prime, decide_eq_true_iff]

theorem length_primes : primes.length = 64 := by decide +kernel

theorem count_prime_eq : Nat.count Nat.Prime 312 = 64 := by
  rw [← length_filter_range, ← primes_eq_filter, length_primes]

/-- The list of primes leaves none out. -/
theorem primes_getD {t : Nat} (ht : t < 64) : primes.getD t 0 = Nat.nth Nat.Prime t := by
  rw [List.getD_eq_getElem?_getD, primes_eq_filter,
    getElem?_filter_range _ (by rw [count_prime_eq]; exact ht),
    Option.getD_some]

/-! ## Roots -/

/-- The search ends at the root, rounded down. -/
theorem rootFrom_eq_floor {k p : Nat} (hk : k ≠ 0) (hp : p < 256 ^ k) :
    rootFrom k (p * 2 ^ (32 * k)) 40 0 = ⌊2 ^ 32 * (p : ℝ) ^ (k : ℝ)⁻¹⌋₊ := by
  set root := rootFrom k (p * 2 ^ (32 * k)) 40 0 with hroot
  have hlow : root ^ k ≤ p * 2 ^ (32 * k) :=
    rootFrom_pow_le 40 0 (by rw [Nat.zero_pow (Nat.pos_of_ne_zero hk)]; exact Nat.zero_le _)
  have hhigh : p * 2 ^ (32 * k) < (root + 1) ^ k := by
    refine lt_succ_rootFrom_pow 40 0 ?_
    calc p * 2 ^ (32 * k) < 256 ^ k * 2 ^ (32 * k) :=
          Nat.mul_lt_mul_of_pos_right hp (Nat.two_pow_pos _)
      _ = (0 + 2 ^ 40) ^ k := by rw [Nat.pow_mul, ← Nat.mul_pow]; norm_num
  have hx : 0 ≤ 2 ^ 32 * (p : ℝ) ^ (k : ℝ)⁻¹ := by positivity
  have hpow : (2 ^ 32 * (p : ℝ) ^ (k : ℝ)⁻¹) ^ k = ((p * 2 ^ (32 * k) : Nat) : ℝ) := by
    rw [mul_pow, Real.rpow_inv_natCast_pow (Nat.cast_nonneg p) hk]
    push_cast
    rw [pow_mul, mul_comm]
  symm
  rw [Nat.floor_eq_iff hx]
  constructor
  · rw [← pow_le_pow_iff_left₀ (Nat.cast_nonneg root) hx hk, hpow]
    exact_mod_cast hlow
  · rw [← pow_lt_pow_iff_left₀ hx (by positivity) hk, hpow]
    exact_mod_cast hhigh

theorem floor_mul_fract {x : ℝ} (hx : 0 ≤ x) (n : Nat) (hn : 0 < n) :
    ⌊n * Int.fract x⌋₊ = ⌊n * x⌋₊ % n := by
  have hsplit : (n : ℝ) * x = n * Int.fract x + ((n * ⌊x⌋₊ : Nat) : ℝ) := by
    push_cast
    rw [natCast_floor_eq_intCast_floor hx, ← mul_add, Int.fract_add_floor]
  have hlt : ⌊(n : ℝ) * Int.fract x⌋₊ < n := by
    rw [Nat.floor_lt (by have := Int.fract_nonneg x; positivity)]
    have hpos : (0 : ℝ) < n := by exact_mod_cast hn
    exact mul_lt_of_lt_one_right hpos (Int.fract_lt_one x)
  rw [hsplit, Nat.floor_add_natCast (by have := Int.fract_nonneg x; positivity),
    Nat.add_mul_mod_self_left, Nat.mod_eq_of_lt hlt]

theorem toNat_rootFraction {k p : Nat} (hk : k ≠ 0) (hp : p < 256 ^ k) :
    (rootFraction k p).toNat = ⌊2 ^ 32 * Int.fract ((p : ℝ) ^ (k : ℝ)⁻¹)⌋₊ := by
  rw [rootFraction, UInt32.toNat_ofNat', rootFrom_eq_floor hk hp]
  have h := floor_mul_fract (x := (p : ℝ) ^ (k : ℝ)⁻¹) (by positivity) (2 ^ 32) (by decide)
  simp only [Nat.cast_pow, Nat.cast_ofNat] at h
  exact h.symm

/-! ## The constants -/

theorem nth_prime_lt {t : Nat} (ht : t < 64) : Nat.nth Nat.Prime t < 312 :=
  Nat.nth_lt_of_lt_count (by rw [count_prime_eq]; exact ht)

theorem toNat_initialWord (i : Fin 8) :
    (initialWord i).toNat = ⌊2 ^ 32 * Int.fract √(Nat.nth Nat.Prime i : ℝ)⌋₊ := by
  have hi : i.val < 64 := by omega
  have hp := nth_prime_lt hi
  rw [initialWord, primes_getD hi, toNat_rootFraction (by decide) (by omega), Real.sqrt_eq_rpow]
  norm_num

theorem toNat_constant (t : Fin 64) :
    (constant t).toNat = ⌊2 ^ 32 * Int.fract ((Nat.nth Nat.Prime t : ℝ) ^ (3⁻¹ : ℝ))⌋₊ := by
  have hp := nth_prime_lt t.isLt
  rw [constant, primes_getD t.isLt, toNat_rootFraction (by decide) (by omega)]
  norm_num

end Standard

theorem Rounds.constants_eq_constant (t : Fin 64) : constants.get t = Standard.constant t := by
  revert t
  decide +kernel

theorem ChainState.initial_eq_initial : initial = Standard.initial := by decide +kernel

end SecureHash
