import Mathlib
import SecureHash.Digest.Text

/-!
Hexadecimal digits, and the octet that two of them spell.

A digit has one character below ten and two from ten on, and none of them is outside ASCII.
Reading a digit finds just this value, so the arithmetic on octets that it uses does not
wrap (`digitValue?_eq_some_iff`).
-/

namespace SecureHash

/-- The octet `c` is the character of the hexadecimal digit `v`, in either case. -/
def IsHexDigit (c : UInt8) (v : Nat) : Prop :=
  v < 10 ∧ c.toNat = '0'.toNat + v ∨
    10 ≤ v ∧ v < 16 ∧ (c.toNat = 'a'.toNat + (v - 10) ∨ c.toNat = 'A'.toNat + (v - 10))

theorem isHexDigit_iff {c : UInt8} {v : Nat} :
    IsHexDigit c v ↔ v < 10 ∧ c.toNat = 48 + v ∨
      10 ≤ v ∧ v < 16 ∧ (c.toNat = 97 + (v - 10) ∨ c.toNat = 65 + (v - 10)) := Iff.rfl

theorem IsHexDigit.lt {c : UInt8} {v : Nat} (h : IsHexDigit c v) : v < 16 := by
  rw [isHexDigit_iff] at h
  omega

theorem IsHexDigit.unique {c : UInt8} {v w : Nat} (hv : IsHexDigit c v) (hw : IsHexDigit c w) :
    v = w := by
  rw [isHexDigit_iff] at hv hw
  omega

namespace Digest

/-- Each range is taken down to its values without wrapping. -/
theorem toNat_digitValue? (c : UInt8) :
    (digitValue? c).map UInt8.toNat =
      if 48 ≤ c.toNat ∧ c.toNat ≤ 57 then some (c.toNat - 48)
      else if 97 ≤ c.toNat ∧ c.toNat ≤ 102 then some (c.toNat - 97 + 10)
      else if 65 ≤ c.toNat ∧ c.toNat ≤ 70 then some (c.toNat - 65 + 10)
      else none := by
  have hletter : ∀ a : UInt8, a.toNat ≤ c.toNat → c.toNat ≤ a.toNat + 5 →
      (c - a + 10).toNat = c.toNat - a.toNat + 10 := by
    intro a ha hlast
    rw [UInt8.toNat_add, UInt8.toNat_sub_of_le _ _ (UInt8.le_iff_toNat_le.mpr ha)]
    exact Nat.mod_eq_of_lt (by show c.toNat - a.toNat + 10 < 256; omega)
  simp only [digitValue?, UInt8.le_iff_toNat_le, UInt8.reduceToNat]
  split_ifs with hdecimal hlower hupper
  · exact congrArg some (UInt8.toNat_sub_of_le _ _ (UInt8.le_iff_toNat_le.mpr hdecimal.1))
  · exact congrArg some (hletter 97 hlower.1 hlower.2)
  · exact congrArg some (hletter 65 hupper.1 hupper.2)
  · rfl

theorem digitValue?_eq_some_iff {c b : UInt8} :
    digitValue? c = some b ↔ IsHexDigit c b.toNat := by
  have hvalue : digitValue? c = some b ↔ (digitValue? c).map UInt8.toNat = some b.toNat := by
    rw [← Option.map_some, (Option.map_injective fun _ _ => UInt8.toNat_inj.mp).eq_iff]
  rw [hvalue, toNat_digitValue?, isHexDigit_iff]
  split_ifs <;> simp only [Option.some.injEq, false_iff] <;> omega

theorem digitValue?_eq_none_iff {c : UInt8} : digitValue? c = none ↔ ∀ v, ¬ IsHexDigit c v := by
  constructor
  · intro h v hv
    have hsome : digitValue? c = some (UInt8.ofNat v) := by
      rw [digitValue?_eq_some_iff, UInt8.toNat_ofNat_of_lt' (hv.lt.trans (by decide))]
      exact hv
    rw [h] at hsome
    cases hsome
  · intro h
    cases hb : digitValue? c with
    | none => rfl
    | some b => exact absurd (digitValue?_eq_some_iff.mp hb) (h _)

end Digest

/-- A digit in the high half of an octet and one in the low half. -/
theorem toNat_shiftLeft_or {high low : UInt8} (hhigh : high.toNat < 16) (hlow : low.toNat < 16) :
    ((high <<< 4) ||| low).toNat = 16 * high.toNat + low.toNat := by
  have hlt : high.toNat <<< 4 < 2 ^ 8 := by rw [Nat.shiftLeft_eq]; omega
  rw [UInt8.toNat_or, UInt8.toNat_shiftLeft]
  show high.toNat <<< 4 % 2 ^ 8 ||| low.toNat = _
  rw [Nat.mod_eq_of_lt hlt, ← Nat.shiftLeft_add_eq_or_of_lt hlow, Nat.shiftLeft_eq]
  omega

end SecureHash
