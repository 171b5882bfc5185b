import SecureHash.Standard.Compression

/-!
The six word functions of the compression are those of the standard.

Each is written here for few operations and there for reading: a rotation by one word
rotation, the choice and the majority by an identity of bits.
-/

namespace SecureHash

theorem toNat_sub_mod_word (n : UInt32) : (32 - n).toNat % 32 = (32 - n.toNat % 32) % 32 := by
  have hlt := n.toNat_lt
  rw [UInt32.toNat_sub]
  show (2 ^ 32 - n.toNat + 32) % 2 ^ 32 % 32 = _
  omega

/-- By any amount, since a shift looks at the amount modulo a word only. -/
@[simp] theorem rotateRight_eq_rotr (x n : UInt32) : rotateRight x n = Standard.rotr n.toNat x := by
  apply UInt32.eq_of_toBitVec_eq
  have hshifts : (rotateRight x n).toBitVec =
      x.toBitVec >>> (n.toNat % 32) ||| x.toBitVec <<< ((32 - n.toNat % 32) % 32) := by
    rw [← toNat_sub_mod_word, rotateRight, UInt32.toBitVec_or, UInt32.toBitVec_shiftRight,
      UInt32.toBitVec_shiftLeft]
    rfl
  rw [hshifts, Standard.rotr, BitVec.rotateRight_def]
  rcases Nat.eq_zero_or_pos (n.toNat % 32) with hzero | hpos
  · simp [hzero]
  · have hback : 32 - n.toNat % 32 < 32 := by omega
    rw [Nat.mod_eq_of_lt hback]

/-- Two rotations of a word in a row, and a third word beside them. -/
theorem xor_rotateRight_eq (x m n : UInt32) {y z : UInt32} (h : y = z) :
    rotateRight x m ^^^ rotateRight x n ^^^ y =
      Standard.rotr m.toNat x ^^^ Standard.rotr n.toNat x ^^^ z := by
  rw [rotateRight_eq_rotr, rotateRight_eq_rotr, h]

@[simp] theorem choose_eq_ch (x y z : UInt32) : choose x y z = Standard.ch x y z := by
  apply UInt32.eq_of_toBitVec_eq
  apply BitVec.eq_of_getLsbD_eq
  intro i hi
  simp only [choose, Standard.ch, UInt32.toBitVec_xor, UInt32.toBitVec_and, UInt32.toBitVec_not,
    BitVec.getLsbD_xor, BitVec.getLsbD_and, BitVec.getLsbD_not, hi, decide_true, Bool.true_and]
  cases x.toBitVec.getLsbD i <;> cases y.toBitVec.getLsbD i <;> cases z.toBitVec.getLsbD i <;> rfl

@[simp] theorem majority_eq_maj (x y z : UInt32) : majority x y z = Standard.maj x y z := by
  apply UInt32.eq_of_toBitVec_eq
  apply BitVec.eq_of_getLsbD_eq
  intro i _
  simp only [majority, Standard.maj, UInt32.toBitVec_xor, UInt32.toBitVec_and, UInt32.toBitVec_or,
    BitVec.getLsbD_xor, BitVec.getLsbD_and, BitVec.getLsbD_or]
  cases x.toBitVec.getLsbD i <;> cases y.toBitVec.getLsbD i <;> cases z.toBitVec.getLsbD i <;> rfl

@[simp] theorem bigSigma0_eq_upperSigma0 (x : UInt32) : bigSigma0 x = Standard.upperSigma0 x :=
  xor_rotateRight_eq x 2 13 (rotateRight_eq_rotr x 22)

@[simp] theorem bigSigma1_eq_upperSigma1 (x : UInt32) : bigSigma1 x = Standard.upperSigma1 x :=
  xor_rotateRight_eq x 6 11 (rotateRight_eq_rotr x 25)

@[simp] theorem smallSigma0_eq_lowerSigma0 (x : UInt32) : smallSigma0 x = Standard.lowerSigma0 x :=
  xor_rotateRight_eq x 7 18 rfl

@[simp] theorem smallSigma1_eq_lowerSigma1 (x : UInt32) : smallSigma1 x = Standard.lowerSigma1 x :=
  xor_rotateRight_eq x 17 19 rfl

end SecureHash
