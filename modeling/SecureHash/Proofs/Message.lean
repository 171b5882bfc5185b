import SecureHash.Proofs.Closing

/-!
The hash of a message is the one of the standard.

Taken in from the start, a message leaves a view whose padded octets are the end of the
padded message (`padded_ofMessage`): the blocks in front are compressed already.
-/

namespace SecureHash
open Session (View)
open Standard (digits256 zeroCount)

/-! ## Messages taken in from the start -/

namespace Session.View

/-- The view of a hasher that has taken in `message` and nothing else. -/
def ofMessage (message : List UInt8) : View := (View.of Hasher.initial).extend message

theorem ofMessage_nil : ofMessage [] = View.of Hasher.initial := extend_nil (by decide)

theorem ofMessage_append (front back : List UInt8) :
    (ofMessage front).extend back = ofMessage (front ++ back) := extend_extend _ front back

theorem toNat_bitCount_ofMessage (message : List UInt8) :
    (ofMessage message).bitCount.toNat = 8 * message.length % 2 ^ 64 := by
  rw [ofMessage, toNat_bitCount_extend]
  exact congrArg (fun n => n % 2 ^ 64) (Nat.zero_add (8 * message.length))

theorem pending_ofMessage (message : List UInt8) : (ofMessage message).pending = leftover message :=
  rfl

theorem state_ofMessage (message : List UInt8) :
    (ofMessage message).state =
      (wholeBlocks message).foldl Standard.compress ChainState.initial := rfl

theorem zeroCount_leftover (message : List UInt8) :
    zeroCount (leftover message).length = zeroCount message.length := by
  rw [zeroCount, zeroCount, length_leftover, Nat.mod_mod]

/-- Padding what is left of a message gives the end of the padded message. -/
theorem padded_ofMessage (message : List UInt8) :
    (ofMessage message).padded = leftover message ++
      0x80 :: List.replicate (zeroCount message.length) 0 ++ digits256 8 (8 * message.length) := by
  rw [padded, toNat_bitCount_ofMessage, pending_ofMessage, zeroCount_leftover]
  exact congrArg _ (Standard.digits256_mod 8 _)

/-- The blocks compressed already and those of the padding are the blocks of the padded
message. -/
theorem wholeBlocks_append_paddedBlocks (message : List UInt8) :
    wholeBlocks message ++ (ofMessage message).paddedBlocks =
      wholeBlocks (Standard.padded message) := by
  rw [paddedBlocks, padded_ofMessage, Standard.padded, List.append_assoc, List.append_assoc,
    ← wholeBlocks_append]

theorem closed_ofMessage (message : List UInt8) :
    (ofMessage message).closed = Standard.hashState message := by
  rw [closed, state_ofMessage, ← List.foldl_append, wholeBlocks_append_paddedBlocks,
    Standard.hashState, ChainState.initial_eq_initial]

theorem digest_ofMessage (message : List UInt8) :
    (ofMessage message).digest.octets.toList = Standard.hash message := by
  rw [digest, Digest.toList_ofState, closed_ofMessage, Standard.hash]

end Session.View

theorem hashInto_eq (plan : Plan) (message : List UInt8) (out : Vector UInt8 32) :
    hashInto plan message out = .ok (View.ofMessage message).digest.octets := by
  obtain ⟨after, hupdate, hview⟩ := Hasher.run_update (plan 0) message Hasher.initial
  rw [hashInto_eq_fresh, Hasher.fresh, run_bind_of_ok hupdate, Hasher.run_finalizeInto, hview]
  rfl

theorem hash_eq (plan : Plan) (message : List UInt8) :
    hash plan message = .ok (View.ofMessage message).digest := by
  rw [hash, hashInto_eq]
  rfl

/-- Closing leaves a new hasher, so what comes after the first pass is the hash of its digest. -/
theorem Hasher.run_closeTwice (plan : Plan) (out : Vector UInt8 32) (h : Hasher) :
    (closeTwice plan out).run h =
      .ok (View.ofMessage (View.of h).digest.octets.toList).digest.octets initial := by
  obtain ⟨after, hupdate, hview⟩ := run_update (plan 2) (View.of h).digest.octets.toList initial
  rw [closeTwice_eq, run_bind_of_ok (run_finalizeInto (plan 1) out h), run_bind_of_ok hupdate,
    run_finalizeInto, hview]
  rfl

theorem doubleHashInto_eq (plan : Plan) (message : List UInt8) (out : Vector UInt8 32) :
    doubleHashInto plan message out =
      .ok (View.ofMessage (View.ofMessage message).digest.octets.toList).digest.octets := by
  obtain ⟨middle, hupdate, hview⟩ := Hasher.run_update (plan 0) message Hasher.initial
  rw [doubleHashInto_eq_fresh, Hasher.fresh, run_bind_of_ok hupdate, Hasher.run_closeTwice, hview]
  rfl

theorem doubleHash_eq (plan : Plan) (message : List UInt8) :
    doubleHash plan message =
      .ok (View.ofMessage (View.ofMessage message).digest.octets.toList).digest := by
  rw [doubleHash, doubleHashInto_eq]
  rfl

theorem Standard.isLeast_zeroCount (length : Nat) :
    IsLeast {zeros | 64 ∣ length + 1 + zeros + 8} (zeroCount length) := by
  constructor
  · show 64 ∣ _
    rw [zeroCount]
    omega
  · intro zeros hzeros
    have hdvd : 64 ∣ length + 1 + zeros + 8 := hzeros
    rw [zeroCount]
    omega

/-- The hash of a message is the one of FIPS 180-4, whatever variant each block takes and
whatever the destination held.  The last four parts pin down the words of the reference
themselves: the zeros, the count and the two tables of constants. -/
theorem hash_eq_standard (plan : Plan) (message : List UInt8) (out : Vector UInt8 32) :
    ∃ d : Digest, hash plan message = .ok d ∧ hashInto plan message out = .ok d.octets ∧
      d.octets.toList = Standard.hash message ∧
      IsLeast {zeros | 64 ∣ message.length + 1 + zeros + 8} (zeroCount message.length) ∧
      BigEndian.value (digits256 8 (8 * message.length)) = 8 * message.length % 2 ^ 64 ∧
      (∀ i : Fin 8, (Standard.initialWord i).toNat =
        ⌊2 ^ 32 * Int.fract √(Nat.nth Nat.Prime i : ℝ)⌋₊) ∧
      (∀ t : Fin 64, (Standard.constant t).toNat =
        ⌊2 ^ 32 * Int.fract ((Nat.nth Nat.Prime t : ℝ) ^ (3⁻¹ : ℝ))⌋₊) := by
  refine ⟨(View.ofMessage message).digest, hash_eq plan message, hashInto_eq plan message out,
    View.digest_ofMessage message, Standard.isLeast_zeroCount message.length, ?_,
    Standard.toNat_initialWord, Standard.toNat_constant⟩
  rw [BigEndian.value_digits256]
  rfl

end SecureHash
