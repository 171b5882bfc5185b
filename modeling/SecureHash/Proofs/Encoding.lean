import SecureHash.Proofs.Message

/-!
The padded blocks of a message give the message back.

The count in the last eight octets tells messages of different lengths apart, so of two
padded messages neither is the end of the other (`padded_suffix_iff`).  That is more than
being different: whoever compares two block sequences from the back, as a chain of
compressions does, comes upon a difference before either of them is used up.
-/

namespace SecureHash
namespace Standard

/-- The blocks that a message is hashed as. -/
def blocks (message : List UInt8) : List Block := wholeBlocks (padded message)

/-! ## Padded messages -/

theorem length_padded_eq (message : List UInt8) :
    (padded message).length = 64 * ((message.length + 9) ⌈/⌉ 64) := by
  simp only [padded, zeroCount, List.length_append, List.length_cons, List.length_replicate,
    length_digits256, Nat.ceilDiv_eq_add_pred_div]
  omega

theorem message_prefix_padded (message : List UInt8) : message <+: padded message := by
  rw [padded, List.append_assoc]
  exact List.prefix_append _ _

theorem digits256_suffix_padded (message : List UInt8) :
    digits256 8 (8 * message.length) <:+ padded message := List.suffix_append _ _

/-- Eight places hold the count of bits of a message shorter than `2 ^ 61`. -/
theorem length_eq_of_digits256_eq {m n : Nat} (hm : m < 2 ^ 61) (hn : n < 2 ^ 61)
    (h : digits256 8 (8 * m) = digits256 8 (8 * n)) : m = n := by
  have hvalue := congrArg BigEndian.value h
  rw [BigEndian.value_digits256, BigEndian.value_digits256] at hvalue
  have hplaces : (256 : Nat) ^ 8 = 2 ^ 64 := by norm_num
  rw [hplaces] at hvalue
  omega

/-- Of two padded messages neither is the end of the other. -/
theorem padded_suffix_iff {message other : List UInt8} (hm : message.length < 2 ^ 61)
    (ho : other.length < 2 ^ 61) : padded message <:+ padded other ↔ message = other := by
  constructor
  · intro h
    have hcounts : digits256 8 (8 * message.length) = digits256 8 (8 * other.length) := by
      have hlen := (length_digits256 8 (8 * message.length)).trans
        (length_digits256 8 (8 * other.length)).symm
      exact (List.suffix_of_suffix_length_le ((digits256_suffix_padded message).trans h)
        (digits256_suffix_padded other) hlen.le).eq_of_length hlen
    have hlen : message.length = other.length := length_eq_of_digits256_eq hm ho hcounts
    have heq : padded message = padded other :=
      h.eq_of_length (by rw [length_padded_eq, length_padded_eq, hlen])
    rw [padded, padded, List.append_assoc, List.append_assoc] at heq
    exact (List.append_inj heq hlen).1
  · rintro rfl
    exact List.suffix_rfl

/-! ## Blocks -/

@[simp] theorem octets_blocks (message : List UInt8) :
    Block.octets (blocks message) = padded message :=
  octets_wholeBlocks (length_padded message)

@[simp] theorem length_blocks (message : List UInt8) :
    (blocks message).length = (message.length + 9) ⌈/⌉ 64 := by
  rw [blocks, length_wholeBlocks, length_padded_eq, Nat.mul_div_cancel_left _ (by decide)]

theorem message_prefix_octets_blocks (message : List UInt8) :
    message <+: Block.octets (blocks message) := by
  rw [octets_blocks]
  exact message_prefix_padded message

theorem blocks_suffix_iff {message other : List UInt8} (hm : message.length < 2 ^ 61)
    (ho : other.length < 2 ^ 61) : blocks message <:+ blocks other ↔ message = other := by
  constructor
  · rintro ⟨front, hfront⟩
    rw [← padded_suffix_iff hm ho, ← octets_blocks, ← octets_blocks, ← hfront, Block.octets,
      Block.octets, List.flatMap_append]
    exact List.suffix_append _ _
  · rintro rfl
    exact List.suffix_rfl

end Standard

/-- The chaining words of a closed message are those after its blocks in a row. -/
theorem Session.View.closed_eq_foldl_blocks (message : List UInt8) :
    (ofMessage message).closed =
      (Standard.blocks message).foldl Standard.compress ChainState.initial := by
  rw [closed_ofMessage, Standard.hashState, ChainState.initial_eq_initial, Standard.blocks]

end SecureHash
