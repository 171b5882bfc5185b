import SecureHash.Proofs.Recording
import SecureHash.Proofs.Refinement

/-!
Going on from a digest.

A digest spells the chaining words it was made from, and a padded message is whole blocks.  So
a hasher that is given those words and the count of the padded message holds the padded
message (`resumed_holds`), as if it had taken that in as data.  What it is given next it
digests as the end of a longer message.
-/

namespace SecureHash
open Session (View)

/-- Reading a digest gives the words that it spells, whatever the destination held. -/
theorem BigEndian.run_decodeWords_ofState (state old : ChainState) :
    (decodeWords (Digest.ofState state).octets.toList).run old = .ok () state := by
  have hlen : (Digest.ofState state).octets.toList.length = 8 * 4 := Vector.length_toList
  obtain ⟨words, hrun, hwords⟩ := run_decodeWords old hlen
  rw [Digest.toList_ofState, Standard.octetsOf,
    readOver_flatMap_digits256 (by simp)] at hwords
  rw [hrun, Vector.toList_inj.mp hwords]

/-- The count of the bits of whole blocks, which starts over at a whole number of them. -/
def Block.bits (blocks : List Block) : UInt64 := UInt64.ofNat (8 * (Block.octets blocks).length)

theorem Block.toNat_bits (blocks : List Block) :
    (bits blocks).toNat = 8 * (Block.octets blocks).length % 2 ^ 64 := UInt64.toNat_ofNat'

theorem Block.bits_mod (blocks : List Block) : bits blocks % 512 = 0 := by
  apply UInt64.toNat_inj.mp
  rw [UInt64.toNat_mod, toNat_bits, length_octets]
  show 8 * (64 * blocks.length) % 2 ^ 64 % 512 = 0
  omega

/-- A hasher with the chaining words and the count of whole blocks holds their octets,
whatever its buffer is. -/
theorem Hasher.resumed_holds (blocks : List Block) (buffer : Block) :
    (View.of { state := blocks.foldl Standard.compress ChainState.initial
               bitCount := Block.bits blocks, buffer }).Holds (Block.octets blocks) where
  state := by
    rw [wholeBlocks_octets]
    rfl
  bitCount := Block.toNat_bits blocks
  pending := by
    rw [leftover_octets]
    exact pending_of_blocks { state := ChainState.zero, bitCount := 0, buffer }
      (Block.bits_mod blocks)

/-- What is taken in after a message is digested as its end. -/
theorem Hasher.run_finalize_of_holds {h : Hasher} {message : List UInt8}
    (hholds : (View.of h).Holds message) (plan other : Plan) (chunks : List (List UInt8)) :
    ∃ final, hash other (message ++ chunks.flatten) = .ok final ∧
      (do Hasher.updateFrom plan 0 chunks; Hasher.finalize (plan chunks.length) :
        HasherM Digest).run h = .ok final Hasher.initial := by
  obtain ⟨after, hupdate, hview⟩ := Hasher.run_updateFrom plan 0 chunks h
  rw [hholds.eq_ofMessage, View.ofMessage_append] at hview
  refine ⟨_, hash_eq other _, ?_⟩
  rw [run_bind_of_ok hupdate, Hasher.run_finalize, hview]

/-- A digest is enough to go on from.  Any hasher whose words are read from the digest of a
message, and whose count is set to that of the blocks compressed for it, takes in more data in
any chunks and closes with the hash of those blocks and the data in a row.  The blocks are the
message with its padding. -/
theorem resume_from_digest (plan other : Plan) (message : List UInt8)
    (chunks : List (List UInt8)) (h : Hasher) (old : ChainState) :
    ∃ (d final : Digest) (inputs : List CompressionInput) (words : ChainState) (resumed : Hasher),
      hash plan message = .ok d ∧ Recorded.hash plan message = .ok (d, inputs) ∧
      (BigEndian.decodeWords d.octets.toList).run old = .ok () words ∧
      let front := Block.octets (inputs.map CompressionInput.block)
      front = Standard.padded message ∧
      (Hasher.setBitCount (UInt64.ofNat (8 * front.length))).run { h with state := words } =
        .ok () resumed ∧
      hash other (front ++ chunks.flatten) = .ok final ∧
      (do Hasher.updateFrom plan 0 chunks; Hasher.finalize (plan chunks.length) :
        HasherM Digest).run resumed = .ok final Hasher.initial := by
  set blocks := Standard.blocks message with hblocks
  obtain ⟨final, hfinal, hclose⟩ :=
    Hasher.run_finalize_of_holds (Hasher.resumed_holds blocks h.buffer) plan other chunks
  rw [hblocks, ← View.closed_eq_foldl_blocks] at hclose
  let resumed : Hasher :=
    { state := (View.ofMessage message).closed, bitCount := Block.bits blocks, buffer := h.buffer }
  refine ⟨_, final, _, _, resumed, hash_eq plan message, Recorded.hash_eq plan message,
    BigEndian.run_decodeWords_ofState _ old, ?_⟩
  rw [CompressionInput.map_block_chain, ← hblocks]
  exact ⟨Standard.octets_blocks message,
    (Hasher.run_setBitCount _ _).trans (if_pos (Block.bits_mod blocks)), hfinal, hclose⟩

end SecureHash
