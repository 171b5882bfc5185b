import SecureHash.Proofs.Recording

/-!
Padding from any hasher.

The pending octets decide where the mark goes, and the room behind it whether the count still
fits (`length_paddedBlocks`).  In both cases the blocks spell the pending octets, the mark, the
fewest zeros and the whole count (`octets_paddedBlocks`).  The chaining words, the count and the
stale part of the buffer may be anything.
-/

namespace SecureHash
open Standard (digits256 zeroCount)

namespace Session.View

theorem length_padded (v : View) :
    v.padded.length = v.pending.length + 1 + zeroCount v.pending.length + 8 := by
  rw [padded, List.length_append, List.length_append, List.length_cons, List.length_replicate,
    Standard.length_digits256]
  omega

theorem octets_paddedBlocks (v : View) : Block.octets v.paddedBlocks = v.padded := by
  refine octets_wholeBlocks ?_
  rw [length_padded, zeroCount]
  omega

/-- One block up to a terminator that is the last octet before the count, two after that. -/
theorem length_paddedBlocks {v : View} (h : v.pending.length < 64) :
    v.paddedBlocks.length = if v.pending.length ≤ 55 then 1 else 2 := by
  rw [paddedBlocks, length_wholeBlocks, length_padded, zeroCount]
  split <;> omega

theorem getLast?_paddedBlocks (v : View) :
    v.paddedBlocks.getLast? = some v.afterPad.buffer := by
  have hne : v.paddedBlocks ≠ [] := by
    intro hnil
    have hlen := v.length_padded
    rw [← octets_paddedBlocks, hnil] at hlen
    simp at hlen
  rw [List.getLast?_eq_getLast_of_ne_nil hne, afterPad, List.getLastD_eq_getLast?,
    List.getLast?_eq_getLast_of_ne_nil hne]
  rfl

end Session.View

namespace Hasher
open Session (View)

/-- What padding makes of `h`: the blocks that it compresses, with `zeros` zeros and the octets
`count` in them, and the hasher that it leaves. -/
structure PadsTo (h : Hasher) (zeros : Nat) (count : List UInt8) (blocks : List Block)
    (after : Hasher) : Prop where
  octets : Block.octets blocks =
    h.buffer.toList.take h.pendingLength ++ 0x80 :: List.replicate zeros 0 ++ count
  fewest : IsLeast {n | 64 ∣ h.pendingLength + 1 + n + 8} zeros
  /-- The count keeps all of its 64 bits. -/
  count : count.length = 8 ∧ BigEndian.value count = h.bitCount.toNat
  number : blocks.length = if h.pendingLength ≤ 55 then 1 else 2
  state : ∀ v : Variant, blocks.foldlM (compressBlock v) h.state = .ok after.state
  bitCount : after.bitCount = h.bitCount
  buffer : blocks.getLast? = some after.buffer

theorem padsTo_afterPad (h : Hasher) :
    h.PadsTo (zeroCount h.pendingLength) (digits256 8 h.bitCount.toNat) (View.of h).paddedBlocks
      (View.of h).afterPad where
  octets := by
    have hlen : (View.of h).pending.length = h.pendingLength := h.length_pending
    rw [View.octets_paddedBlocks, View.padded, hlen]
    rfl
  fewest := Standard.isLeast_zeroCount h.pendingLength
  count := by
    have hlt : h.bitCount.toNat < 256 ^ 8 := h.bitCount.toNat_lt
    rw [Standard.length_digits256, BigEndian.value_digits256, Nat.mod_eq_of_lt hlt]
    exact ⟨rfl, rfl⟩
  number := by
    have hlen : (View.of h).pending.length = h.pendingLength := h.length_pending
    rw [View.length_paddedBlocks (hlen.trans_lt h.pendingLength_lt), hlen]
  state v := foldlM_compressBlock v _ _
  bitCount := rfl
  buffer := View.getLast?_paddedBlocks _

/-- Padding never stops at a fault.  From any hasher it compresses one block or two, in their
order, that are the pending octets with the one least padding; it leaves the last of them in
the buffer and the count as it was, and it gives their number. -/
theorem pad_compresses_least_padding (choice : Strategy) (h : Hasher) :
    ∃ (zeros : Nat) (count : List UInt8) (blocks : List Block) (after : Hasher)
      (inputs : List CompressionInput),
      (pad choice).run h = .ok blocks.length after ∧
      (Recorded.pad choice).run { store := h, inputs := [] } =
        .ok blocks.length { store := after, inputs } ∧
      inputs.map CompressionInput.block = blocks ∧
      h.PadsTo zeros count blocks after :=
  ⟨_, _, _, _, _, run_pad choice h, Recorded.run_pad choice { store := h, inputs := [] },
    CompressionInput.map_block_chain _ _, padsTo_afterPad h⟩

end Hasher
end SecureHash
