import SecureHash.Octets.Block

/-!
Cutting a message into blocks, when the message is put together from parts.

Whole blocks in front stay whole blocks, so what comes later only meets the part that is
too short for a block (`wholeBlocks_append`, `leftover_append`).
-/

namespace SecureHash

theorem wholeBlocks_toList_append (block : Block) (rest : List UInt8) :
    wholeBlocks (block.toList ++ rest) = block :: wholeBlocks rest := by
  have hlen : block.toList.length = 64 := Vector.length_toList
  have hlong : 64 ≤ (block.toList ++ rest).length := by rw [List.length_append, hlen]; omega
  obtain ⟨first, hfirst, hcut⟩ := wholeBlocks_of_long hlong
  rw [List.take_append_of_le_length (by omega), List.take_of_length_le (by omega)] at hfirst
  rw [hcut, Vector.toList_inj.mp hfirst, List.drop_append_of_le_length (by omega),
    List.drop_of_length_le (by omega), List.nil_append]

theorem wholeBlocks_octets_append (blocks : List Block) (rest : List UInt8) :
    wholeBlocks (Block.octets blocks ++ rest) = blocks ++ wholeBlocks rest := by
  induction blocks with
  | nil => rfl
  | cons block blocks ih =>
    rw [Block.octets_cons, List.append_assoc, wholeBlocks_toList_append, ih, List.cons_append]

@[simp] theorem length_octets (blocks : List Block) :
    (Block.octets blocks).length = 64 * blocks.length := by
  induction blocks with
  | nil => rfl
  | cons block blocks ih =>
    rw [Block.octets_cons, List.length_append, Vector.length_toList, ih, List.length_cons]
    omega

theorem leftover_octets_append (blocks : List Block) (rest : List UInt8) :
    leftover (Block.octets blocks ++ rest) = leftover rest := by
  have hdiv : 64 * ((64 * blocks.length + rest.length) / 64) =
      64 * blocks.length + 64 * (rest.length / 64) := by omega
  rw [leftover, leftover, List.length_append, length_octets, hdiv, ← List.drop_drop,
    List.drop_left' (length_octets blocks)]

theorem leftover_toList_append (block : Block) (rest : List UInt8) :
    leftover (block.toList ++ rest) = leftover rest := by
  have h := leftover_octets_append [block] rest
  rwa [Block.octets_cons, Block.octets_nil, List.append_nil] at h

theorem leftover_of_short {data : List UInt8} (h : data.length < 64) : leftover data = data := by
  rw [leftover, Nat.div_eq_of_lt h, Nat.mul_zero, List.drop_zero]

@[simp] theorem wholeBlocks_toList (block : Block) : wholeBlocks block.toList = [block] := by
  rw [← List.append_nil block.toList, wholeBlocks_toList_append, wholeBlocks_of_short (by decide)]

@[simp] theorem wholeBlocks_octets (blocks : List Block) :
    wholeBlocks (Block.octets blocks) = blocks := by
  rw [← List.append_nil (Block.octets blocks), wholeBlocks_octets_append,
    wholeBlocks_of_short (by decide), List.append_nil]

@[simp] theorem leftover_octets (blocks : List Block) : leftover (Block.octets blocks) = [] := by
  rw [← List.append_nil (Block.octets blocks), leftover_octets_append,
    leftover_of_short (by decide)]

/-- Nothing is left over of what is whole blocks in length. -/
theorem octets_wholeBlocks {data : List UInt8} (h : data.length % 64 = 0) :
    Block.octets (wholeBlocks data) = data := by
  have hnone : leftover data = [] := by rw [← List.length_eq_zero_iff, length_leftover, h]
  have hcut := octets_wholeBlocks_append_leftover data
  rwa [hnone, List.append_nil] at hcut

/-- What comes later only meets the part that is too short for a block. -/
theorem wholeBlocks_append (front back : List UInt8) :
    wholeBlocks (front ++ back) = wholeBlocks front ++ wholeBlocks (leftover front ++ back) := by
  conv => lhs; rw [← octets_wholeBlocks_append_leftover front]
  rw [List.append_assoc, wholeBlocks_octets_append]

theorem leftover_append (front back : List UInt8) :
    leftover (front ++ back) = leftover (leftover front ++ back) := by
  conv => lhs; rw [← octets_wholeBlocks_append_leftover front]
  rw [List.append_assoc, leftover_octets_append]

end SecureHash
