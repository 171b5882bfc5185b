import SecureHash.Checked

/-!
Blocks of 64 octets, and the cut of a message into them.

`wholeBlocks` takes blocks from the front while they are full, and `leftover` is
what is too short for another.  Together they give back the message
(`octets_wholeBlocks_append_leftover`).
-/

namespace SecureHash

abbrev Block := Vector UInt8 64

namespace Block

/-- The number of octets that the type `Block` fixes. -/
def length : Nat := 64

def zero : Block := Vector.replicate 64 0

/-- The octets of consecutive blocks. -/
def octets (blocks : List Block) : List UInt8 := blocks.flatMap Vector.toList

end Block

def wholeBlocks (data : List UInt8) : List Block :=
  if h : (data.take 64).length = 64 then
    ⟨(data.take 64).toArray, by rw [List.size_toArray, h]⟩ :: wholeBlocks (data.drop 64)
  else []
termination_by data.length
decreasing_by
  simp only [List.length_take] at h
  simp only [List.length_drop]
  omega

def leftover (data : List UInt8) : List UInt8 := data.drop (64 * (data.length / 64))

@[simp] theorem Block.octets_nil : octets [] = [] := rfl

@[simp] theorem Block.octets_cons (b : Block) (bs : List Block) :
    octets (b :: bs) = b.toList ++ octets bs :=
  List.flatMap_cons

theorem wholeBlocks_of_short {data : List UInt8} (h : data.length < 64) :
    wholeBlocks data = [] := by
  rw [wholeBlocks, dif_neg]
  rw [List.length_take]
  omega

theorem wholeBlocks_of_long {data : List UInt8} (h : 64 ≤ data.length) :
    ∃ b : Block, b.toList = data.take 64 ∧ wholeBlocks data = b :: wholeBlocks (data.drop 64) := by
  have ht : (data.take 64).length = 64 := by rw [List.length_take]; omega
  refine ⟨⟨(data.take 64).toArray, by rw [List.size_toArray, ht]⟩, rfl, ?_⟩
  rw [wholeBlocks, dif_pos ht]

theorem octets_wholeBlocks_append_leftover (data : List UInt8) :
    Block.octets (wholeBlocks data) ++ leftover data = data := by
  induction h : data.length using Nat.strongRecOn generalizing data with
  | _ n ih =>
    rcases Nat.lt_or_ge data.length 64 with hs | hl
    · rw [wholeBlocks_of_short hs, Block.octets_nil, List.nil_append, leftover,
        Nat.div_eq_of_lt hs, Nat.mul_zero, List.drop_zero]
    · obtain ⟨b, hb, hw⟩ := wholeBlocks_of_long hl
      have hd : (data.drop 64).length < n := by rw [List.length_drop]; omega
      have hrest := ih _ hd (data.drop 64) rfl
      have hdiv : 64 + 64 * ((data.length - 64) / 64) = 64 * (data.length / 64) := by omega
      rw [leftover, List.drop_drop, List.length_drop, hdiv] at hrest
      rw [hw, Block.octets_cons, hb, leftover, List.append_assoc, hrest, List.take_append_drop]

@[simp] theorem length_wholeBlocks (data : List UInt8) :
    (wholeBlocks data).length = data.length / 64 := by
  induction h : data.length using Nat.strongRecOn generalizing data with
  | _ n ih =>
    rcases Nat.lt_or_ge data.length 64 with hs | hl
    · rw [wholeBlocks_of_short hs, List.length_nil]
      omega
    · obtain ⟨b, _, hw⟩ := wholeBlocks_of_long hl
      rw [hw, List.length_cons, ih _ (by rw [List.length_drop]; omega) (data.drop 64) rfl,
        List.length_drop]
      omega

@[simp] theorem length_leftover (data : List UInt8) :
    (leftover data).length = data.length % 64 := by
  rw [leftover, List.length_drop]
  omega

end SecureHash
