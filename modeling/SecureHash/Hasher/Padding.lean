import SecureHash.Hasher.Update

/-!
Closing a message: a one bit, zeros, and the count of bits in the last eight
octets of a block.

The pending octets and the mark may leave no room for the count.  Then the block is
filled up and a second one, of zeros, carries the count.
-/

namespace SecureHash
namespace Hasher

/-- Where the count of bits begins in the last block. -/
def countOffset : Nat := Block.length - 8

/-- The one bit and the zeros after it, as many as could be wanted. -/
def padding : Block := Block.zero.set 0 0x80

/-- Fill the buffer up to position `stop` from position `start`, with the mark and
zeros. -/
def fillPadding (start stop : Nat) : HasherM Unit := do
  let (front, _) ← Checked.split padding.toList (← Checked.sub stop start)
  fill start stop front

/-- Pad the pending octets in the buffer, and give the one or two blocks that come
of it. -/
def padBlocks : HasherM (List Block) := do
  let r := (← get).pendingLength
  if r < countOffset then
    fillPadding r countOffset
    return [← writeCount]
  else
    fillPadding r 64
    let filled := (← get).buffer
    fill 0 countOffset (List.replicate countOffset 0)
    return [filled, ← writeCount]
where
  /-- The block in the buffer, with the count of bits at its end. -/
  writeCount : HasherM Block := do
    fill countOffset 64 (BigEndian.encode64 (← get).bitCount).toList
    return (← get).buffer

end Hasher

namespace Watched

variable {M : Type → Type → Type} [∀ σ, Monad (M σ)] [Watched M]

/-- Compress the padded pending octets, and give the number of blocks. -/
def pad (choice : Strategy) : M Hasher Nat := do
  let blocks ← quietly Hasher.padBlocks
  absorb choice blocks
  return blocks.length

/-- Write the chaining words of the padded message over `out`, and start anew. -/
def finalizeInto (choice : Strategy) (out : Vector UInt8 32) : M Hasher (Vector UInt8 32) := do
  let _ ← pad choice
  quietly do
    let octets ← overwritten (BigEndian.encodeWords (← get).state.toList) out
    Hasher.reset
    return octets

end Watched

namespace Hasher

def pad (choice : Strategy) : HasherM Nat := Watched.pad choice

def finalizeInto (choice : Strategy) (out : Vector UInt8 32) : HasherM (Vector UInt8 32) :=
  Watched.finalizeInto choice out

theorem pad_eq (choice : Strategy) :
    pad choice = (do
      let blocks ← padBlocks
      absorb choice blocks
      return blocks.length) := rfl

theorem finalizeInto_eq (choice : Strategy) (out : Vector UInt8 32) :
    finalizeInto choice out = (do
      let _ ← pad choice
      let octets ← overwritten (BigEndian.encodeWords (← get).state.toList) out
      reset
      return octets) := rfl

end Hasher
end SecureHash
