import SecureHash.Hasher.Basic

/-!
Taking in data.

The octets that complete the pending block go through the buffer, whole blocks are
taken straight from the data, and what remains waits in the buffer.  `feed` does
all of that except compress: it gives the completed blocks in their order.  Too
little data to complete a block only lengthens the pending part.
-/

namespace SecureHash
namespace Hasher

/-- Take `data` into the buffer and the count, and give the blocks it completes. -/
def feed (data : List UInt8) : HasherM (List Block) := do
  if data.isEmpty then return []
  let r := (← get).pendingLength
  modify fun h => { h with bitCount := h.bitCount + (UInt64.ofNat data.length <<< 3) }
  let room ← Checked.sub 64 r
  if data.length < room then
    fill r (← Checked.add r data.length) data
    return []
  let (head, rest) ← Checked.split data room
  fill r 64 head
  let completed := (← get).buffer
  let tail := leftover rest
  fill 0 tail.length tail
  return completed :: wholeBlocks rest

end Hasher

def Watched.update {M : Type → Type → Type} [∀ σ, Monad (M σ)] [Watched M] (choice : Strategy)
    (data : List UInt8) : M Hasher Unit := do
  absorb choice (← quietly (Hasher.feed data))

namespace Hasher

def update (choice : Strategy) (data : List UInt8) : HasherM Unit := Watched.update choice data

theorem update_eq (choice : Strategy) (data : List UInt8) :
    update choice data = (do absorb choice (← feed data)) := rfl

end Hasher
end SecureHash
