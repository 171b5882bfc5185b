import SecureHash.Standard.Compression

/-!
SHA-256 of a whole message as FIPS 180-4 words it: pad, cut into blocks, compress
them one after the other, and write the last chaining words out.
-/

namespace SecureHash
namespace Standard

/-- The octets of `n` in `width` places of base 256, higher places cut off. -/
def digits256 (width n : Nat) : List UInt8 :=
  (List.range width).map fun i => UInt8.ofNat (n / 256 ^ (width - 1 - i))

/-- The least number of zeros that fill up a block after a message of `length`
octets, the mark and the length. -/
def zeroCount (length : Nat) : Nat := (55 + 64 - length % 64) % 64

def padded (message : List UInt8) : List UInt8 :=
  message ++ 0x80 :: List.replicate (zeroCount message.length) 0 ++
    digits256 8 (8 * message.length)

def initial : ChainState := Vector.ofFn fun i => initialWord i

def octetsOf (state : ChainState) : List UInt8 := state.toList.flatMap fun w => digits256 4 w.toNat

def hashState (message : List UInt8) : ChainState :=
  (wholeBlocks (padded message)).foldl compress initial

def hash (message : List UInt8) : List UInt8 := octetsOf (hashState message)

theorem length_padded (message : List UInt8) : (padded message).length % 64 = 0 := by
  simp only [padded, digits256, zeroCount, List.length_append, List.length_cons,
    List.length_replicate, List.length_map, List.length_range]
  omega

@[simp] theorem length_octetsOf (state : ChainState) : (octetsOf state).length = 32 := by
  simp only [octetsOf, List.length_flatMap, digits256, List.length_map, List.length_range,
    List.map_const', List.sum_replicate_nat, Vector.length_toList]

end Standard
end SecureHash
