import SecureHash.Checked

/-!
Cutting data into chunks of given sizes.

The sizes must cover the data exactly.  Their sum is taken and compared before the
first chunk is handed out, so a refused cut has shown nothing to the visitor.  A
size of zero gives an empty chunk.
-/

namespace SecureHash
namespace Chunking

def total (sizes : List Nat) : Except Fault Nat := sizes.foldlM Checked.add 0

def checkCover (data : List UInt8) (sizes : List Nat) : Except Fault Unit := do
  let sum ← total sizes
  if sum = data.length then pure () else throw (.uncovered sum data.length)

variable {m : Type → Type} [Monad m] [MonadLiftT (Except Fault) m]

def handOut (visit : List UInt8 → m Unit) : List UInt8 → List Nat → m Unit
  | _, [] => pure ()
  | rest, size :: sizes => do
    let (chunk, rest) ← Checked.split rest size
    visit chunk
    handOut visit rest sizes

def forEachChunk (data : List UInt8) (sizes : List Nat) (visit : List UInt8 → m Unit) : m Unit := do
  checkCover data sizes
  handOut visit data sizes

def split (data : List UInt8) (sizes : List Nat) : Except Fault (List (List UInt8)) := do
  let visit (chunk : List UInt8) : EStateM Fault (List (List UInt8)) Unit :=
    modify fun chunks => chunk :: chunks
  let chunks ← overwritten (forEachChunk data sizes visit) []
  return chunks.reverse

end Chunking
end SecureHash
