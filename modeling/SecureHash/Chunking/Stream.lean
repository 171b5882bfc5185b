import SecureHash.Chunking.Composition
import SecureHash.Chunking.Split
import SecureHash.Chunking.Stride
import SecureHash.Message

/-!
Hashing data in chunks, for a look at whether the chunks matter.

A summary holds what a stream shows at its end.  A survey runs the stream once per
composition of the length and counts how often each summary came up.
-/

namespace SecureHash

/-- The count of bits just before the end of a message, and its digest. -/
structure Summary where
  bitCount : UInt64
  digest : Digest
deriving DecidableEq

/-- Take in chunks one after the other, the first of them being call `i`. -/
def Watched.updateFrom {M : Type → Type → Type} [∀ σ, Monad (M σ)] [Watched M] (plan : Plan) :
    Nat → List (List UInt8) → M Hasher Unit
  | _, [] => pure ()
  | i, chunk :: rest => do
    update (plan i) chunk
    updateFrom plan (i + 1) rest

namespace Hasher

def updateFrom (plan : Plan) (i : Nat) (chunks : List (List UInt8)) : HasherM Unit :=
  Watched.updateFrom plan i chunks

theorem updateFrom_cons (plan : Plan) (i : Nat) (chunk : List UInt8) (rest : List (List UInt8)) :
    updateFrom plan i (chunk :: rest) =
      (do update (plan i) chunk; updateFrom plan (i + 1) rest) := rfl

def summarize (choice : Strategy) : HasherM Summary := do
  let bitCount := (← get).bitCount
  return { bitCount, digest := ← finalize choice }

end Hasher

namespace Chunking

def stream (plan : Plan) (data : List UInt8) (sizes : List Nat) : Except Fault Summary := do
  let chunks ← split data sizes
  Hasher.fresh do
    Hasher.updateFrom plan 0 chunks
    Hasher.summarize (plan chunks.length)

/-- The number of chunks that `stride` makes of `data`, and the summary of the
stream. -/
def streamStrided (plan : Plan) (data : List UInt8) (stride : List Nat) :
    Except Fault (Nat × Summary) := do
  let sizes ← strided data.length stride
  return (sizes.length, ← stream plan data sizes)

/-- Distinct summaries, each with the number of streams that ended in it. -/
abbrev Tally := List (Summary × Nat)

def Tally.record : Tally → Summary → Tally
  | [], s => [(s, 1)]
  | (t, n) :: rest, s => if t = s then (t, n + 1) :: rest else (t, n) :: Tally.record rest s

def Tally.total (tally : Tally) : Nat := tally.foldl (fun n entry => n + entry.2) 0

/-- Stream `data` once for each composition of its length. -/
def survey (plan : Plan) (data : List UInt8) : Except Fault Tally :=
  (compositions data.length).foldlM (fun tally sizes => do
    return tally.record (← stream plan data sizes)) []

end Chunking
end SecureHash
