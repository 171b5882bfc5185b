import SecureHash.Compression.Rounds
import SecureHash.Octets.Block

/-!
Runs that are shown what they compress.

What is compressed leaves no trace but the chaining words.  The operations that compress are
therefore written over any kind of run that can be shown the input of each compression before it
is made.  A plain run is of the kind that does not look.
-/

namespace SecureHash

/-- What one compression is given. -/
structure CompressionInput where
  state : ChainState
  block : Block
deriving DecidableEq

/-- Runs `M σ` on a store `σ`. -/
class Watched (M : Type → Type → Type) where
  /-- A step that compresses nothing. -/
  quietly {σ α : Type} (act : EStateM Fault σ α) : M σ α
  /-- Show what the compression that comes next is given. -/
  note {σ : Type} (input : CompressionInput) : M σ Unit
  /-- What `read` finds in a store of its own that `act` was run on. -/
  aside {σ τ α : Type} (store : τ) (act : M τ Unit) (read : τ → α) : M σ α

instance Watched.plain : Watched (EStateM Fault) where
  quietly act := act
  note _ := pure ()
  aside store act read := liftM (do
    let after ← overwritten act store
    pure (read after))

end SecureHash
