import SecureHash.Hasher.Padding
import SecureHash.Digest.Basic

/-!
Hashing a whole message, once or twice over.

A plan says which variant each block of each call takes.  The second pass of the
double hash goes through the same hasher and writes over the same octets.
-/

namespace SecureHash

/-- A strategy for each call in a run of calls, by the number of the call. -/
abbrev Plan := Nat → Strategy

def Plan.uniform (v : Variant) : Plan := fun _ => Strategy.uniform v

namespace Hasher

/-- Run `act` on a new hasher, for its result alone. -/
def fresh {α : Type} (act : HasherM α) : Except Fault α :=
  match act.run initial with
  | .ok a _ => .ok a
  | .error e _ => .error e

def finalize (choice : Strategy) : HasherM Digest := do
  return ⟨← finalizeInto choice (Vector.replicate 32 0)⟩

end Hasher

namespace Watched

variable {M : Type → Type → Type} [∀ σ, Monad (M σ)] [Watched M]

/-- Take in a message and close it. -/
def hashInto (plan : Plan) (data : List UInt8) (out : Vector UInt8 32) :
    M Hasher (Vector UInt8 32) := do
  update (plan 0) data
  finalizeInto (plan 1) out

/-- Close a hasher, take in its digest as a message, and close it again over the same
octets. -/
def closeTwice (plan : Plan) (out : Vector UInt8 32) : M Hasher (Vector UInt8 32) := do
  let first ← finalizeInto (plan 1) out
  update (plan 2) first.toList
  finalizeInto (plan 3) first

def doubleHashInto (plan : Plan) (data : List UInt8) (out : Vector UInt8 32) :
    M Hasher (Vector UInt8 32) := do
  update (plan 0) data
  closeTwice plan out

end Watched

def Hasher.closeTwice (plan : Plan) (out : Vector UInt8 32) : HasherM (Vector UInt8 32) :=
  Watched.closeTwice plan out

def hashInto (plan : Plan) (data : List UInt8) (out : Vector UInt8 32) :
    Except Fault (Vector UInt8 32) :=
  Hasher.fresh (Watched.hashInto plan data out)

def hash (plan : Plan) (data : List UInt8) : Except Fault Digest := do
  return ⟨← hashInto plan data (Vector.replicate 32 0)⟩

def doubleHashInto (plan : Plan) (data : List UInt8) (out : Vector UInt8 32) :
    Except Fault (Vector UInt8 32) :=
  Hasher.fresh (Watched.doubleHashInto plan data out)

def doubleHash (plan : Plan) (data : List UInt8) : Except Fault Digest := do
  return ⟨← doubleHashInto plan data (Vector.replicate 32 0)⟩

theorem Hasher.closeTwice_eq (plan : Plan) (out : Vector UInt8 32) :
    closeTwice plan out = (do
      let first ← finalizeInto (plan 1) out
      update (plan 2) first.toList
      finalizeInto (plan 3) first) := rfl

theorem hashInto_eq_fresh (plan : Plan) (data : List UInt8) (out : Vector UInt8 32) :
    hashInto plan data out =
      Hasher.fresh (do Hasher.update (plan 0) data; Hasher.finalizeInto (plan 1) out) := rfl

theorem doubleHashInto_eq_fresh (plan : Plan) (data : List UInt8) (out : Vector UInt8 32) :
    doubleHashInto plan data out =
      Hasher.fresh (do Hasher.update (plan 0) data; Hasher.closeTwice plan out) := rfl

end SecureHash
