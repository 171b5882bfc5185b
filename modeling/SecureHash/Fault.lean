/-!
The causes for which an operation of the library stops without a result, and
their wording.

A fault is a broken promise of the caller, such as a block of the wrong length
or chunk sizes that miss the input.  Text that a user may well get wrong, a
digest in hexadecimal, has an error type of its own beside the digest.
-/

namespace SecureHash

inductive Fault where
  /-- Two lengths that must agree do not. -/
  | unequal (left right : Nat)
  /-- Chunk sizes sum to `total`, and the input has `length` octets. -/
  | uncovered (total length : Nat)
  | sumOverflow
  | underflow
  /-- A range that ends at `stop` was asked of `length` positions. -/
  | outOfRange (stop length : Nat)
  /-- A copy of `source` octets was asked into `target` positions. -/
  | copyLength (source target : Nat)
  | oddHexLength
  | badHexDigit
  /-- No step of a stride advances. -/
  | idleStride
deriving DecidableEq

namespace Fault

def sides (left right : Nat) : String :=
  "\n  left: " ++ toString left ++ "\n right: " ++ toString right

def message : Fault → String
  | unequal left right => "assertion `left == right` failed" ++ sides left right
  | uncovered total length =>
    "assertion `left == right` failed: chunk sizes must cover the input exactly" ++
      sides total length
  | sumOverflow => "attempt to add with overflow"
  | underflow => "attempt to subtract with overflow"
  | outOfRange stop length =>
    "range end index " ++ toString stop ++ " out of range for slice of length " ++ toString length
  | copyLength source target =>
    "copy of " ++ toString source ++ " octets into " ++ toString target ++ " positions"
  | oddHexLength => "hex string has odd length"
  | badHexDigit => "invalid hex digit"
  | idleStride => "stride must contain a non-zero size"

end Fault

/-- Lets a step that needs no store stand in a run that has one. -/
instance liftExcept {ε σ : Type} : MonadLift (Except ε) (EStateM ε σ) where
  monadLift
    | .ok a => pure a
    | .error e => throw e

/-- The store that `act` leaves behind when started on `old`, or its fault. -/
def overwritten {ε τ : Type} (act : EStateM ε τ Unit) (old : τ) : Except ε τ :=
  match act.run old with
  | .ok _ new => .ok new
  | .error e _ => .error e

theorem overwritten_eq_ok {ε τ : Type} {act : EStateM ε τ Unit} {old new : τ}
    (h : act.run old = .ok () new) : overwritten act old = .ok new := by
  simp only [overwritten, h]

end SecureHash
