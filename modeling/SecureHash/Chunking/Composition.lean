/-!
The ways to write a length as a sum of positive sizes, in order.

The walk keeps the sizes chosen so far on a stack, latest first.  It tries each
next size in turn, and takes a size off again once everything below it is visited,
so it leaves the stack as it found it.
-/

namespace SecureHash
namespace Composition

variable {m : Type → Type} [Monad m]

/-- Visit the stack, extended by each composition of `remaining`. -/
def walk (visit : List Nat → m Unit) (remaining : Nat) : StateT (List Nat) m Unit :=
  match remaining with
  | 0 => do visit (← get).reverse
  | r + 1 => (List.finRange (r + 1)).forM fun i => do
    modify fun stack => (i.val + 1) :: stack
    walk visit (r - i.val)
    modify List.tail
termination_by remaining

def forEach (length : Nat) (visit : List Nat → m Unit) : m Unit := do
  let _ ← (walk visit length).run []

end Composition

/-- The compositions of `length` in the order of the walk. -/
def compositions (length : Nat) : List (List Nat) :=
  let visit (sizes : List Nat) : StateM (List (List Nat)) Unit := modify fun found => sizes :: found
  ((Composition.forEach length visit).run []).2.reverse

end SecureHash
