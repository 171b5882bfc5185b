import SecureHash.Checked

/-!
Chunk sizes that repeat a stride until a length is covered.

The stride is gone through in laps.  Each step takes its size, or what is left if
that is less, and once nothing is left the steps take no more.  A step of zero takes
an empty chunk.  A lap that leaves the length uncovered and does not advance would
repeat for ever, and is refused.
-/

namespace SecureHash
namespace Chunking

/-- How much of a length the chosen sizes cover, with the latest of them first. -/
structure Cover where
  covered : Nat
  sizes : List Nat

namespace Cover

def empty : Cover := { covered := 0, sizes := [] }

/-- Take a chunk of `step`, or of what is left of `length`. -/
def advance (length : Nat) (c : Cover) (step : Nat) : Except Fault Cover :=
  if length ≤ c.covered then pure c
  else do
    let size := min step (← Checked.sub length c.covered)
    return { covered := ← Checked.add c.covered size, sizes := size :: c.sizes }

def lap (length : Nat) (stride : List Nat) (c : Cover) : Except Fault Cover :=
  stride.foldlM (advance length) c

def laps (length : Nat) (stride : List Nat) (c : Cover) : Except Fault Cover :=
  if length ≤ c.covered then pure c
  else do
    let next ← lap length stride c
    if c.covered < next.covered then laps length stride next else throw .idleStride
termination_by length - c.covered

end Cover

/-- The sizes that cover `length` in steps of `stride`, over and over. -/
def strided (length : Nat) (stride : List Nat) : Except Fault (List Nat) := do
  let cover ← Cover.laps length stride Cover.empty
  return cover.sizes.reverse

end Chunking
end SecureHash
