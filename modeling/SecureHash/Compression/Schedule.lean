import SecureHash.Compression.Logic
import SecureHash.Octets.BigEndian

/-!
The message schedule: sixteen words read from a block and forty-eight more, each
made from four earlier ones.

The array is extended in place, by a loop or by the same writes in a straight
line.  Both overwrite every word before it is read, so the old content of the
array is scratch.
-/

namespace SecureHash

/-- How the repeated parts of a compression are carried out: as loops, or written
out step by step. -/
inductive Variant where
  | rolled
  | unrolled
deriving DecidableEq

abbrev Schedule := Vector UInt32 64

namespace Schedule

def zero : Schedule := Vector.replicate 64 0

/-- Write word `16 + t`.  Its four predecessors are `2`, `7`, `15` and `16` places
before it. -/
def extendAt (w : Schedule) (t : Fin 48) : Schedule :=
  w.set (t.val + 16)
    (smallSigma1 w[t.val + 14] + w[t.val + 9] + smallSigma0 w[t.val + 1] + w[t.val])

def extendLoop (w : Schedule) : Schedule := Fin.foldl 48 extendAt w

def extendStraight (w : Schedule) : Schedule :=
  w |>.extendAt 0 |>.extendAt 1 |>.extendAt 2 |>.extendAt 3 |>.extendAt 4 |>.extendAt 5
    |>.extendAt 6 |>.extendAt 7 |>.extendAt 8 |>.extendAt 9 |>.extendAt 10 |>.extendAt 11
    |>.extendAt 12 |>.extendAt 13 |>.extendAt 14 |>.extendAt 15 |>.extendAt 16 |>.extendAt 17
    |>.extendAt 18 |>.extendAt 19 |>.extendAt 20 |>.extendAt 21 |>.extendAt 22 |>.extendAt 23
    |>.extendAt 24 |>.extendAt 25 |>.extendAt 26 |>.extendAt 27 |>.extendAt 28 |>.extendAt 29
    |>.extendAt 30 |>.extendAt 31 |>.extendAt 32 |>.extendAt 33 |>.extendAt 34 |>.extendAt 35
    |>.extendAt 36 |>.extendAt 37 |>.extendAt 38 |>.extendAt 39 |>.extendAt 40 |>.extendAt 41
    |>.extendAt 42 |>.extendAt 43 |>.extendAt 44 |>.extendAt 45 |>.extendAt 46 |>.extendAt 47

def extend : Variant → Schedule → Schedule
  | .rolled => extendLoop
  | .unrolled => extendStraight

/-- Read the first sixteen words from the octets of a block. -/
def load (block : List UInt8) (w : Schedule) : Except Fault Schedule := do
  let front : Vector UInt32 16 ← overwritten (BigEndian.decodeWords block) (w.take 16)
  pure (front ++ w.drop 16)

/-- Fill the store with the schedule of `block`. -/
def expand (v : Variant) (block : List UInt8) : EStateM Fault Schedule Unit := do
  Checked.equal block.length 64
  let w ← load block (← get)
  set (extend v w)

/-- The loop and the straight line make the same writes in the same order. -/
theorem extendStraight_eq_extendLoop (w : Schedule) : extendStraight w = extendLoop w := rfl

theorem getElem_extendAt_self (w : Schedule) (t : Fin 48) :
    (w.extendAt t)[t.val + 16] =
      smallSigma1 w[t.val + 14] + w[t.val + 9] + smallSigma0 w[t.val + 1] + w[t.val] := by
  simp only [extendAt, Vector.getElem_set_self]

theorem getElem_extendAt_of_ne (w : Schedule) (t : Fin 48) {i : Nat} (hi : i < 64)
    (h : t.val + 16 ≠ i) : (w.extendAt t)[i] = w[i] := by
  simp only [extendAt, Vector.getElem_set_ne _ _ h]

theorem load_eq_ok {block : List UInt8} (old : Schedule) (h : block.length = 64) :
    ∃ w, load block old = .ok w ∧
      w.toList = BigEndian.readOver (old.toList.take 16) block ++ old.toList.drop 16 := by
  obtain ⟨front, hr, hf⟩ := BigEndian.run_decodeWords (n := 16) (old.take 16) h
  refine ⟨front ++ old.drop 16, ?_, ?_⟩
  · rw [load, overwritten_eq_ok hr]
    rfl
  · rw [Vector.toList_append, hf, Vector.toList_take, Vector.toList_drop]

theorem run_expand (v : Variant) {block : List UInt8} {old w : Schedule} (h : block.length = 64)
    (hw : load block old = .ok w) : (expand v block).run old = .ok () (extend v w) := by
  rw [expand, Checked.equal_eq_ok h]
  show EStateM.run (do let w ← monadLift (load block old); set (extend v w)) old = _
  rw [hw]
  rfl

theorem run_expand_of_ne (v : Variant) {block : List UInt8} (old : Schedule)
    (h : block.length ≠ 64) :
    (expand v block).run old = .error (.unequal block.length 64) old := by
  rw [expand, Checked.equal, if_neg h]
  rfl

end Schedule
end SecureHash
