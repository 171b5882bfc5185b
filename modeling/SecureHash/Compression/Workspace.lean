import SecureHash.Compression.Watched

/-!
Compression of blocks into the chaining words.

The schedule array travels beside the chaining words, so that many blocks can
share one.  A block arrives as octets of any number, and a wrong number stops the
run before either part of the workspace changes.
-/

namespace SecureHash

/-- Which variant the blocks of one call take, by their number in the call. -/
abbrev Strategy := Nat → Variant

def Strategy.uniform (v : Variant) : Strategy := fun _ => v

structure Workspace where
  state : ChainState
  schedule : Schedule

namespace Workspace

def ofState (state : ChainState) : Workspace := { state, schedule := Schedule.zero }

end Workspace

def transform (v : Variant) (block : List UInt8) : EStateM Fault Workspace Unit := do
  Checked.equal block.length 64
  let ws ← get
  let schedule ← overwritten (Schedule.expand v block) ws.schedule
  set { state := Rounds.apply v schedule ws.state, schedule : Workspace }

theorem run_transform (v : Variant) {block : List UInt8} {w : Schedule} (ws : Workspace)
    (h : block.length = 64) (hw : overwritten (Schedule.expand v block) ws.schedule = .ok w) :
    (transform v block).run ws = .ok () { state := Rounds.apply v w ws.state, schedule := w } := by
  rw [transform, Checked.equal_eq_ok h]
  show EStateM.run (do
    let w ← monadLift (overwritten (Schedule.expand v block) ws.schedule)
    set { state := Rounds.apply v w ws.state, schedule := w : Workspace }) ws = _
  rw [hw]
  rfl

theorem run_transform_of_ne (v : Variant) {block : List UInt8} (ws : Workspace)
    (h : block.length ≠ 64) :
    (transform v block).run ws = .error (.unequal block.length 64) ws := by
  rw [transform, Checked.equal, if_neg h]
  rfl

namespace Watched

variable {M : Type → Type → Type} [∀ σ, Monad (M σ)] [Watched M]

def transform (v : Variant) (block : Block) : M Workspace Unit := do
  let ws ← quietly get
  note { state := ws.state, block }
  quietly (SecureHash.transform v block.toList)

/-- Take blocks one after the other, the first of them being number `i`. -/
def transformFrom (choice : Strategy) : Nat → List Block → M Workspace Unit
  | _, [] => pure ()
  | i, block :: rest => do
    transform (choice i) block
    transformFrom choice (i + 1) rest

end Watched

def transformFrom (choice : Strategy) (i : Nat) (blocks : List Block) :
    EStateM Fault Workspace Unit := Watched.transformFrom choice i blocks

theorem transformFrom_cons (choice : Strategy) (i : Nat) (block : Block) (rest : List Block) :
    transformFrom choice i (block :: rest) =
      (do transform (choice i) block.toList; transformFrom choice (i + 1) rest) := rfl

def compressBlock (v : Variant) (state : ChainState) (block : Block) : Except Fault ChainState := do
  let ws ← overwritten (transform v block.toList) (Workspace.ofState state)
  pure ws.state

/-- The chaining words after all of `blocks`, with one schedule array for all. -/
def compressBlocks (choice : Strategy) (state : ChainState) (blocks : List Block) :
    Except Fault ChainState := do
  let ws ← overwritten (transformFrom choice 0 blocks) (Workspace.ofState state)
  pure ws.state

end SecureHash
