import SecureHash.Compression.Workspace

/-!
The streaming hasher: chaining words, a count of the bits taken in, and a buffer
for the block that is not full yet.

How much of the buffer is pending is not stored.  It follows from the count, which
runs modulo `2 ^ 64`; that is a multiple of a block, so the fill level stays right
when the count wraps.  The buffer beyond the fill level holds whatever earlier
blocks left there.
-/

namespace SecureHash

structure Hasher where
  state : ChainState
  /-- Bits taken in so far, modulo `2 ^ 64`. -/
  bitCount : UInt64
  buffer : Block

/-- A run of hasher operations.  A fault leaves the hasher as the last completed
write made it. -/
abbrev HasherM := EStateM Fault Hasher

namespace Hasher

def initial : Hasher :=
  { state := ChainState.initial, bitCount := 0, buffer := Block.zero }

instance : Inhabited Hasher := ⟨initial⟩

/-- A hasher with nothing in it, not even the initial chaining words. -/
def wiped : Hasher :=
  { state := ChainState.zero, bitCount := 0, buffer := Block.zero }

def pendingLength (h : Hasher) : Nat := ((h.bitCount >>> 3) &&& 0x3f).toNat

/-- The octets taken in and not compressed. -/
def pending (h : Hasher) : List UInt8 := h.buffer.toList.take h.pendingLength

def zeroize : HasherM Unit := set wiped

def reset : HasherM Unit := do
  zeroize
  modify fun h => { h with state := ChainState.initial }

/-- Pretend that `bits` bits are already compressed.  They must be whole blocks. -/
def setBitCount (bits : UInt64) : HasherM Unit := do
  Checked.equal (bits % 512).toNat 0
  modify fun h => { h with bitCount := bits }

/-- Put `src` into positions `start` to `stop` of the buffer. -/
def fill (start stop : Nat) (src : List UInt8) : HasherM Unit := do
  let buffer ← Checked.overwrite (← get).buffer start stop src
  modify fun h => { h with buffer }

end Hasher

/-- Compress blocks into the chaining words of the hasher. -/
def Watched.absorb {M : Type → Type → Type} [∀ σ, Monad (M σ)] [Watched M] (choice : Strategy)
    (blocks : List Block) : M Hasher Unit := do
  let h ← quietly get
  let state ← aside (Workspace.ofState h.state) (transformFrom choice 0 blocks) Workspace.state
  quietly (modify fun h => { h with state })

namespace Hasher

def absorb (choice : Strategy) (blocks : List Block) : HasherM Unit :=
  Watched.absorb choice blocks

theorem absorb_eq (choice : Strategy) (blocks : List Block) :
    absorb choice blocks = (do
      let state ← compressBlocks choice (← get).state blocks
      modify fun h => { h with state }) := rfl

theorem pendingLength_eq (h : Hasher) : h.pendingLength = h.bitCount.toNat / 8 % 64 := by
  rw [pendingLength, UInt64.toNat_and, UInt64.toNat_shiftRight]
  exact (Nat.and_two_pow_sub_one_eq_mod _ 6).trans (by rw [Nat.shiftRight_eq_div_pow]; rfl)

theorem pendingLength_lt (h : Hasher) : h.pendingLength < 64 := by
  rw [pendingLength_eq]
  exact Nat.mod_lt _ (by decide)

@[simp] theorem length_pending (h : Hasher) : h.pending.length = h.pendingLength := by
  rw [pending, List.length_take, Vector.length_toList,
    Nat.min_eq_left (Nat.le_of_lt h.pendingLength_lt)]

theorem length_pending_lt (h : Hasher) : h.pending.length < 64 := by
  rw [length_pending]
  exact h.pendingLength_lt

theorem run_fill (h : Hasher) {start stop : Nat} {src : List UInt8} (hs : start ≤ stop)
    (hn : stop ≤ 64) (hl : src.length = stop - start) :
    ∃ buffer, (fill start stop src).run h = .ok () { h with buffer } ∧
      buffer.toList = h.buffer.toList.take start ++ src ++ h.buffer.toList.drop stop := by
  obtain ⟨buffer, hb, ht⟩ := Checked.overwrite_eq_ok h.buffer hs hn hl
  refine ⟨buffer, ?_, ht⟩
  show EStateM.run (do
    let buffer ← monadLift (Checked.overwrite h.buffer start stop src)
    modify fun h : Hasher => { h with buffer }) h = _
  rw [hb]
  rfl

@[simp] theorem run_reset (h : Hasher) : reset.run h = .ok () initial := rfl

/-- The count is taken up or refused, and nothing else changes. -/
theorem run_setBitCount (h : Hasher) (bits : UInt64) :
    (setBitCount bits).run h =
      if bits % 512 = 0 then .ok () { h with bitCount := bits }
      else .error (.unequal (bits % 512).toNat 0) h := by
  have hzero : (bits % 512).toNat = 0 ↔ bits % 512 = 0 := by
    rw [← UInt64.toNat_inj]
    rfl
  by_cases hb : bits % 512 = 0
  · rw [setBitCount, Checked.equal, if_pos (hzero.mpr hb), if_pos hb]
    rfl
  · rw [setBitCount, Checked.equal, if_neg fun h => hb (hzero.mp h), if_neg hb]
    rfl

/-- Nothing is pending where the count is whole blocks. -/
theorem pending_of_blocks (h : Hasher) {bits : UInt64} (hb : bits % 512 = 0) :
    pending { h with bitCount := bits } = [] := by
  have hmod : bits.toNat % 512 = 0 := congrArg UInt64.toNat hb
  have hfill : pendingLength { h with bitCount := bits } = 0 := by
    rw [pendingLength_eq]
    show bits.toNat / 8 % 64 = 0
    omega
  rw [pending, hfill, List.take_zero]

end Hasher
end SecureHash
