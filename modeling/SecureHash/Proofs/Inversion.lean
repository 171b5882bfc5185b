import SecureHash.Proofs.Compression

/-!
Rounds backwards.

A round moves six of the eight words unchanged, and they are enough to work out all that it adds
to the other two.  So it can be undone (`unround`), and sixty-four of them can, from the last to
the first and whatever the schedule holds (`mix_bijective`).

Where the rounds come out as zeros, and only there, the closing addition leaves the chaining
words as they were.  One state does that.
-/

namespace SecureHash

/-! ## One round -/

namespace Standard.Working

@[simp] theorem ofState_toState (v : Working) : ofState v.toState = v := rfl

/-- The variables that a round with `k` and `w` takes to `v`. -/
def unround (k w : UInt32) (v : Working) : Working :=
  let t1 := v.a - (upperSigma0 v.b + maj v.b v.c v.d)
  { a := v.b, b := v.c, c := v.d, d := v.e - t1, e := v.f, f := v.g, g := v.h
    h := t1 - w - k - ch v.f v.g v.h - upperSigma1 v.f }

theorem unround_round (k w : UInt32) (v : Working) : (v.round k w).unround k w = v := by
  simp only [round, unround, add_sub_cancel_right]

theorem round_unround (k w : UInt32) (v : Working) : (v.unround k w).round k w = v := by
  simp only [round, unround, sub_add_cancel]

end Standard.Working

namespace Rounds
open Standard (Working)

/-- The state that a round with `k` and `w` takes to `s`. -/
def unshift (s : ChainState) (k w : UInt32) : ChainState :=
  ((Working.ofState s).unround k w).toState

theorem unshift_shift (s : ChainState) (k w : UInt32) : unshift (shift s k w) k w = s := by
  rw [← Working.toState_ofState s, ← Working.toState_round, unshift, Working.ofState_toState,
    Working.unround_round]

theorem shift_unshift (s : ChainState) (k w : UInt32) : shift (unshift s k w) k w = s := by
  rw [unshift, ← Working.toState_round, Working.round_unround, Working.toState_ofState]

/-! ## All rounds -/

/-- The state that the rounds in `ts` take to `s`, the last of them undone first. -/
def unshifts (w : Schedule) (ts : List (Fin 64)) (s : ChainState) : ChainState :=
  ts.foldr (fun t s => unshift s (constants.get t) (w.get t)) s

theorem unshifts_foldl_shift (w : Schedule) (ts : List (Fin 64)) (s : ChainState) :
    unshifts w ts (ts.foldl (fun s t => shift s (constants.get t) (w.get t)) s) = s := by
  induction ts generalizing s with
  | nil => rfl
  | cons t rest ih =>
    rw [unshifts, List.foldr_cons, List.foldl_cons, ← unshifts, ih, unshift_shift]

theorem foldl_shift_unshifts (w : Schedule) (ts : List (Fin 64)) (s : ChainState) :
    ts.foldl (fun s t => shift s (constants.get t) (w.get t)) (unshifts w ts s) = s := by
  induction ts with
  | nil => rfl
  | cons t rest ih =>
    rw [unshifts, List.foldr_cons, List.foldl_cons, shift_unshift, ← unshifts, ih]

theorem mix_bijective (v : Variant) (w : Schedule) : Function.Bijective (mix v w) := by
  refine Function.bijective_iff_has_inverse.mpr ⟨unshifts w (List.finRange 64), ?_, ?_⟩
  · intro s
    rw [mix_eq_mixLoop, mixLoop_eq_foldl, unshifts_foldl_shift]
  · intro s
    rw [mix_eq_mixLoop, mixLoop_eq_foldl, foldl_shift_unshifts]

/-! ## The closing addition -/

/-- Taking the chaining words off again leaves the working variables. -/
theorem apply_sub (v : Variant) (w : Schedule) (s : ChainState) :
    (apply v w s).zipWith (· - ·) s = mix v w s := by
  apply Vector.ext
  intro i hi
  simp only [apply, feedForward, Vector.getElem_zipWith, add_sub_cancel_left]

theorem apply_eq_self_iff (v : Variant) (w : Schedule) (s : ChainState) :
    apply v w s = s ↔ mix v w s = ChainState.zero := by
  have hword : ∀ i (hi : i < 8), (apply v w s)[i] = s[i] ↔ (mix v w s)[i] = 0 := by
    intro i hi
    simp only [apply, feedForward, Vector.getElem_zipWith, add_eq_left]
  have hzero : ∀ i (hi : i < 8), ChainState.zero[i] = 0 := by
    intro i hi
    rw [ChainState.zero, Vector.getElem_replicate]
  rw [Vector.ext_iff, Vector.ext_iff]
  exact forall₂_congr fun i hi => by rw [hword i hi, hzero i hi]

end Rounds

theorem compressBlock_eq_self_iff (v : Variant) (block : Block) (s : ChainState) :
    compressBlock v s block = .ok s ↔
      Rounds.mixLoop (Schedule.ofBlock block) s = ChainState.zero := by
  rw [compressBlock_eq, ← Rounds.apply_ofBlock v, Except.ok.injEq, Rounds.apply_eq_self_iff,
    Rounds.mix_eq_mixLoop]

/-- The rounds lose no state, in either variant and with whatever words for a schedule: what they
add to the chaining words determines the chaining words, and may be any words.  So there is one
state, and only one, that the compression of a given block leaves as it was. -/
theorem rounds_lose_no_state :
    (∀ (v : Variant) (w : Schedule),
      (∀ s, (Rounds.apply v w s).zipWith (· - ·) s = Rounds.mix v w s) ∧
      Function.Bijective fun s => (Rounds.apply v w s).zipWith (· - ·) s) ∧
    ∀ block : Block, ∃ s : ChainState, ∀ (v : Variant) (t : ChainState),
      compressBlock v t block = .ok t ↔ t = s := by
  constructor
  · intro v w
    refine ⟨Rounds.apply_sub v w, ?_⟩
    rw [funext (Rounds.apply_sub v w)]
    exact Rounds.mix_bijective v w
  · intro block
    obtain ⟨s, hs, honly⟩ :=
      (Rounds.mix_bijective .rolled (Schedule.ofBlock block)).existsUnique ChainState.zero
    refine ⟨s, fun v t => ?_⟩
    rw [compressBlock_eq_self_iff]
    constructor
    · intro ht
      exact honly t ht
    · rintro rfl
      exact hs

end SecureHash
