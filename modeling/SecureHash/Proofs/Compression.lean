import SecureHash.Compression.Workspace
import SecureHash.Proofs.Roots
import SecureHash.Proofs.Rotation
import SecureHash.Proofs.Schedule

/-!
Compression of a block is that of the standard, in both variants and from any scratch array.

With it the runs of the workspace turn into folds of `Standard.compress`
(`compressBlock_eq`, `compressBlocks_eq`), and later proofs do not look at rounds again.
-/

namespace SecureHash

namespace Standard

@[simp] theorem Working.toState_ofState (s : ChainState) : (ofState s).toState = s := by
  apply Vector.ext
  intro i hi
  have hlen : s.toList.length = 8 := Vector.length_toList
  match i, hi with
  | 0, _ | 1, _ | 2, _ | 3, _ | 4, _ | 5, _ | 6, _ | 7, _ =>
    simp [Working.toState, Working.ofState, List.getD_eq_getElem?_getD]

/-- A round in the shifting form is a round over named variables. -/
theorem Working.toState_round (k w : UInt32) (v : Working) :
    (v.round k w).toState = Rounds.shift v.toState k w := by
  simp only [Rounds.shift, Working.round, choose_eq_ch, majority_eq_maj, bigSigma0_eq_upperSigma0,
    bigSigma1_eq_upperSigma1]
  rfl

end Standard

theorem foldl_range_eq_foldl_finRange {α : Type} (n : Nat) (f : α → Nat → α) (a : α) :
    (List.range n).foldl f a = (List.finRange n).foldl (fun a (t : Fin n) => f a t.val) a := by
  rw [← List.map_coe_finRange_eq_range, List.foldl_map]

namespace Rounds

theorem mix_eq_mixLoop (v : Variant) (w : Schedule) (s : ChainState) : mix v w s = mixLoop w s := by
  cases v with
  | rolled => rfl
  | unrolled => exact mixStraight_eq_mixLoop w s

theorem toState_foldl_round (block : Block) (rounds : List (Fin 64)) (v : Standard.Working) :
    (rounds.foldl (fun v (t : Fin 64) =>
        v.round (Standard.constant t) (Standard.scheduleWord block t)) v).toState =
      rounds.foldl (fun s t => shift s (constants.get t) ((Schedule.ofBlock block).get t))
        v.toState := by
  induction rounds generalizing v with
  | nil => rfl
  | cons t rest ih =>
    have hword : (Schedule.ofBlock block).get t = Standard.scheduleWord block t :=
      Schedule.getElem_ofBlock block t.isLt
    rw [List.foldl_cons, List.foldl_cons, ih, Standard.Working.toState_round, hword,
      constants_eq_constant]

theorem mixLoop_ofBlock (block : Block) (s : ChainState) :
    mixLoop (Schedule.ofBlock block) s =
      ((List.range 64).foldl
        (fun v t => v.round (Standard.constant t) (Standard.scheduleWord block t))
        (Standard.Working.ofState s)).toState := by
  rw [mixLoop_eq_foldl, foldl_range_eq_foldl_finRange, toState_foldl_round,
    Standard.Working.toState_ofState]

theorem apply_ofBlock (v : Variant) (block : Block) (s : ChainState) :
    apply v (Schedule.ofBlock block) s = Standard.compress s block := by
  rw [apply, mix_eq_mixLoop, mixLoop_ofBlock]
  rfl

end Rounds

theorem run_transform_block (v : Variant) (block : Block) (ws : Workspace) :
    (transform v block.toList).run ws =
      .ok () { state := Standard.compress ws.state block, schedule := Schedule.ofBlock block } := by
  rw [run_transform v ws Vector.length_toList
    (overwritten_eq_ok (Schedule.run_expand_block v block ws.schedule)), Rounds.apply_ofBlock]

/-- Each block leaves its own schedule in the array, so the last one decides what is there. -/
theorem run_transformFrom (choice : Strategy) (i : Nat) (blocks : List Block) (ws : Workspace) :
    (transformFrom choice i blocks).run ws =
      .ok () { state := blocks.foldl Standard.compress ws.state
               schedule := blocks.foldl (fun _ block => Schedule.ofBlock block) ws.schedule } := by
  induction blocks generalizing i ws with
  | nil => rfl
  | cons block rest ih =>
    rw [transformFrom_cons, EStateM.run_bind, run_transform_block, List.foldl_cons, List.foldl_cons]
    exact ih (i + 1) _

theorem compressBlock_eq (v : Variant) (state : ChainState) (block : Block) :
    compressBlock v state block = .ok (Standard.compress state block) := by
  rw [compressBlock, overwritten_eq_ok (run_transform_block v block _)]
  rfl

/-- Blocks in a row, each with a schedule array of its own. -/
theorem foldlM_compressBlock (v : Variant) (state : ChainState) (blocks : List Block) :
    blocks.foldlM (compressBlock v) state = .ok (blocks.foldl Standard.compress state) := by
  induction blocks generalizing state with
  | nil => rfl
  | cons block rest ih =>
    rw [List.foldlM_cons, compressBlock_eq]
    exact ih _

theorem compressBlocks_eq (choice : Strategy) (state : ChainState) (blocks : List Block) :
    compressBlocks choice state blocks = .ok (blocks.foldl Standard.compress state) := by
  rw [compressBlocks, overwritten_eq_ok (run_transformFrom choice 0 blocks _)]
  rfl

/-- From any workspace, a block is compressed as the standard says, and the array then holds its
schedule and nothing of what it held before.  So many blocks can share one array: that comes to
the same as an array of zeros for each of them.  Octets that are no block are refused, and the
workspace stays as it was. -/
theorem transform_meets_standard (v : Variant) (ws : Workspace) :
    (∀ block : Block, ∃ w : Schedule,
      (∀ t : Fin 64, w.get t = Standard.scheduleWord block t) ∧
      (Schedule.expand v block.toList).run ws.schedule = .ok () w ∧
      (transform v block.toList).run ws =
        .ok () { state := Standard.compress ws.state block, schedule := w } ∧
      compressBlock v ws.state block = .ok (Standard.compress ws.state block)) ∧
    (∀ (choice : Strategy) (blocks : List Block), ∃ state : ChainState,
      (transformFrom choice 0 blocks).run ws =
        .ok () { state
                 schedule := blocks.foldl (fun _ block => Schedule.ofBlock block) ws.schedule } ∧
      compressBlocks choice ws.state blocks = .ok state ∧
      blocks.foldlM (compressBlock v) ws.state = .ok state) ∧
    ∀ octets : List UInt8, octets.length ≠ 64 →
      (transform v octets).run ws = .error (.unequal octets.length 64) ws ∧
      (Schedule.expand v octets).run ws.schedule =
        .error (.unequal octets.length 64) ws.schedule := by
  refine ⟨?_, ?_, ?_⟩
  · intro block
    exact ⟨Schedule.ofBlock block, fun t => Schedule.getElem_ofBlock block t.isLt,
      Schedule.run_expand_block v block ws.schedule, run_transform_block v block ws,
      compressBlock_eq v ws.state block⟩
  · intro choice blocks
    exact ⟨_, run_transformFrom choice 0 blocks ws, compressBlocks_eq choice ws.state blocks,
      foldlM_compressBlock v ws.state blocks⟩
  · intro octets hlen
    exact ⟨run_transform_of_ne v ws hlen, Schedule.run_expand_of_ne v ws.schedule hlen⟩

/-- A block and one octet more, with an array that holds something already. -/
theorem transform_meets_standard_of_surplus :
    let ws : Workspace :=
      { state := ChainState.initial, schedule := Vector.ofFn fun t => UInt32.ofNat t.val }
    let octets : List UInt8 := List.replicate 65 7
    octets.length ≠ 64 ∧
      (transform .unrolled octets).run ws = .error (.unequal 65 64) ws ∧
      (Schedule.expand .unrolled octets).run ws.schedule = .error (.unequal 65 64) ws.schedule := by
  intro ws octets
  have hlen : octets.length ≠ 64 := by decide
  exact ⟨hlen, (transform_meets_standard .unrolled ws).2.2 octets hlen⟩

end SecureHash
