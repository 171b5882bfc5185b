import SecureHash.Chunking.Stream
import SecureHash.Session
import SecureHash.Proofs.Compression

/-!
Loops and straight lines are interchangeable.

The two variants of a compression are one function of the block and the workspace
(`transform_irrel`).  A variant is looked at nowhere else, so from there on the argument is the
same at each level: an operation that only hands its strategy on does not depend on it, in any
kind of run.
-/

namespace SecureHash

/-! ## One block -/

theorem Schedule.extend_irrel (v w : Variant) : extend v = extend w := by
  have hloop : ∀ u : Variant, extend u = extendLoop := fun u => by
    cases u with
    | rolled => rfl
    | unrolled => exact funext extendStraight_eq_extendLoop
  rw [hloop v, hloop w]

theorem Schedule.expand_irrel (v w : Variant) : expand v = expand w := by
  funext block
  rw [expand, expand, extend_irrel v w]

theorem Rounds.apply_irrel (v w : Variant) : apply v = apply w := by
  funext schedule state
  rw [apply, apply, mix_eq_mixLoop, mix_eq_mixLoop]

/-- Whatever the octets are, also where they are no block and are refused. -/
theorem transform_irrel (v w : Variant) : transform v = transform w := by
  funext block
  rw [transform, transform, Schedule.expand_irrel v w, Rounds.apply_irrel v w]

/-! ## Calls -/

namespace Watched

variable {M : Type → Type → Type} [∀ σ, Monad (M σ)] [Watched M]

theorem transformFrom_irrel (choice other : Strategy) (i j : Nat) (blocks : List Block) :
    (transformFrom choice i blocks : M Workspace Unit) = transformFrom other j blocks := by
  induction blocks generalizing i j with
  | nil => rfl
  | cons block rest ih =>
    rw [transformFrom, transformFrom, transform, transform,
      SecureHash.transform_irrel (choice i) (other j), ih (i + 1) (j + 1)]

theorem absorb_irrel (choice other : Strategy) (blocks : List Block) :
    (absorb choice blocks : M Hasher Unit) = absorb other blocks := by
  rw [absorb, absorb, transformFrom_irrel choice other 0 0]

theorem update_irrel (choice other : Strategy) (data : List UInt8) :
    (update choice data : M Hasher Unit) = update other data := by
  simp only [update, absorb_irrel choice other]

theorem updateFrom_irrel (plan other : Plan) (i j : Nat) (chunks : List (List UInt8)) :
    (updateFrom plan i chunks : M Hasher Unit) = updateFrom other j chunks := by
  induction chunks generalizing i j with
  | nil => rfl
  | cons chunk rest ih =>
    rw [updateFrom, updateFrom, update_irrel (plan i) (other j), ih (i + 1) (j + 1)]

theorem pad_irrel (choice other : Strategy) : (pad choice : M Hasher Nat) = pad other := by
  simp only [pad, absorb_irrel choice other]

theorem finalizeInto_irrel (choice other : Strategy) (out : Vector UInt8 32) :
    (finalizeInto choice out : M Hasher (Vector UInt8 32)) = finalizeInto other out := by
  rw [finalizeInto, finalizeInto, pad_irrel choice other]

theorem hashInto_irrel (plan other : Plan) (data : List UInt8) (out : Vector UInt8 32) :
    (hashInto plan data out : M Hasher (Vector UInt8 32)) = hashInto other data out := by
  rw [hashInto, hashInto, update_irrel (plan 0) (other 0), finalizeInto_irrel (plan 1) (other 1)]

theorem closeTwice_irrel (plan other : Plan) (out : Vector UInt8 32) :
    (closeTwice plan out : M Hasher (Vector UInt8 32)) = closeTwice other out := by
  simp only [closeTwice, finalizeInto_irrel (plan 1) (other 1), update_irrel (plan 2) (other 2),
    finalizeInto_irrel (plan 3) (other 3)]

theorem doubleHashInto_irrel (plan other : Plan) (data : List UInt8) (out : Vector UInt8 32) :
    (doubleHashInto plan data out : M Hasher (Vector UInt8 32)) =
      doubleHashInto other data out := by
  rw [doubleHashInto, doubleHashInto, update_irrel (plan 0) (other 0), closeTwice_irrel plan other]

end Watched

namespace Hasher

theorem update_irrel (choice other : Strategy) : update choice = update other :=
  funext (Watched.update_irrel choice other)

theorem updateFrom_irrel (plan other : Plan) (i j : Nat) :
    updateFrom plan i = updateFrom other j := funext (Watched.updateFrom_irrel plan other i j)

theorem pad_irrel (choice other : Strategy) : pad choice = pad other :=
  Watched.pad_irrel choice other

theorem finalizeInto_irrel (choice other : Strategy) :
    finalizeInto choice = finalizeInto other := funext (Watched.finalizeInto_irrel choice other)

theorem finalize_irrel (choice other : Strategy) : finalize choice = finalize other := by
  rw [finalize, finalize, finalizeInto_irrel choice other]

end Hasher

theorem hashInto_irrel (plan other : Plan) : hashInto plan = hashInto other := by
  funext data out
  rw [hashInto, hashInto, Watched.hashInto_irrel plan other]

theorem hash_irrel (plan other : Plan) : hash plan = hash other := by
  funext data
  rw [hash, hash, hashInto_irrel plan other]

theorem doubleHashInto_irrel (plan other : Plan) : doubleHashInto plan = doubleHashInto other := by
  funext data out
  rw [doubleHashInto, doubleHashInto, Watched.doubleHashInto_irrel plan other]

theorem doubleHash_irrel (plan other : Plan) : doubleHash plan = doubleHash other := by
  funext data
  rw [doubleHash, doubleHash, doubleHashInto_irrel plan other]

namespace Chunking

theorem stream_irrel (plan other : Plan) : stream plan = stream other := by
  funext data sizes
  simp only [stream, Hasher.summarize, Hasher.updateFrom_irrel plan other 0 0,
    fun i => Hasher.finalize_irrel (plan i) (other i)]

theorem streamStrided_irrel (plan other : Plan) : streamStrided plan = streamStrided other := by
  funext data stride
  rw [streamStrided, streamStrided, stream_irrel plan other]

theorem survey_irrel (plan other : Plan) : survey plan = survey other := by
  funext data
  rw [survey, survey, stream_irrel plan other]

end Chunking

namespace Session

theorem step_irrel (choice other : Strategy) : step choice = step other := by
  funext st
  cases st with
  | update name data => rw [step, step, Hasher.update_irrel choice other]
  | finalize name => rw [step, step, Hasher.finalize_irrel choice other]
  | finalizeInto name out => rw [step, step, Hasher.finalizeInto_irrel choice other]
  | pad name => rw [step, step, Hasher.pad_irrel choice other]
  | _ => rfl

/-- The steps of two runs decide, and not their strategies. -/
theorem run_irrel (steps : List (Strategy × Strategy × Step)) :
    run (steps.map fun x => (x.1, x.2.2)) = run (steps.map fun x => (x.2.1, x.2.2)) := by
  induction steps with
  | nil => rfl
  | cons first rest ih =>
    obtain ⟨choice, other, st⟩ := first
    rw [List.map_cons, List.map_cons, run, run, step_irrel choice other, ih]

end Session

/-- The variant of a compression does not show: not in the schedule that a block expands to,
whatever the array held, not in the chaining words, whatever the schedule is, and so in no
digest, summary, reply or store, with a choice of its own for every block.  The rounds only
read the schedule and leave it as it was expanded. -/
theorem variants_agree :
    (∀ (block : Block) (old other : Schedule), ∃ w,
      (Schedule.expand .rolled block.toList).run old = .ok () w ∧
      (Schedule.expand .unrolled block.toList).run other = .ok () w ∧
      ∀ (v : Variant) (state : ChainState),
        (transform v block.toList).run { state, schedule := old } =
          .ok () { state := Rounds.apply v w state, schedule := w }) ∧
    (∀ (w : Schedule) (state : ChainState),
      Rounds.apply .rolled w state = Rounds.apply .unrolled w state) ∧
    transform .rolled = transform .unrolled ∧
    (∀ plan other : Plan,
      hash plan = hash other ∧ hashInto plan = hashInto other ∧
      doubleHash plan = doubleHash other ∧ doubleHashInto plan = doubleHashInto other ∧
      Chunking.stream plan = Chunking.stream other ∧
      Chunking.streamStrided plan = Chunking.streamStrided other ∧
      Chunking.survey plan = Chunking.survey other) ∧
    ∀ steps : List (Strategy × Strategy × Session.Step),
      Session.run (steps.map fun x => (x.1, x.2.2)) =
        Session.run (steps.map fun x => (x.2.1, x.2.2)) := by
  refine ⟨?_, fun w state => congrFun (congrFun (Rounds.apply_irrel _ _) w) state,
    transform_irrel _ _, ?_, Session.run_irrel⟩
  · intro block old other
    refine ⟨Schedule.ofBlock block, Schedule.run_expand_block .rolled block old,
      Schedule.run_expand_block .unrolled block other, ?_⟩
    intro v state
    exact run_transform v { state, schedule := old } Vector.length_toList
      (overwritten_eq_ok (Schedule.run_expand_block v block old))
  · intro plan other
    exact ⟨hash_irrel plan other, hashInto_irrel plan other, doubleHash_irrel plan other,
      doubleHashInto_irrel plan other, Chunking.stream_irrel plan other,
      Chunking.streamStrided_irrel plan other, Chunking.survey_irrel plan other⟩

end SecureHash
