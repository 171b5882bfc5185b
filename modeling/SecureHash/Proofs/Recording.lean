import SecureHash.Proofs.Encoding

/-!
Hashing with a record of what is compressed.

A recorded run is one that keeps the inputs of the compressions it is shown, beside its store.
It is a run of the same program as a plain one.  With the record dropped it is the plain run,
whatever the store and also where it stops at a fault (`ErasesTo`), so what the record holds is
what the plain run compresses.
-/

namespace SecureHash
open Session (View)

/-- A store, and the inputs of the compressions made so far, the first of them in front. -/
structure Recorded (σ : Type) where
  store : σ
  inputs : List CompressionInput

abbrev RecordedM (σ : Type) := EStateM Fault (Recorded σ)

namespace Recorded

/-- Run `act` on the store, with nothing to record. -/
def quietly {σ α : Type} (act : EStateM Fault σ α) : RecordedM σ α := fun n =>
  match act.run n.store with
  | .ok a store => .ok a { n with store }
  | .error fault store => .error fault { n with store }

def note {σ : Type} (input : CompressionInput) : RecordedM σ Unit :=
  modify fun n => { n with inputs := n.inputs ++ [input] }

/-- Run `act` on a store of its own, and go on with its record. -/
def aside {σ τ α : Type} (store : τ) (act : RecordedM τ Unit) (read : τ → α) : RecordedM σ α := do
  let n ← get
  let after ← overwritten act { store, inputs := n.inputs }
  set { n with inputs := after.inputs }
  return read after.store

instance watched : Watched RecordedM where
  quietly := quietly
  note := note
  aside := aside

/-! ## The operations with a record -/

abbrev transform (v : Variant) (block : Block) : RecordedM Workspace Unit :=
  Watched.transform v block

abbrev transformFrom (choice : Strategy) (i : Nat) (blocks : List Block) :
    RecordedM Workspace Unit := Watched.transformFrom choice i blocks

abbrev absorb (choice : Strategy) (blocks : List Block) : RecordedM Hasher Unit :=
  Watched.absorb choice blocks

abbrev update (choice : Strategy) (data : List UInt8) : RecordedM Hasher Unit :=
  Watched.update choice data

abbrev updateFrom (plan : Plan) (i : Nat) (chunks : List (List UInt8)) : RecordedM Hasher Unit :=
  Watched.updateFrom plan i chunks

abbrev pad (choice : Strategy) : RecordedM Hasher Nat := Watched.pad choice

abbrev finalizeInto (choice : Strategy) (out : Vector UInt8 32) :
    RecordedM Hasher (Vector UInt8 32) := Watched.finalizeInto choice out

abbrev closeTwice (plan : Plan) (out : Vector UInt8 32) : RecordedM Hasher (Vector UInt8 32) :=
  Watched.closeTwice plan out

/-- Run `act` on a new hasher, for its result and its record. -/
def fresh {α : Type} (act : RecordedM Hasher α) : Except Fault (α × List CompressionInput) :=
  match act.run { store := Hasher.initial, inputs := [] } with
  | .ok a n => .ok (a, n.inputs)
  | .error e _ => .error e

def hash (plan : Plan) (data : List UInt8) : Except Fault (Digest × List CompressionInput) := do
  let result ← fresh (Watched.hashInto plan data (Vector.replicate 32 0))
  return (⟨result.1⟩, result.2)

def doubleHash (plan : Plan) (data : List UInt8) :
    Except Fault (Digest × List CompressionInput) := do
  let result ← fresh (Watched.doubleHashInto plan data (Vector.replicate 32 0))
  return (⟨result.1⟩, result.2)

/-! ## Without the record -/

section Erasure

variable {σ τ α β : Type}

def erase : EStateM.Result Fault (Recorded σ) α → EStateM.Result Fault σ α
  | .ok a n => .ok a n.store
  | .error fault n => .error fault n.store

/-- With the record dropped, `noted` does to any store what `plain` does. -/
def ErasesTo (noted : RecordedM σ α) (plain : EStateM Fault σ α) : Prop :=
  ∀ n, erase (noted.run n) = plain.run n.store

theorem ErasesTo.pure (a : α) : ErasesTo (σ := σ) (Pure.pure a) (Pure.pure a) := fun _ => rfl

theorem ErasesTo.bind {noted : RecordedM σ α} {plain : EStateM Fault σ α}
    {next : α → RecordedM σ β} {next' : α → EStateM Fault σ β} (h : ErasesTo noted plain)
    (hnext : ∀ a, ErasesTo (next a) (next' a)) : ErasesTo (noted >>= next) (plain >>= next') := by
  intro n
  rw [EStateM.run_bind, EStateM.run_bind, ← h n]
  cases noted.run n with
  | ok a m => exact hnext a m
  | error fault m => rfl

/-- What a recorded run comes to, the plain one comes to. -/
theorem ErasesTo.run_of_ok {noted : RecordedM σ α} {plain : EStateM Fault σ α}
    (h : ErasesTo noted plain) {n m : Recorded σ} {a : α} (hrun : noted.run n = .ok a m) :
    plain.run n.store = .ok a m.store := by
  rw [← h n, hrun]
  rfl

theorem ErasesTo.overwritten {noted : RecordedM σ Unit} {plain : EStateM Fault σ Unit}
    (h : ErasesTo noted plain) (n : Recorded σ) :
    (SecureHash.overwritten noted n).map store = SecureHash.overwritten plain n.store := by
  rw [SecureHash.overwritten, SecureHash.overwritten, ← h n]
  cases noted.run n with
  | ok a m => rfl
  | error fault m => rfl

theorem quietly_erases (act : EStateM Fault σ α) : ErasesTo (quietly act) act := by
  intro n
  show erase (quietly act n) = _
  rw [quietly]
  cases act.run n.store with
  | ok a after => rfl
  | error fault after => rfl

theorem note_erases (input : CompressionInput) :
    ErasesTo (σ := σ) (note input) (Pure.pure ()) := fun _ => rfl

theorem aside_erases {noted : RecordedM τ Unit} {plain : EStateM Fault τ Unit}
    (h : ErasesTo noted plain) (store : τ) (read : τ → α) :
    ErasesTo (σ := σ) (aside store noted read) (Watched.aside store plain read) := by
  intro n
  have hstart := h.overwritten { store, inputs := n.inputs }
  show erase ((aside store noted read).run n) =
    EStateM.run (liftM (SecureHash.overwritten plain store >>= fun after => Pure.pure (read after)))
      n.store
  rw [aside, run_get_bind, ← hstart]
  cases SecureHash.overwritten noted { store, inputs := n.inputs } with
  | ok after => rfl
  | error fault => rfl

theorem transform_erases (v : Variant) (block : Block) :
    ErasesTo (transform v block) (SecureHash.transform v block.toList) :=
  (quietly_erases get).bind fun _ => (note_erases _).bind fun _ => quietly_erases _

theorem transformFrom_erases (choice : Strategy) (i : Nat) (blocks : List Block) :
    ErasesTo (transformFrom choice i blocks) (SecureHash.transformFrom choice i blocks) := by
  induction blocks generalizing i with
  | nil => exact .pure ()
  | cons block rest ih => exact (transform_erases (choice i) block).bind fun _ => ih (i + 1)

theorem absorb_erases (choice : Strategy) (blocks : List Block) :
    ErasesTo (absorb choice blocks) (Hasher.absorb choice blocks) :=
  (quietly_erases get).bind fun _ =>
    (aside_erases (transformFrom_erases choice 0 blocks) _ _).bind fun _ => quietly_erases _

theorem update_erases (choice : Strategy) (data : List UInt8) :
    ErasesTo (update choice data) (Hasher.update choice data) :=
  (quietly_erases _).bind (absorb_erases choice)

theorem updateFrom_erases (plan : Plan) (i : Nat) (chunks : List (List UInt8)) :
    ErasesTo (updateFrom plan i chunks) (Hasher.updateFrom plan i chunks) := by
  induction chunks generalizing i with
  | nil => exact .pure ()
  | cons chunk rest ih => exact (update_erases (plan i) chunk).bind fun _ => ih (i + 1)

theorem pad_erases (choice : Strategy) : ErasesTo (pad choice) (Hasher.pad choice) :=
  (quietly_erases _).bind fun blocks => (absorb_erases choice blocks).bind fun _ => .pure _

end Erasure

end Recorded

/-! ## Blocks in a row -/

namespace CompressionInput

/-- The inputs of compressing blocks one after the other into `state`. -/
def chain (state : ChainState) : List Block → List CompressionInput
  | [] => []
  | block :: rest => { state, block } :: chain (Standard.compress state block) rest

theorem chain_append (state : ChainState) (front back : List Block) :
    chain state (front ++ back) =
      chain state front ++ chain (front.foldl Standard.compress state) back := by
  induction front generalizing state with
  | nil => rfl
  | cons block rest ih => simp only [List.cons_append, chain, ih, List.foldl_cons]

@[simp] theorem map_block_chain (state : ChainState) (blocks : List Block) :
    (chain state blocks).map block = blocks := by
  induction blocks generalizing state with
  | nil => rfl
  | cons block rest ih => simp only [chain, List.map_cons, ih]

end CompressionInput

open CompressionInput (chain chain_append)

/-- The inputs of the compressions that taking in `data` makes. -/
def Session.View.inputs (v : View) (data : List UInt8) : List CompressionInput :=
  chain v.state (wholeBlocks (v.pending ++ data))

theorem Session.View.inputs_append (v : View) (front back : List UInt8) :
    v.inputs (front ++ back) = v.inputs front ++ (v.extend front).inputs back := by
  rw [inputs, inputs, inputs, extend, ← List.append_assoc, wholeBlocks_append, chain_append]

/-! ## Recorded runs -/

namespace Recorded

theorem run_quietly {σ α : Type} {act : EStateM Fault σ α} {a : α} {n : Recorded σ} {after : σ}
    (h : act.run n.store = .ok a after) :
    (Watched.quietly act : RecordedM σ α).run n = .ok a { n with store := after } := by
  show quietly act n = _
  simp only [quietly, h]

theorem run_quietly_get {σ : Type} (n : Recorded σ) :
    (Watched.quietly get : RecordedM σ σ).run n = .ok n.store n := rfl

theorem run_note {σ : Type} (input : CompressionInput) (n : Recorded σ) :
    (Watched.note input : RecordedM σ Unit).run n =
      .ok () { n with inputs := n.inputs ++ [input] } := rfl

theorem run_aside {σ τ α : Type} {act : RecordedM τ Unit} {n : Recorded σ} {store : τ}
    {after : Recorded τ} (read : τ → α)
    (h : act.run { store, inputs := n.inputs } = .ok () after) :
    (Watched.aside store act read : RecordedM σ α).run n =
      .ok (read after.store) { n with inputs := after.inputs } := by
  show (aside store act read).run n = _
  rw [aside, run_get_bind, run_lift_bind_of_ok (overwritten_eq_ok h)]
  rfl

theorem run_transform (v : Variant) (block : Block) (n : Recorded Workspace) :
    (transform v block).run n = .ok ()
      { store := { state := Standard.compress n.store.state block
                   schedule := Schedule.ofBlock block }
        inputs := n.inputs ++ [{ state := n.store.state, block }] } := by
  rw [transform, Watched.transform, run_bind_of_ok (run_quietly_get n),
    run_bind_of_ok (run_note _ n)]
  exact run_quietly (run_transform_block v block n.store)

theorem run_transformFrom (choice : Strategy) (i : Nat) (blocks : List Block)
    (n : Recorded Workspace) :
    (transformFrom choice i blocks).run n = .ok ()
      { store :=
          { state := blocks.foldl Standard.compress n.store.state
            schedule := blocks.foldl (fun _ block => Schedule.ofBlock block) n.store.schedule }
        inputs := n.inputs ++ chain n.store.state blocks } := by
  induction blocks generalizing i n with
  | nil =>
    rw [chain, List.append_nil]
    rfl
  | cons block rest ih =>
    rw [transformFrom, Watched.transformFrom, run_bind_of_ok (run_transform (choice i) block n), ih,
      List.append_assoc, chain, List.singleton_append, List.foldl_cons, List.foldl_cons]

theorem run_absorb (choice : Strategy) (blocks : List Block) (n : Recorded Hasher) :
    (absorb choice blocks).run n = .ok ()
      { store := { n.store with state := blocks.foldl Standard.compress n.store.state }
        inputs := n.inputs ++ chain n.store.state blocks } := by
  rw [absorb, Watched.absorb, run_bind_of_ok (run_quietly_get n),
    run_bind_of_ok (run_aside Workspace.state (run_transformFrom choice 0 blocks _))]
  exact run_quietly rfl

theorem run_update (choice : Strategy) (data : List UInt8) (n : Recorded Hasher) :
    ∃ after, (update choice data).run n = .ok ()
        { store := after, inputs := n.inputs ++ (View.of n.store).inputs data } ∧
      View.of after = (View.of n.store).extend data := by
  obtain ⟨after, hplain, hview⟩ := Hasher.run_update choice data n.store
  obtain ⟨buffer, hfeed, -⟩ := Hasher.run_feed n.store data
  have hrun := run_absorb choice (wholeBlocks (n.store.pending ++ data))
    { n with store := { n.store.counted data with buffer } }
  rw [← run_bind_of_ok (run_quietly hfeed) (absorb choice)] at hrun
  -- The plain run says which hasher is left.  Only the record is new.
  have herase := (update_erases choice data).run_of_ok hrun
  rw [hplain] at herase
  injection herase with _ hafter
  exact ⟨after, by rw [hafter]; exact hrun, hview⟩

theorem run_updateFrom (plan : Plan) (i : Nat) (chunks : List (List UInt8)) (n : Recorded Hasher) :
    ∃ after, (updateFrom plan i chunks).run n = .ok ()
        { store := after, inputs := n.inputs ++ (View.of n.store).inputs chunks.flatten } ∧
      View.of after = (View.of n.store).extend chunks.flatten := by
  induction chunks generalizing i n with
  | nil =>
    have hshort := n.store.length_pending_lt
    have hnone : (View.of n.store).inputs [] = [] := by
      rw [View.inputs, List.append_nil]
      exact congrArg (chain _) (wholeBlocks_of_short hshort)
    refine ⟨n.store, ?_, ?_⟩
    · rw [List.flatten_nil, hnone, List.append_nil]
      rfl
    · rw [List.flatten_nil, View.extend_nil hshort]
  | cons chunk rest ih =>
    obtain ⟨middle, hchunk, hmiddle⟩ := run_update (plan i) chunk n
    obtain ⟨after, hrest, hafter⟩ := ih (i + 1)
      { store := middle, inputs := n.inputs ++ (View.of n.store).inputs chunk }
    refine ⟨after, ?_, ?_⟩
    · rw [updateFrom, Watched.updateFrom, run_bind_of_ok hchunk, hrest, hmiddle, List.append_assoc,
        ← View.inputs_append, List.flatten_cons]
    · rw [hafter, hmiddle, View.extend_extend, List.flatten_cons]

theorem run_pad (choice : Strategy) (n : Recorded Hasher) :
    (pad choice).run n = .ok (View.of n.store).paddedBlocks.length
      { store := (View.of n.store).afterPad
        inputs := n.inputs ++ chain n.store.state (View.of n.store).paddedBlocks } := by
  rw [pad, Watched.pad, run_bind_of_ok (run_quietly (Hasher.run_padBlocks n.store)),
    run_bind_of_ok (run_absorb choice _ _)]
  rfl

theorem run_finalizeInto (choice : Strategy) (out : Vector UInt8 32) (n : Recorded Hasher) :
    (finalizeInto choice out).run n = .ok (View.of n.store).digest.octets
      { store := Hasher.initial
        inputs := n.inputs ++ chain n.store.state (View.of n.store).paddedBlocks } := by
  rw [finalizeInto, Watched.finalizeInto, run_bind_of_ok (run_pad choice n)]
  refine run_quietly ?_
  rw [run_get_bind, run_lift_bind_of_ok (Hasher.overwritten_encodeWords _ out)]
  exact run_bind_of_ok (Hasher.run_reset _) _

/-! ## Whole messages -/

theorem inputs_initial (message : List UInt8) :
    (View.of Hasher.initial).inputs message =
      chain ChainState.initial (wholeBlocks message) := rfl

/-- The inputs of the data and those of the padding are the padded blocks in a row. -/
theorem inputs_append_chain (message : List UInt8) {after : Hasher}
    (h : View.of after = View.ofMessage message) :
    (View.of Hasher.initial).inputs message ++ chain after.state (View.of after).paddedBlocks =
      chain ChainState.initial (Standard.blocks message) := by
  have hstate : after.state = (View.ofMessage message).state := congrArg View.state h
  rw [inputs_initial, h, hstate, View.state_ofMessage, ← chain_append,
    View.wholeBlocks_append_paddedBlocks, Standard.blocks]

/-- A message that is taken in and closed compresses its padded blocks in a row. -/
theorem run_message (first second : Strategy) (message : List UInt8) (out : Vector UInt8 32)
    (inputs : List CompressionInput) :
    (do update first message; finalizeInto second out : RecordedM Hasher (Vector UInt8 32)).run
        { store := Hasher.initial, inputs } =
      .ok (View.ofMessage message).digest.octets
        { store := Hasher.initial
          inputs := inputs ++ chain ChainState.initial (Standard.blocks message) } := by
  obtain ⟨after, hupdate, hview⟩ := run_update first message { store := Hasher.initial, inputs }
  have hafter : View.of after = View.ofMessage message := hview
  rw [run_bind_of_ok hupdate, run_finalizeInto, List.append_assoc,
    inputs_append_chain message hafter, hafter]

theorem run_closeTwice (plan : Plan) (out : Vector UInt8 32) (n : Recorded Hasher) :
    (closeTwice plan out).run n =
      .ok (View.ofMessage (View.of n.store).digest.octets.toList).digest.octets
        { store := Hasher.initial
          inputs := n.inputs ++ chain n.store.state (View.of n.store).paddedBlocks ++
            chain ChainState.initial
              (Standard.blocks (View.of n.store).digest.octets.toList) } := by
  rw [closeTwice, Watched.closeTwice, run_bind_of_ok (run_finalizeInto (plan 1) out n)]
  exact run_message (plan 2) (plan 3) _ _ _

theorem hash_eq (plan : Plan) (message : List UInt8) :
    hash plan message = .ok ((View.ofMessage message).digest,
      chain ChainState.initial (Standard.blocks message)) := by
  rw [hash, fresh, Watched.hashInto, run_message]
  rfl

theorem doubleHash_eq (plan : Plan) (message : List UInt8) :
    doubleHash plan message =
      let first := (View.ofMessage message).digest.octets.toList
      .ok ((View.ofMessage first).digest,
        chain ChainState.initial (Standard.blocks message) ++
          chain ChainState.initial (Standard.blocks first)) := by
  obtain ⟨after, hupdate, hview⟩ := run_update (plan 0) message
    { store := Hasher.initial, inputs := [] }
  have hafter : View.of after = View.ofMessage message := hview
  rw [doubleHash, fresh, Watched.doubleHashInto, run_bind_of_ok hupdate, run_closeTwice,
    List.nil_append, inputs_append_chain message hafter, hafter]
  rfl

end Recorded

/-- The blocks that a new hasher compresses for a message, in any chunks and with the padding, are
those of the padded message in a row. -/
theorem Recorded.run_chunks_pad (plan : Plan) (chunks : List (List UInt8)) :
    ∃ count after,
      (do updateFrom plan 0 chunks; pad (plan chunks.length) : RecordedM Hasher Nat).run
          { store := Hasher.initial, inputs := [] } =
        .ok count { store := after
                    inputs := chain ChainState.initial (Standard.blocks chunks.flatten) } ∧
      after.state =
        (Standard.blocks chunks.flatten).foldl Standard.compress ChainState.initial := by
  obtain ⟨middle, hupdate, hview⟩ := run_updateFrom plan 0 chunks
    { store := Hasher.initial, inputs := [] }
  have hmiddle : View.of middle = View.ofMessage chunks.flatten := hview
  refine ⟨(View.of middle).paddedBlocks.length, (View.of middle).afterPad, ?_, ?_⟩
  · rw [run_bind_of_ok hupdate, run_pad, List.nil_append, inputs_append_chain _ hmiddle]
  · rw [View.afterPad, hmiddle, View.closed_eq_foldl_blocks]

/-- A new hasher that takes in a message in any chunks and is padded compresses the blocks of
that message, as many as its octets, the mark and the count need, and the message in front.  The
record leaves the run as it is, and the recorded blocks lead to the chaining words it ends in.
Short messages have different blocks, and none of them ends in all the blocks of another. -/
theorem blocks_encode_message :
    (∀ (plan : Plan) (chunks : List (List UInt8)), ∃ count inputs after,
      (do Hasher.updateFrom plan 0 chunks; Hasher.pad (plan chunks.length) : HasherM Nat).run
          Hasher.initial = .ok count after ∧
      (do Recorded.updateFrom plan 0 chunks; Recorded.pad (plan chunks.length) :
          RecordedM Hasher Nat).run { store := Hasher.initial, inputs := [] } =
        .ok count { store := after, inputs } ∧
      inputs.map CompressionInput.block = Standard.blocks chunks.flatten ∧
      ∀ v : Variant, (Standard.blocks chunks.flatten).foldlM (compressBlock v) ChainState.initial =
        .ok after.state) ∧
    (∀ message : List UInt8,
      (Standard.blocks message).length = (message.length + 9) ⌈/⌉ 64 ∧
      message <+: Block.octets (Standard.blocks message)) ∧
    ∀ message other : List UInt8, message ≠ other →
      message.length < 2 ^ 61 → other.length < 2 ^ 61 →
      Standard.blocks message ≠ Standard.blocks other ∧
      ¬ Standard.blocks message <:+ Standard.blocks other ∧
      ¬ Standard.blocks other <:+ Standard.blocks message := by
  refine ⟨?_, fun message => ⟨Standard.length_blocks message,
    Standard.message_prefix_octets_blocks message⟩, ?_⟩
  · intro plan chunks
    obtain ⟨count, after, hrun, hstate⟩ := Recorded.run_chunks_pad plan chunks
    have herases := (Recorded.updateFrom_erases plan 0 chunks).bind fun _ =>
      Recorded.pad_erases (plan chunks.length)
    refine ⟨count, _, after, herases.run_of_ok hrun, hrun, CompressionInput.map_block_chain _ _, ?_⟩
    intro v
    rw [foldlM_compressBlock, hstate]
  · intro message other hne hm ho
    have hforth : ¬ Standard.blocks message <:+ Standard.blocks other := fun h =>
      hne ((Standard.blocks_suffix_iff hm ho).mp h)
    have hback : ¬ Standard.blocks other <:+ Standard.blocks message := fun h =>
      hne ((Standard.blocks_suffix_iff ho hm).mp h).symm
    exact ⟨fun h => hforth (h ▸ List.suffix_rfl), hforth, hback⟩

/-- A message, and the same one with the mark of its padding as data. -/
theorem blocks_encode_message_of_mark :
    ([1] : List UInt8) ≠ [1, 0x80] ∧ ([1] : List UInt8).length < 2 ^ 61 ∧
      ([1, 0x80] : List UInt8).length < 2 ^ 61 ∧
      Standard.blocks [1] ≠ Standard.blocks [1, 0x80] ∧
      ¬ Standard.blocks [1] <:+ Standard.blocks [1, 0x80] ∧
      ¬ Standard.blocks [1, 0x80] <:+ Standard.blocks [1] := by
  have hne : ([1] : List UInt8) ≠ [1, 0x80] := by decide
  have hone : ([1] : List UInt8).length < 2 ^ 61 := by decide
  have htwo : ([1, 0x80] : List UInt8).length < 2 ^ 61 := by decide
  exact ⟨hne, hone, htwo, blocks_encode_message.2.2 [1] [1, 0x80] hne hone htwo⟩

end SecureHash
