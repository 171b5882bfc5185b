import SecureHash.Proofs.Message
import SecureHash.Proofs.Steps

/-!
No hasher and no data make hashing stop with a fault.

Checks stand where a range, a copy, a difference, a sum or a length might be wrong, and each
lets through just what it should (`checks_exact`).  A run that ends well has passed all it
met.  Hashing does so from every hasher, with any count and any buffer, and of all steps of a
session only a count that is not whole blocks is refused.
-/

namespace SecureHash

/-! ## Checks -/

section Checks

variable {α : Type}

theorem exists_ite_eq_ok {p : Prop} [Decidable p] {a : α} {fault : Fault} :
    (∃ b, (if p then .ok a else .error fault : Except Fault α) = .ok b) ↔ p := by
  by_cases hp : p
  · rw [if_pos hp]
    exact ⟨fun _ => hp, fun _ => ⟨a, rfl⟩⟩
  · rw [if_neg hp]
    exact ⟨fun ⟨_, h⟩ => absurd h (by simp), fun h => absurd h hp⟩

theorem Checked.exists_split_eq_ok {l : List α} {n : Nat} :
    (∃ parts, split l n = .ok parts) ↔ n ≤ l.length := by
  rw [split, exists_ite_eq_ok, List.length_take]
  exact min_eq_left_iff

theorem Checked.exists_overwrite_eq_ok {n start stop : Nat} {old : Vector α n} {src : List α} :
    (∃ new, overwrite old start stop src = .ok new) ↔
      start ≤ stop ∧ stop ≤ n ∧ src.length = stop - start := by
  constructor
  · rintro ⟨new, h⟩
    rw [overwrite] at h
    split at h
    · rename_i hrange
      split at h
      · rename_i hlength
        exact ⟨hrange.1, hrange.2, hlength⟩
      · cases h
    · cases h
  · rintro ⟨hstart, hstop, hlength⟩
    obtain ⟨new, h, -⟩ := overwrite_eq_ok old hstart hstop hlength
    exact ⟨new, h⟩

theorem exists_run_eq_ok {σ : Type} {act : EStateM Fault σ Unit} {s : σ} {p : Prop}
    (hkept : p → ∃ after, act.run s = .ok () after)
    (hbroken : ¬ p → ∃ fault after, act.run s = .error fault after) :
    (∃ after, act.run s = .ok () after) ↔ p := by
  constructor
  · rintro ⟨after, h⟩
    by_contra hp
    obtain ⟨fault, other, hfault⟩ := hbroken hp
    rw [hfault] at h
    cases h
  · exact hkept

theorem BigEndian.exists_decodeWords_eq_ok {n : Nat} {octets : List UInt8}
    {old : Vector UInt32 n} :
    (∃ new, (decodeWords octets).run old = .ok () new) ↔ octets.length = n * 4 := by
  refine exists_run_eq_ok (fun h => ?_) fun h => ⟨_, _, run_decodeWords_of_ne old h⟩
  obtain ⟨new, hrun, -⟩ := run_decodeWords old h
  exact ⟨new, hrun⟩

theorem BigEndian.exists_encodeWords_eq_ok {n : Nat} {words : List UInt32}
    {old : Vector UInt8 n} :
    (∃ new, (encodeWords words).run old = .ok () new) ↔ n = words.length * 4 := by
  refine exists_run_eq_ok (fun h => ?_) fun h => ⟨_, _, run_encodeWords_of_ne old h⟩
  obtain ⟨new, hrun, -⟩ := run_encodeWords old h
  exact ⟨new, hrun⟩

theorem Schedule.exists_expand_eq_ok {v : Variant} {block : List UInt8} {old : Schedule} :
    (∃ new, (expand v block).run old = .ok () new) ↔ block.length = 64 := by
  refine exists_run_eq_ok (fun h => ?_) fun h => ⟨_, _, run_expand_of_ne v old h⟩
  obtain ⟨w, hload, -⟩ := load_eq_ok old h
  exact ⟨_, run_expand v h hload⟩

theorem exists_transform_eq_ok {v : Variant} {block : List UInt8} {ws : Workspace} :
    (∃ after, (transform v block).run ws = .ok () after) ↔ block.length = 64 := by
  refine exists_run_eq_ok (fun h => ?_) fun h => ⟨_, _, run_transform_of_ne v ws h⟩
  obtain ⟨w, hexpand⟩ := Schedule.exists_expand_eq_ok.mpr h
  exact ⟨_, run_transform v ws h (overwritten_eq_ok hexpand)⟩

end Checks

/-- Every check passes exactly where its promise is kept. -/
structure ChecksExact : Prop where
  add : ∀ a b, (∃ sum, Checked.add a b = .ok sum) ↔ a + b < 2 ^ 64
  sub : ∀ a b, (∃ difference, Checked.sub a b = .ok difference) ↔ b ≤ a
  split : ∀ (l : List UInt8) n, (∃ parts, Checked.split l n = .ok parts) ↔ n ≤ l.length
  overwrite : ∀ (old : Block) start stop src,
    (∃ new, Checked.overwrite old start stop src = .ok new) ↔
      start ≤ stop ∧ stop ≤ 64 ∧ src.length = stop - start
  decodeWords : ∀ n octets (old : Vector UInt32 n),
    (∃ new, (BigEndian.decodeWords octets).run old = .ok () new) ↔ octets.length = n * 4
  encodeWords : ∀ n words (old : Vector UInt8 n),
    (∃ new, (BigEndian.encodeWords words).run old = .ok () new) ↔ n = words.length * 4
  expand : ∀ v block old,
    (∃ new, (Schedule.expand v block).run old = .ok () new) ↔ block.length = 64
  transform : ∀ v block ws,
    (∃ after, (transform v block).run ws = .ok () after) ↔ block.length = 64

theorem checks_exact : ChecksExact where
  add _ _ := exists_ite_eq_ok
  sub _ _ := exists_ite_eq_ok
  split _ _ := Checked.exists_split_eq_ok
  overwrite _ _ _ _ := Checked.exists_overwrite_eq_ok
  decodeWords _ _ _ := BigEndian.exists_decodeWords_eq_ok
  encodeWords _ _ _ := BigEndian.exists_encodeWords_eq_ok
  expand _ _ _ := Schedule.exists_expand_eq_ok
  transform _ _ _ := exists_transform_eq_ok

/-! ## Operations -/

/-- `act` ends without a fault, whatever the store holds. -/
def Faultless {σ α : Type} (act : EStateM Fault σ α) : Prop :=
  ∀ s, ∃ a after, act.run s = .ok a after

section Faultless

variable {σ α β : Type}

theorem Faultless.pure (a : α) : Faultless (σ := σ) (Pure.pure a) := fun s => ⟨a, s, rfl⟩

theorem Faultless.bind {act : EStateM Fault σ α} {next : α → EStateM Fault σ β}
    (hact : Faultless act) (hnext : ∀ a, Faultless (next a)) : Faultless (act >>= next) := by
  intro s
  obtain ⟨a, middle, hrun⟩ := hact s
  obtain ⟨b, after, hrest⟩ := hnext a middle
  exact ⟨b, after, by rw [run_bind_of_ok hrun, hrest]⟩

theorem Faultless.fresh {act : HasherM α} (hact : Faultless act) :
    ∃ a, Hasher.fresh act = .ok a := by
  obtain ⟨a, after, hrun⟩ := hact Hasher.initial
  exact ⟨a, by rw [Hasher.fresh, hrun]⟩

end Faultless

namespace Hasher

/-- Each range and each copy fits, at whatever fill level the count gives. -/
theorem feed_faultless (data : List UInt8) : Faultless (feed data) := by
  intro h
  obtain ⟨buffer, hrun, -⟩ := run_feed h data
  exact ⟨_, _, hrun⟩

/-- Each block that is compressed has the right length. -/
theorem absorb_faultless (choice : Strategy) (blocks : List Block) :
    Faultless (absorb choice blocks) :=
  fun h => ⟨_, _, run_absorb choice blocks h⟩

/-- The mark and the count fit, with room in the block and without. -/
theorem padBlocks_faultless : Faultless padBlocks := fun h => ⟨_, _, run_padBlocks h⟩

theorem update_faultless (choice : Strategy) (data : List UInt8) :
    Faultless (update choice data) :=
  (feed_faultless data).bind (absorb_faultless choice)

theorem updateFrom_faultless (plan : Plan) (i : Nat) (chunks : List (List UInt8)) :
    Faultless (updateFrom plan i chunks) := by
  induction chunks generalizing i with
  | nil => exact .pure ()
  | cons chunk rest ih => exact (update_faultless (plan i) chunk).bind fun _ => ih (i + 1)

theorem pad_faultless (choice : Strategy) : Faultless (pad choice) :=
  padBlocks_faultless.bind fun blocks => (absorb_faultless choice blocks).bind fun _ => .pure _

theorem finalizeInto_faultless (choice : Strategy) (out : Vector UInt8 32) :
    Faultless (finalizeInto choice out) :=
  fun h => ⟨_, _, run_finalizeInto choice out h⟩

theorem finalize_faultless (choice : Strategy) : Faultless (finalize choice) :=
  (finalizeInto_faultless choice _).bind fun _ => .pure _

theorem closeTwice_faultless (plan : Plan) (out : Vector UInt8 32) :
    Faultless (closeTwice plan out) :=
  fun h => ⟨_, _, run_closeTwice plan out h⟩

end Hasher

theorem hashInto_faultless (plan : Plan) (data : List UInt8) (out : Vector UInt8 32) :
    ∃ octets, hashInto plan data out = .ok octets :=
  ((Hasher.update_faultless _ _).bind fun _ => Hasher.finalizeInto_faultless _ _).fresh

theorem doubleHashInto_faultless (plan : Plan) (data : List UInt8) (out : Vector UInt8 32) :
    ∃ octets, doubleHashInto plan data out = .ok octets :=
  ((Hasher.update_faultless _ _).bind fun _ => Hasher.closeTwice_faultless plan out).fresh

/-! ## Sessions -/

namespace Session

def Reply.isRefused : Reply → Bool
  | .refused _ _ => true
  | _ => false

/-- Whether the step asks for a count that is not whole blocks. -/
def Step.asksPart : Step → Bool
  | .setBitCount _ bits => bits % 512 != 0
  | _ => false

section Replies

variable {α : Type} {act : HasherM α} {reply : α → Hasher → Reply}

theorem isRefused_onHasher (hact : Faultless act) (hreply : ∀ a h, (reply a h).isRefused = false)
    (name : String) (s : Store) : ((onHasher name act reply).run s).1.isRefused = false := by
  cases hs : s name with
  | none =>
    rw [run_onHasher_of_none hs]
    rfl
  | some h =>
    obtain ⟨a, after, hrun⟩ := hact h
    rw [run_onHasher_of_ok hs hrun]
    exact hreply a after

theorem isRefused_forget (name other : String) (hact : Faultless act)
    (hreply : ∀ a h, (reply a h).isRefused = false) (s : Store) :
    ((do let r ← onHasher name act reply; forget other; return r : StateM Store Reply).run
      s).1.isRefused = false := by
  have hrun : (onHasher name act reply).run s =
      (((onHasher name act reply).run s).1, ((onHasher name act reply).run s).2) := rfl
  rw [run_forget hrun]
  exact isRefused_onHasher hact hreply name s

end Replies

/-- A step is refused if it asks a known hasher for a count that is not whole blocks, and in no
other case. -/
theorem isRefused_step (choice : Strategy) (st : Step) (s : Store) :
    ((step choice st).run s).1.isRefused = (st.asksPart && (s st.subject).isSome) := by
  cases st with
  | create name => rfl
  | view name => exact isRefused_onHasher (.pure ()) (fun _ _ => rfl) name s
  | update name data =>
    exact isRefused_onHasher (Hasher.update_faultless choice data) (fun _ _ => rfl) name s
  | clone source target =>
    cases hs : s source with
    | none => rw [run_clone_of_none hs]; rfl
    | some h => rw [run_clone_of_some hs]; rfl
  | finalize name =>
    exact isRefused_forget name name (Hasher.finalize_faultless choice) (fun _ _ => rfl) s
  | finalizeInto name out =>
    exact isRefused_onHasher (Hasher.finalizeInto_faultless choice out) (fun _ _ => rfl) name s
  | pad name => exact isRefused_onHasher (Hasher.pad_faultless choice) (fun _ _ => rfl) name s
  | reset name =>
    exact isRefused_onHasher (fun h => ⟨_, _, Hasher.run_reset h⟩) (fun _ _ => rfl) name s
  | zeroize name => exact isRefused_onHasher (fun _ => ⟨_, _, rfl⟩) (fun _ _ => rfl) name s
  | setBitCount name bits =>
    cases hs : s name with
    | none =>
      rw [step_of_unknown choice (.setBitCount name bits) hs fun _ => by simp]
      simp [Step.subject, hs, Reply.isRefused]
    | some h =>
      by_cases hb : bits % 512 = 0
      · rw [run_setBitCount_of_blocks hs hb]
        simp [Step.asksPart, hb, Reply.isRefused]
      · rw [run_setBitCount_of_part hs hb]
        simp [Step.asksPart, Step.subject, hb, hs, Reply.isRefused]
  | drop name => exact isRefused_forget name name (.pure ()) (fun _ _ => rfl) s

/-- In a run from any store, only such a step is refused. -/
theorem isRefused_run (steps : List (Strategy × Step)) (s : Store) :
    List.Forall₂ (fun x reply => Reply.isRefused reply = false ∨ x.2.asksPart = true) steps
      ((run steps).run s).1 := by
  induction steps generalizing s with
  | nil => exact .nil
  | cons first rest ih =>
    obtain ⟨choice, st⟩ := first
    have hstep : (step choice st).run s =
        (((step choice st).run s).1, ((step choice st).run s).2) := rfl
    rw [run_cons hstep]
    refine .cons ?_ (ih _)
    rw [isRefused_step]
    cases st.asksPart with
    | false => exact .inl rfl
    | true => exact .inr rfl

end Session

/-- Hashing never stops with a fault: no operation does on any hasher, no message makes a hash
do so, and in a session no step is refused but a count that is not whole blocks.  Checks that
are exact stand at every place where one might have. -/
theorem hashing_faultless :
    ChecksExact ∧
    (∀ choice data, Faultless (Hasher.update choice data)) ∧
    (∀ plan i chunks, Faultless (Hasher.updateFrom plan i chunks)) ∧
    (∀ choice, Faultless (Hasher.pad choice)) ∧
    (∀ choice out, Faultless (Hasher.finalizeInto choice out)) ∧
    (∀ choice, Faultless (Hasher.finalize choice)) ∧
    (∀ plan data out, ∃ d octets, hash plan data = .ok d ∧ hashInto plan data out = .ok octets) ∧
    (∀ plan data out, ∃ d octets,
      doubleHash plan data = .ok d ∧ doubleHashInto plan data out = .ok octets) ∧
    ∀ (steps : List (Strategy × Session.Step)) (s : Session.Store),
      List.Forall₂ (fun x reply => Session.Reply.isRefused reply = false ∨ x.2.asksPart = true)
        steps ((Session.run steps).run s).1 := by
  refine ⟨checks_exact, Hasher.update_faultless, Hasher.updateFrom_faultless,
    Hasher.pad_faultless, Hasher.finalizeInto_faultless, Hasher.finalize_faultless, ?_, ?_,
    Session.isRefused_run⟩
  · intro plan data out
    obtain ⟨octets, hinto⟩ := hashInto_faultless plan data out
    exact ⟨_, octets, hash_eq plan data, hinto⟩
  · intro plan data out
    obtain ⟨octets, hinto⟩ := doubleHashInto_faultless plan data out
    exact ⟨_, octets, doubleHash_eq plan data, hinto⟩

end SecureHash
