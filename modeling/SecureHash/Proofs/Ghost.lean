import SecureHash.Proofs.Steps

/-!
What a hasher has been through, kept beside it.

A ghost is the chaining words and the count that its hasher was last started with, and the
octets taken in since.  All that the hasher shows follows from the ghost, and the fill
level too, which is computed from a count that wraps: the octets are counted modulo
`2 ^ 64` bits, and that is a multiple of a block.

Padding writes octets into the buffer that nobody submitted.  The ghost starts anew there,
from what the hasher shows.
-/

namespace SecureHash
namespace Session

structure Ghost where
  iv : ChainState
  base : UInt64
  octets : List UInt8

namespace Ghost

def fresh : Ghost := { iv := ChainState.initial, base := 0, octets := [] }

def wiped : Ghost := { iv := ChainState.zero, base := 0, octets := [] }

def extend (g : Ghost) (data : List UInt8) : Ghost := { g with octets := g.octets ++ data }

/-- The ghost of a hasher of which only its fields are known. -/
def restart (h : Hasher) : Ghost :=
  { iv := h.state, base := h.bitCount - (UInt64.ofNat h.pendingLength <<< 3), octets := h.pending }

/-- What a hasher with this ghost shows. -/
def view (g : Ghost) : View :=
  View.extend { state := g.iv, bitCount := g.base, pending := [] } g.octets

end Ghost

/-- The ghost of each live name. -/
abbrev Ghosts := String → Option Ghost

namespace Ghosts

def empty : Ghosts := fun _ => none

/-- The ghosts after a step that leaves the store `after`. -/
def step (after : Store) : Step → Ghosts → Ghosts
  | .create name, g => Function.update g name (some .fresh)
  | .view _, g => g
  | .update name data, g => Function.update g name ((g name).map fun ghost => ghost.extend data)
  | .clone source target, g => Function.update g target ((g source).or (g target))
  | .finalize name, g => Function.update g name none
  | .finalizeInto name _, g => Function.update g name ((g name).map fun _ => .fresh)
  | .pad name, g => Function.update g name ((after name).map .restart)
  | .reset name, g => Function.update g name ((g name).map fun _ => .fresh)
  | .zeroize name, g => Function.update g name ((g name).map fun _ => .wiped)
  | .setBitCount name bits, g =>
    if bits % 512 = 0 then
      Function.update g name
        ((after name).map fun h => { iv := h.state, base := bits, octets := [] })
    else g
  | .drop name, g => Function.update g name none

/-- The ghosts after a run from `s`. -/
def run : List (Strategy × Step) → Store → Ghosts → Ghosts
  | [], _, g => g
  | (choice, st) :: rest, s, g =>
    let after := ((Session.step choice st).run s).2
    run rest after (step after st g)

end Ghosts

/-- What a ghost says of its hasher. -/
structure Tracked (h : Hasher) (g : Ghost) : Prop where
  /-- The octets are the whole blocks and the pending ones. -/
  blocks : Block.octets (wholeBlocks g.octets) ++ h.pending = g.octets
  count : (wholeBlocks g.octets).length = g.octets.length / 64
  /-- The chaining words are the compression of the whole blocks, from the first words on. -/
  state : ∀ v, (wholeBlocks g.octets).foldlM (compressBlock v) g.iv = .ok h.state
  bitCount : h.bitCount.toNat = (g.base.toNat + 8 * g.octets.length) % 2 ^ 64
  fill : h.pendingLength = g.octets.length % 64
  room : h.pendingLength < 64
  /-- The pending octets are the last ones taken in. -/
  pending : h.pending = g.octets.rtake (g.octets.length % 64)

/-! ## Ghosts and views -/

namespace Ghost

theorem view_extend (g : Ghost) (data : List UInt8) : (g.extend data).view = g.view.extend data :=
  (View.extend_extend _ g.octets data).symm

theorem view_of_nil (iv : ChainState) (base : UInt64) :
    view { iv, base, octets := [] } = { state := iv, bitCount := base, pending := [] } :=
  View.extend_nil (show 0 < 64 by decide)

theorem view_fresh : fresh.view = View.of Hasher.initial := view_of_nil _ _

theorem view_wiped : wiped.view = View.of Hasher.wiped := view_of_nil _ _

theorem view_restart (h : Hasher) : (restart h).view = View.of h := by
  have hshort := h.length_pending_lt
  rw [view, View.extend]
  simp only [restart, List.nil_append, wholeBlocks_of_short hshort, leftover_of_short hshort,
    List.foldl_nil, Hasher.length_pending, UInt64.sub_add_cancel]
  rfl

end Ghost

theorem leftover_eq_rtake (data : List UInt8) : leftover data = data.rtake (data.length % 64) := by
  have hcut : data.length - data.length % 64 = 64 * (data.length / 64) := by omega
  rw [leftover, List.rtake, hcut]

theorem tracked_of_view {h : Hasher} {g : Ghost} (hview : View.of h = g.view) : Tracked h g := by
  have hpending : h.pending = leftover g.octets := congrArg View.pending hview
  have hfill : h.pendingLength = g.octets.length % 64 := by
    rw [← Hasher.length_pending, hpending, length_leftover]
  constructor
  · rw [hpending]
    exact octets_wholeBlocks_append_leftover g.octets
  · exact length_wholeBlocks g.octets
  · intro v
    rw [foldlM_compressBlock]
    exact congrArg _ (congrArg View.state hview).symm
  · have hcount : h.bitCount = g.view.bitCount := congrArg View.bitCount hview
    rw [hcount, Ghost.view, View.toNat_bitCount_extend]
  · exact hfill
  · exact h.pendingLength_lt
  · rw [hpending, leftover_eq_rtake]

theorem view_of_blocks (h : Hasher) {bits : UInt64} (hb : bits % 512 = 0) :
    View.of { h with bitCount := bits } =
      Ghost.view { iv := h.state, base := bits, octets := [] } := by
  rw [Ghost.view_of_nil, View.of, Hasher.pending_of_blocks h hb]

/-! ## Steps and runs -/

section Steps

variable {s : Store} {g : Ghosts}

/-- The invariant: each live hasher shows what its ghost accounts for, and no other name
has a ghost. -/
def Store.Accounted (s : Store) (g : Ghosts) : Prop :=
  Store.Related (fun h ghost => View.of h = ghost.view) s g

/-- A step other than `create` has to account for its target alone. -/
theorem accounted_of_target (hg : s.Accounted g) (choice : Strategy) (st : Step)
    (hst : ∀ name, st ≠ .create name) {ghost : Option Ghost}
    (hunknown : g st.subject = none → ghost = g st.target)
    (hknown : ∀ h old, s st.subject = some h → g st.subject = some old → View.of h = old.view →
      ∃ reply after, (step choice st).run s = (reply, s.put st.target after) ∧
        Option.Rel (fun h ghost => View.of h = ghost.view) after ghost) :
    Store.Accounted ((step choice st).run s).2 (Function.update g st.target ghost) := by
  rcases hg.step_cases choice st hst with ⟨hold, hrun⟩ | ⟨h, old, hs, hold, hview⟩
  · rw [hrun, hunknown hold, Function.update_eq_self]
    exact hg
  · obtain ⟨reply, after, hrun, hafter⟩ := hknown h old hs hold hview
    rw [hrun]
    exact hg.put st.target hafter

/-- A step that starts its hasher with `after` starts the ghost with `ghost`. -/
theorem accounted_of_start (hg : s.Accounted g) (choice : Strategy) (st : Step)
    (hst : ∀ name, st ≠ .create name) (hsame : st.target = st.subject) {after : Hasher}
    {ghost : Ghost} (hview : View.of after = ghost.view)
    (hrun : ∀ h, s st.subject = some h →
      ∃ reply, (step choice st).run s = (reply, s.put st.target (some after))) :
    Store.Accounted ((step choice st).run s).2
      (Function.update g st.target ((g st.target).map fun _ => ghost)) := by
  refine accounted_of_target hg choice st hst ?_ ?_
  · intro hold
    rw [hsame, hold, Option.map_none]
  · intro h old hs hold _
    obtain ⟨reply, hstep⟩ := hrun h hs
    refine ⟨reply, some after, hstep, ?_⟩
    rw [hsame, hold, Option.map_some]
    exact .some hview

theorem step_accounted (hg : s.Accounted g) (choice : Strategy) (st : Step) :
    Store.Accounted ((step choice st).run s).2
      (Ghosts.step ((step choice st).run s).2 st g) := by
  cases st with
  | create name => exact hg.put name (.some Ghost.view_fresh.symm)
  | view name =>
    rw [store_view]
    exact hg
  | update name data =>
    refine accounted_of_target hg choice (.update name data) (fun _ => nofun) ?_ ?_
    · intro (hold : g name = none)
      rw [hold, Option.map_none]
      exact hold.symm
    · intro h old hs (hold : g name = some old) hview
      obtain ⟨after, hafter, hrun⟩ := run_update_of_some hs data
      refine ⟨_, _, hrun, ?_⟩
      rw [hold, Option.map_some]
      exact .some (by rw [hafter, hview, Ghost.view_extend])
  | clone source target =>
    refine accounted_of_target hg choice (.clone source target) (fun _ => nofun) ?_ ?_
    · intro (hold : g source = none)
      rw [hold, Option.none_or]
      rfl
    · intro h old hs (hold : g source = some old) hview
      refine ⟨_, _, run_clone_of_some hs, ?_⟩
      rw [hold, Option.some_or]
      exact .some hview
  | finalize name =>
    refine accounted_of_target hg choice (.finalize name) (fun _ => nofun) ?_ ?_
    · intro (hold : g name = none)
      exact hold.symm
    · intro h old hs _ _
      exact ⟨_, _, run_finalize_of_some hs, .none⟩
  | finalizeInto name out =>
    exact accounted_of_start hg choice (.finalizeInto name out) (fun _ => nofun) rfl
      Ghost.view_fresh.symm fun h hs => ⟨_, run_finalizeInto_of_some hs out⟩
  | pad name =>
    rw [Ghosts.step, store_pad, Store.put_self]
    refine hg.put name ?_
    cases s name with
    | none => exact .none
    | some h => exact .some (Ghost.view_restart _).symm
  | reset name =>
    exact accounted_of_start hg choice (.reset name) (fun _ => nofun) rfl Ghost.view_fresh.symm
      fun h hs => ⟨_, run_reset_of_some hs⟩
  | zeroize name =>
    exact accounted_of_start hg choice (.zeroize name) (fun _ => nofun) rfl Ghost.view_wiped.symm
      fun h hs => ⟨_, run_zeroize_of_some hs⟩
  | setBitCount name bits =>
    by_cases hb : bits % 512 = 0
    · rw [Ghosts.step, if_pos hb, store_setBitCount, if_pos hb]
      refine hg.put name ?_
      rw [Store.put_self]
      cases s name with
      | none => exact .none
      | some h => exact .some (view_of_blocks h hb)
    · rw [Ghosts.step, if_neg hb, store_setBitCount, if_neg hb]
      exact hg
  | drop name =>
    refine accounted_of_target hg choice (.drop name) (fun _ => nofun) ?_ ?_
    · intro (hold : g name = none)
      exact hold.symm
    · intro h old hs _ _
      exact ⟨_, _, run_drop_of_some hs, .none⟩

theorem run_accounted (hg : s.Accounted g) (steps : List (Strategy × Step)) :
    Store.Accounted ((run steps).run s).2 (Ghosts.run steps s g) := by
  induction steps generalizing s g with
  | nil => exact hg
  | cons first rest ih =>
    obtain ⟨choice, st⟩ := first
    exact ih (step_accounted hg choice st)

end Steps

/-- After any run each live hasher is what its ghost says, also where the count has wrapped
or the hasher started from chaining words of its own.  A count that is not whole blocks is
refused, and the hasher stays as it was. -/
theorem tracked_of_run (steps : List (Strategy × Step)) (name : String) (h : Hasher)
    (bits : UInt64) :
    Option.Rel Tracked (((run steps).run Store.empty).2 name)
        (Ghosts.run steps Store.empty Ghosts.empty name) ∧
      (Hasher.setBitCount bits).run h =
        (if bits % 512 = 0 then .ok () { h with bitCount := bits }
          else .error (.unequal (bits % 512).toNat 0) h) ∧
      ∀ choice s, ((step choice (.setBitCount name bits)).run s).2 =
        if bits % 512 = 0 then s.put name ((s name).map fun h => { h with bitCount := bits })
        else s := by
  exact ⟨(run_accounted .empty steps).mono tracked_of_view name, Hasher.run_setBitCount h bits,
    fun choice s => store_setBitCount choice name bits s⟩

end Session
end SecureHash
