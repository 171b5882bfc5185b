import SecureHash.Proofs.Steps
import SecureHash.Proofs.Message

/-!
Named hashers refine named messages.

In the machine of messages a hasher is the octets it was given since it was made or last
started anew, and nothing else.  A session of hashers gives the replies that this machine
asks for, and ends in hashers that hold the messages it ends in.
-/

namespace SecureHash
namespace Session

/-! ## The machine of messages -/

/-- The steps that a message accounts for: all but those that pad, wipe or set the count. -/
inductive MessageStep where
  | create (name : String)
  | view (name : String)
  | update (name : String) (data : List UInt8)
  | clone (source target : String)
  | finalize (name : String)
  | finalizeInto (name : String) (out : Vector UInt8 32)
  | reset (name : String)
  | drop (name : String)

def MessageStep.toStep : MessageStep → Step
  | create name => .create name
  | view name => .view name
  | update name data => .update name data
  | clone source target => .clone source target
  | finalize name => .finalize name
  | finalizeInto name out => .finalizeInto name out
  | reset name => .reset name
  | drop name => .drop name

inductive Answer where
  /-- No message has the name. -/
  | unknown
  /-- The name starts anew. -/
  | fresh
  /-- The message so far. -/
  | holding (message : List UInt8)
  /-- The message is closed, and its name is free. -/
  | closed (message : List UInt8)
  /-- The message is closed, and its name starts anew. -/
  | restarted (message : List UInt8)
  | dropped

/-- The message of each live name. -/
abbrev Messages := String → Option (List UInt8)

namespace Messages

def empty : Messages := fun _ => none

/-- Answer with the message of `source`, if there is one, and let `next` of it be the
message of `target`. -/
def onMessage (source target : String) (answer : List UInt8 → Answer)
    (next : List UInt8 → Option (List UInt8)) (m : Messages) : Answer × Messages :=
  match m source with
  | none => (.unknown, m)
  | some message => (answer message, Function.update m target (next message))

def step : MessageStep → Messages → Answer × Messages
  | .create name => fun m => (.fresh, Function.update m name (some []))
  | .view name => onMessage name name .holding some
  | .update name data =>
    onMessage name name (fun message => .holding (message ++ data)) fun message =>
      some (message ++ data)
  | .clone source target => onMessage source target .holding some
  | .finalize name => onMessage name name .closed fun _ => none
  | .finalizeInto name _ => onMessage name name .restarted fun _ => some []
  | .reset name => onMessage name name (fun _ => .fresh) fun _ => some []
  | .drop name => onMessage name name (fun _ => .dropped) fun _ => none

def run : List MessageStep → Messages → List Answer × Messages
  | [], m => ([], m)
  | st :: rest, m =>
    let first := step st m
    let others := run rest first.2
    (first.1 :: others.1, others.2)

end Messages

/-! ## What refinement asks for -/

/-- `v` shows a hasher that has taken in `message` since it was started. -/
structure View.Holds (v : View) (message : List UInt8) : Prop where
  state : v.state = (wholeBlocks message).foldl Standard.compress ChainState.initial
  bitCount : v.bitCount.toNat = 8 * message.length % 2 ^ 64
  pending : v.pending = leftover message

/-- The replies that an answer admits.  A hasher that starts anew is shown whole, with all
of its buffer. -/
inductive Answer.Admits : Answer → Reply → Prop
  | unknown : Admits .unknown .unknown
  | fresh : Admits .fresh (.whole (WholeView.of Hasher.initial))
  | holding {message : List UInt8} {v : View} (h : v.Holds message) :
    Admits (.holding message) (.view v)
  | closed {message : List UInt8} {d : Digest} (h : ∀ plan, hash plan message = .ok d) :
    Admits (.closed message) (.digest d)
  | restarted {message : List UInt8} {d : Digest} (h : ∀ plan, hash plan message = .ok d) :
    Admits (.restarted message) (.finalized d (WholeView.of Hasher.initial))
  | dropped : Admits .dropped .dropped

/-- The live names agree, and each hasher holds the message of its name. -/
def Store.Refines (s : Store) (m : Messages) : Prop :=
  Store.Related (fun h message => (View.of h).Holds message) s m

theorem View.holds_ofMessage (message : List UInt8) : (View.ofMessage message).Holds message where
  state := View.state_ofMessage message
  bitCount := View.toNat_bitCount_ofMessage message
  pending := View.pending_ofMessage message

theorem View.Holds.eq_ofMessage {v : View} {message : List UInt8} (h : v.Holds message) :
    v = View.ofMessage message := by
  obtain ⟨state, bitCount, pending⟩ := v
  obtain ⟨hstate, hcount, hpending⟩ := h
  have hcount' : bitCount = (View.ofMessage message).bitCount :=
    UInt64.toNat_inj.mp (hcount.trans (View.toNat_bitCount_ofMessage message).symm)
  have hstate' : state = (View.ofMessage message).state := hstate
  have hpending' : pending = (View.ofMessage message).pending := hpending
  rw [hstate', hcount', hpending']

theorem holds_initial : (View.of Hasher.initial).Holds [] := by
  rw [← View.ofMessage_nil]
  exact View.holds_ofMessage []

/-! ## One step refines -/

section Refines

variable {s : Store} {m : Messages}

/-- A step other than `create` refines, if it does so on a hasher that is known. -/
theorem refines_onMessage (hr : s.Refines m) (choice : Strategy) (st : Step)
    (hst : ∀ name, st ≠ .create name) {answer : List UInt8 → Answer}
    {next : List UInt8 → Option (List UInt8)}
    (hknown : ∀ h message, s st.subject = some h → (View.of h).Holds message →
      ∃ reply after, (step choice st).run s = (reply, s.put st.target after) ∧
        (answer message).Admits reply ∧
        Option.Rel (fun h message => (View.of h).Holds message) after (next message)) :
    (Messages.onMessage st.subject st.target answer next m).1.Admits ((step choice st).run s).1 ∧
      Store.Refines ((step choice st).run s).2
        (Messages.onMessage st.subject st.target answer next m).2 := by
  rcases hr.step_cases choice st hst with ⟨hm, hrun⟩ | ⟨h, message, hs, hm, hholds⟩
  · rw [hrun, Messages.onMessage, hm]
    exact ⟨.unknown, hr⟩
  · obtain ⟨reply, after, hrun, hreply, hafter⟩ := hknown h message hs hholds
    rw [hrun, Messages.onMessage, hm]
    exact ⟨hreply, hr.put st.target hafter⟩

theorem View.Holds.hash {v : View} {message : List UInt8} (h : v.Holds message) (plan : Plan) :
    hash plan message = .ok v.digest := by
  rw [hash_eq, h.eq_ofMessage]

theorem step_refines (hr : s.Refines m) (choice : Strategy) (st : MessageStep) :
    (Messages.step st m).1.Admits ((step choice st.toStep).run s).1 ∧
      Store.Refines ((step choice st.toStep).run s).2 (Messages.step st m).2 := by
  cases st with
  | create name => exact ⟨.fresh, hr.put name (.some holds_initial)⟩
  | view name =>
    refine refines_onMessage hr choice (.view name) (fun _ => nofun) ?_
    intro h message hs hholds
    exact ⟨_, _, run_view_of_some hs, .holding hholds, .some hholds⟩
  | update name data =>
    refine refines_onMessage hr choice (.update name data) (fun _ => nofun) ?_
    intro h message hs hholds
    obtain ⟨after, hview, hrun⟩ := run_update_of_some hs data
    have hafter : (View.of after).Holds (message ++ data) := by
      rw [hview, hholds.eq_ofMessage, View.ofMessage_append]
      exact View.holds_ofMessage _
    exact ⟨_, _, hrun, .holding hafter, .some hafter⟩
  | clone source target =>
    refine refines_onMessage hr choice (.clone source target) (fun _ => nofun) ?_
    intro h message hs hholds
    exact ⟨_, _, run_clone_of_some hs, .holding hholds, .some hholds⟩
  | finalize name =>
    refine refines_onMessage hr choice (.finalize name) (fun _ => nofun) ?_
    intro h message hs hholds
    exact ⟨_, _, run_finalize_of_some hs, .closed hholds.hash, .none⟩
  | finalizeInto name out =>
    refine refines_onMessage hr choice (.finalizeInto name out) (fun _ => nofun) ?_
    intro h message hs hholds
    exact ⟨_, _, run_finalizeInto_of_some hs out, .restarted hholds.hash, .some holds_initial⟩
  | reset name =>
    refine refines_onMessage hr choice (.reset name) (fun _ => nofun) ?_
    intro h message hs hholds
    exact ⟨_, _, run_reset_of_some hs, .fresh, .some holds_initial⟩
  | drop name =>
    refine refines_onMessage hr choice (.drop name) (fun _ => nofun) ?_
    intro h message hs hholds
    exact ⟨_, _, run_drop_of_some hs, .dropped, .none⟩

/-! ## Runs refine -/

/-- The run of hashers that a run of messages stands for. -/
def MessageStep.toSteps (steps : List (Strategy × MessageStep)) : List (Strategy × Step) :=
  steps.map fun (choice, st) => (choice, st.toStep)

theorem run_refines (hr : s.Refines m) (steps : List (Strategy × MessageStep)) :
    List.Forall₂ Answer.Admits (Messages.run (steps.map Prod.snd) m).1
        ((run (MessageStep.toSteps steps)).run s).1 ∧
      Store.Refines ((run (MessageStep.toSteps steps)).run s).2
        (Messages.run (steps.map Prod.snd) m).2 := by
  induction steps generalizing s m with
  | nil => exact ⟨.nil, hr⟩
  | cons first rest ih =>
    obtain ⟨choice, st⟩ := first
    obtain ⟨hreply, hafter⟩ := step_refines hr choice st
    obtain ⟨hreplies, hend⟩ := ih hafter
    exact ⟨.cons hreply hreplies, hend⟩

end Refines

/-- A session of hashers is a session of messages, whatever the steps and their order.
The last five parts hold from any store: what starts anew is new in every field, every
name but the target keeps its hasher as it is, a step on an unknown name does nothing, and
stretches of steps that no clone links change places anywhere in a run. -/
theorem hashers_refine_messages (steps : List (Strategy × MessageStep))
    (before left right rest : List (Strategy × Step)) (choice : Strategy) (st : Step) (s : Store) :
    let spec := Messages.run (steps.map Prod.snd) Messages.empty
    let session := (run (MessageStep.toSteps steps)).run Store.empty
    (List.Forall₂ Answer.Admits spec.1 session.1 ∧ Store.Refines session.2 spec.2) ∧
    (∀ name, ((step choice (.create name)).run s).2 name = some Hasher.initial) ∧
    (∀ name h, s name = some h →
      ((step choice (.reset name)).run s).2 name = some Hasher.initial ∧
      ∀ out, ((step choice (.finalizeInto name out)).run s).2 name = some Hasher.initial) ∧
    (∀ name, name ≠ st.target → ((step choice st).run s).2 name = s name) ∧
    (s st.subject = none → (∀ name, st ≠ .create name) →
      (step choice st).run s = (.unknown, s)) ∧
    ((∀ x ∈ left, ∀ y ∈ right, x.2.Independent y.2) → ∃ front ones twos back after,
      front.length = before.length ∧ ones.length = left.length ∧ twos.length = right.length ∧
      (run (before ++ left ++ right ++ rest)).run s = (front ++ ones ++ twos ++ back, after) ∧
      (run (before ++ right ++ left ++ rest)).run s =
        (front ++ twos ++ ones ++ back, after)) := by
  refine ⟨run_refines .empty steps, fun name => Store.put_self s name _, ?_,
    fun name hne => step_frame choice st s hne, step_of_unknown choice st,
    fun h => run_swap h before rest s⟩
  intro name h hs
  constructor
  · rw [run_reset_of_some hs]
    exact Store.put_self s name _
  · intro out
    rw [run_finalizeInto_of_some hs]
    exact Store.put_self s name _

/-- A clone taken part way and closed, and beside it a swap of two steps that the clone
does not link. -/
theorem hashers_refine_messages_of_clone :
    let plain := Strategy.uniform .rolled
    let out : Vector UInt8 32 := Vector.replicate 32 9
    let steps : List (Strategy × MessageStep) :=
      [(plain, .create "a"), (plain, .update "a" [1, 2]), (plain, .clone "a" "b"),
        (plain, .update "b" [3]), (plain, .finalizeInto "a" out), (plain, .finalize "b")]
    let s := Store.empty.put "a" (some Hasher.wiped)
    let first : Step := .update "a" [1]
    let second : Step := .clone "b" "c"
    List.Forall₂ Answer.Admits
        [.fresh, .holding [1, 2], .holding [1, 2], .holding [1, 2, 3], .restarted [1, 2],
          .closed [1, 2, 3]] ((run (MessageStep.toSteps steps)).run Store.empty).1 ∧
      s "a" = some Hasher.wiped ∧
      ((step plain (.finalizeInto "a" out)).run s).2 "a" = some Hasher.initial ∧
      "a" ≠ second.target ∧ ((step plain second).run s).2 "a" = s "a" ∧
      s second.subject = none ∧ (step plain second).run s = (.unknown, s) ∧
      first.Independent second ∧ ∃ front ones twos back after,
        (run [(plain, first), (plain, second)]).run s = (front ++ ones ++ twos ++ back, after) ∧
        (run [(plain, second), (plain, first)]).run s =
          (front ++ twos ++ ones ++ back, after) := by
  intro plain out steps s first second
  obtain ⟨⟨hreplies, -⟩, -, hnew, hframe, hunknown, hswap⟩ :=
    hashers_refine_messages steps [] [(plain, first)] [(plain, second)] [] plain second s
  have hne : "a" ≠ second.target := by decide
  have hnone : s second.subject = none := by decide
  have hindependent : first.Independent second := ⟨by decide, by decide, by decide⟩
  obtain ⟨front, ones, twos, back, after, -, -, -, hleft, hright⟩ := hswap (by
    intro x hx y hy
    rw [List.mem_singleton.mp hx, List.mem_singleton.mp hy]
    exact hindependent)
  exact ⟨hreplies, rfl, (hnew "a" Hasher.wiped rfl).2 out, hne, hframe "a" hne, hnone,
    hunknown hnone (fun _ => nofun), hindependent, front, ones, twos, back, after, hleft, hright⟩

end Session
end SecureHash
