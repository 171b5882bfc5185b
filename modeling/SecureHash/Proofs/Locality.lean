import SecureHash.Session

/-!
What a step touches: it answers from the hasher of its subject, and changes at most the
hasher of its target.  Only a clone has a target other than its subject.

So hashers share nothing.  A step leaves every other name alone (`step_frame`), and two
stretches of steps neither of which writes what the other mentions may be done in either
order, anywhere in a run (`run_swap`).
-/

namespace SecureHash
namespace Session

namespace Store

@[simp] theorem put_eq_self (s : Store) (name : String) : s.put name (s name) = s := by
  funext other
  by_cases h : other = name
  · simp [h]
  · simp [h]

@[simp] theorem put_put (s : Store) (name : String) (one other : Option Hasher) :
    (s.put name one).put name other = s.put name other := by
  funext n
  by_cases h : n = name
  · simp [h]
  · simp [h]

theorem put_comm (s : Store) {a b : String} (hne : a ≠ b) (one other : Option Hasher) :
    (s.put a one).put b other = (s.put b other).put a one := by
  funext n
  by_cases ha : n = a
  · simp [ha, hne]
  · by_cases hb : n = b
    · simp [hb, hne.symm]
    · simp [ha, hb]

end Store

/-! ## One hasher at a time -/

section OneHasher

variable {α : Type} {name : String} {act : HasherM α} {reply : α → Hasher → Reply} {s : Store}

theorem run_onHasher_of_none (hs : s name = none) :
    (onHasher name act reply).run s = (.unknown, s) := by
  simp only [onHasher, StateT.run_bind, StateT.run_get, pure_bind, hs]
  rfl

theorem run_onHasher_of_ok {h after : Hasher} {a : α} (hs : s name = some h)
    (ha : act.run h = .ok a after) :
    (onHasher name act reply).run s = (reply a after, s.put name (some after)) := by
  simp only [onHasher, StateT.run_bind, StateT.run_get, pure_bind, hs, ha]
  rfl

theorem run_onHasher_of_error {h after : Hasher} {fault : Fault} (hs : s name = some h)
    (ha : act.run h = .error fault after) :
    (onHasher name act reply).run s =
      (.refused fault (View.of after), s.put name (some after)) := by
  simp only [onHasher, StateT.run_bind, StateT.run_get, pure_bind, hs, ha]
  rfl

end OneHasher

theorem run_forget {name : String} {act : StateM Store Reply} {s after : Store} {reply : Reply}
    (h : act.run s = (reply, after)) :
    (do let reply ← act; forget name; return reply : StateM Store Reply).run s =
      (reply, after.put name none) := by
  rw [StateT.run_bind, h]
  rfl

theorem run_forget_of_none {name : String} {act : StateM Store Reply} {s : Store} {reply : Reply}
    (h : act.run s = (reply, s)) (hs : s name = none) :
    (do let reply ← act; forget name; return reply : StateM Store Reply).run s = (reply, s) := by
  rw [run_forget h, ← hs, Store.put_eq_self]

theorem run_clone_of_none {choice : Strategy} {source target : String} {s : Store}
    (hs : s source = none) : (step choice (.clone source target)).run s = (.unknown, s) := by
  simp only [step, StateT.run_bind, StateT.run_get, pure_bind, hs]
  rfl

theorem run_clone_of_some {choice : Strategy} {source target : String} {s : Store} {h : Hasher}
    (hs : s source = some h) :
    (step choice (.clone source target)).run s = (.view (View.of h), s.put target (some h)) := by
  simp only [step, StateT.run_bind, StateT.run_get, pure_bind, hs]
  rfl

/-! ## Locality -/

namespace Step

/-- The name whose hasher the step works on. -/
def subject : Step → String
  | create name => name
  | view name => name
  | update name _ => name
  | clone source _ => source
  | finalize name => name
  | finalizeInto name _ => name
  | pad name => name
  | reset name => name
  | zeroize name => name
  | setBitCount name _ => name
  | drop name => name

/-- The only name whose hasher the step may change. -/
def target : Step → String
  | clone _ target => target
  | other => other.subject

/-- Neither step changes a hasher that the other works on or changes. -/
def Independent (a b : Step) : Prop :=
  a.target ≠ b.target ∧ a.target ≠ b.subject ∧ b.target ≠ a.subject

end Step

/-- `act` replies according to the hasher of `subject`, and changes the one of `target`
alone. -/
def Local (subject target : String) (act : StateM Store Reply) : Prop :=
  ∃ (reply : Option Hasher → Reply) (next : Option Hasher → Option Hasher → Option Hasher),
    ∀ s, act.run s = (reply (s subject), s.put target (next (s subject) (s target)))

/-- What `onHasher` makes of the hasher it finds: its reply and the hasher after it. -/
def outcome {α : Type} (act : HasherM α) (reply : α → Hasher → Reply) :
    Option Hasher → Reply × Option Hasher
  | none => (.unknown, none)
  | some h =>
    match act.run h with
    | .ok a after => (reply a after, some after)
    | .error fault after => (.refused fault (View.of after), some after)

theorem local_onHasher {α : Type} (name : String) (act : HasherM α)
    (reply : α → Hasher → Reply) : Local name name (onHasher name act reply) := by
  refine ⟨fun old => (outcome act reply old).1, fun old _ => (outcome act reply old).2, ?_⟩
  intro s
  cases hs : s name with
  | none =>
    rw [run_onHasher_of_none hs]
    show _ = (Reply.unknown, s.put name none)
    rw [← hs, Store.put_eq_self]
  | some h =>
    cases ha : act.run h with
    | ok a after => simp only [run_onHasher_of_ok hs ha, outcome, ha]
    | error fault after => simp only [run_onHasher_of_error hs ha, outcome, ha]

/-- A step may also take its target away. -/
theorem local_forget {subject name : String} {act : StateM Store Reply}
    (h : Local subject name act) :
    Local subject name (do let reply ← act; forget name; return reply) := by
  obtain ⟨reply, next, hact⟩ := h
  refine ⟨reply, fun _ _ => none, fun s => ?_⟩
  rw [run_forget (hact s), Store.put_put]

theorem local_step (choice : Strategy) (st : Step) :
    Local st.subject st.target (step choice st) := by
  cases st with
  | create name =>
    exact ⟨fun _ => .whole (WholeView.of Hasher.initial), fun _ _ => some Hasher.initial,
      fun _ => rfl⟩
  | clone source target =>
    refine ⟨fun found => found.elim .unknown fun h => .view (View.of h),
      fun found old => found.or old, ?_⟩
    intro s
    show _ = ((s source).elim _ _, s.put target ((s source).or (s target)))
    cases hs : s source with
    | none => rw [run_clone_of_none hs, Option.elim_none, Option.none_or, Store.put_eq_self]
    | some h => rw [run_clone_of_some hs, Option.elim_some, Option.some_or]
  | view name => exact local_onHasher name (pure ()) showView
  | update name data => exact local_onHasher name (Hasher.update choice data) showView
  | finalize name => exact local_forget (local_onHasher name _ _)
  | finalizeInto name out => exact local_onHasher name _ _
  | pad name => exact local_onHasher name _ _
  | reset name => exact local_onHasher name Hasher.reset showWhole
  | zeroize name => exact local_onHasher name Hasher.zeroize showWhole
  | setBitCount name bits => exact local_onHasher name (Hasher.setBitCount bits) showView
  | drop name => exact local_forget (local_onHasher name _ _)

/-- Every other hasher stays as it is, in all its fields. -/
theorem step_frame (choice : Strategy) (st : Step) (s : Store) {other : String}
    (hne : other ≠ st.target) : ((step choice st).run s).2 other = s other := by
  obtain ⟨reply, next, hrun⟩ := local_step choice st
  rw [hrun]
  exact Store.put_of_ne s _ hne

/-- Each of the two acts as if the other had not run before it, and the store after both
does not depend on their order. -/
def Beside {α β : Type} (one : StateM Store α) (two : StateM Store β) : Prop :=
  ∀ s, ∃ after, two.run (one.run s).2 = ((two.run s).1, after) ∧
    one.run (two.run s).2 = ((one.run s).1, after)

theorem Beside.symm {α β : Type} {one : StateM Store α} {two : StateM Store β}
    (h : Beside one two) : Beside two one := by
  intro s
  obtain ⟨after, htwo, hone⟩ := h s
  exact ⟨after, hone, htwo⟩

theorem beside_step {a b : Step} (h : a.Independent b) (choice other : Strategy) :
    Beside (step choice a) (step other b) := by
  intro s
  obtain ⟨htargets, hab, hba⟩ := h
  obtain ⟨replyA, nextA, hrunA⟩ := local_step choice a
  obtain ⟨replyB, nextB, hrunB⟩ := local_step other b
  let afterA := s.put a.target (nextA (s a.subject) (s a.target))
  let afterB := s.put b.target (nextB (s b.subject) (s b.target))
  have hsubject : afterA b.subject = s b.subject := Store.put_of_ne s _ hab.symm
  have htarget : afterA b.target = s b.target := Store.put_of_ne s _ htargets.symm
  have hsubject' : afterB a.subject = s a.subject := Store.put_of_ne s _ hba.symm
  have htarget' : afterB a.target = s a.target := Store.put_of_ne s _ htargets
  refine ⟨afterA.put b.target (nextB (s b.subject) (s b.target)), ?_, ?_⟩
  · rw [hrunA s, hrunB s]
    show (step other b).run afterA = _
    rw [hrunB, hsubject, htarget]
  · rw [hrunA s, hrunB s]
    show (step choice a).run afterB = _
    rw [hrunA, hsubject', htarget']
    exact congrArg _ (Store.put_comm s htargets _ _).symm

/-- Only `create` does anything with a name that has no hasher. -/
theorem step_of_unknown (choice : Strategy) (st : Step) {s : Store} (hs : s st.subject = none)
    (hst : ∀ name, st ≠ .create name) : (step choice st).run s = (.unknown, s) := by
  cases st with
  | create name => exact absurd rfl (hst name)
  | clone source target => exact run_clone_of_none hs
  | finalize name => exact run_forget_of_none (run_onHasher_of_none hs) hs
  | drop name => exact run_forget_of_none (run_onHasher_of_none hs) hs
  | view name | update name data | finalizeInto name out | pad name | reset name | zeroize name
  | setBitCount name bits =>
    rw [step]
    exact run_onHasher_of_none hs

/-! ## Runs -/

theorem run_cons {choice : Strategy} {st : Step} {s after : Store} {reply : Reply}
    (h : (step choice st).run s = (reply, after)) (rest : List (Strategy × Step)) :
    (run ((choice, st) :: rest)).run s =
      (reply :: ((run rest).run after).1, ((run rest).run after).2) := by
  simp only [run, StateT.run_bind, h]
  rfl

theorem run_append (front back : List (Strategy × Step)) (s : Store) :
    (run (front ++ back)).run s =
      (((run front).run s).1 ++ ((run back).run ((run front).run s).2).1,
        ((run back).run ((run front).run s).2).2) := by
  induction front generalizing s with
  | nil => rfl
  | cons first rest ih =>
    obtain ⟨choice, st⟩ := first
    have hstep : (step choice st).run s =
        (((step choice st).run s).1, ((step choice st).run s).2) := rfl
    rw [List.cons_append, run_cons hstep, run_cons hstep, ih]
    rfl

theorem length_run (steps : List (Strategy × Step)) (s : Store) :
    ((run steps).run s).1.length = steps.length := by
  induction steps generalizing s with
  | nil => rfl
  | cons first rest ih =>
    show (((run rest).run ((step first.1 first.2).run s).2).1).length + 1 = _
    rw [ih, List.length_cons]

theorem beside_run {α : Type} {act : StateM Store α} {steps : List (Strategy × Step)}
    (h : ∀ x ∈ steps, Beside act (step x.1 x.2)) : Beside act (run steps) := by
  induction steps with
  | nil => exact fun s => ⟨(act.run s).2, rfl, rfl⟩
  | cons first rest ih =>
    obtain ⟨choice, st⟩ := first
    have hfirst : Beside act (step choice st) := h (choice, st) List.mem_cons_self
    have hrest : Beside act (run rest) := ih fun x hx => h x (List.mem_cons_of_mem _ hx)
    intro s
    obtain ⟨middle, hstep, hact⟩ := hfirst s
    obtain ⟨after, hruns, hacts⟩ := hrest ((step choice st).run s).2
    rw [hact] at hruns hacts
    refine ⟨after, ?_, hacts⟩
    rw [run_cons hstep, hruns]
    rfl

/-- Two stretches of steps that no clone links change places anywhere in a run.  Each
keeps its replies, and the store after them is the same. -/
theorem run_swap {left right : List (Strategy × Step)}
    (h : ∀ x ∈ left, ∀ y ∈ right, x.2.Independent y.2) (before rest : List (Strategy × Step))
    (s : Store) :
    ∃ front ones twos back after, front.length = before.length ∧ ones.length = left.length ∧
      twos.length = right.length ∧
      (run (before ++ left ++ right ++ rest)).run s = (front ++ ones ++ twos ++ back, after) ∧
      (run (before ++ right ++ left ++ rest)).run s = (front ++ twos ++ ones ++ back, after) := by
  have hstretch : Beside (run right) (run left) := by
    refine beside_run fun x hx => Beside.symm (beside_run fun y hy => ?_)
    exact beside_step (h x hx y hy) x.1 y.1
  let s' := ((run before).run s).2
  obtain ⟨after, hleft, hright⟩ := hstretch s'
  refine ⟨((run before).run s).1, ((run left).run s').1, ((run right).run s').1,
    ((run rest).run after).1, ((run rest).run after).2, length_run before s, length_run left s',
    length_run right s', ?_, ?_⟩
  · rw [run_append, run_append, run_append before, hright]
  · rw [run_append, run_append, run_append before, hleft]

end Session
end SecureHash
