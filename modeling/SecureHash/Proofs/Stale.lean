import SecureHash.Proofs.Steps

/-!
What lies in the buffer beyond the fill level never shows.

Two sessions go through the same steps.  They start with hashers of the same views under the
same names, and whatever else the buffers hold is left from other histories.  No reply tells
the sessions apart, and the views stay the same.  A hasher that is padded, closed or started
anew is from then on the same in both as a whole, and so are its copies (`Settled`).
-/

namespace SecureHash
namespace Session

/-- For each live name, whether its hasher was written as a whole since the sessions began, or
is a copy of one that was. -/
abbrev Settled := String → Option Bool

namespace Settled

/-- The names of `s`, none of them settled. -/
def start (s : Store) : Settled := fun name => (s name).map fun _ => false

def step : Step → Settled → Settled
  | .create name, g => Function.update g name (some true)
  | .view _, g => g
  | .update _ _, g => g
  | .clone source target, g => Function.update g target ((g source).or (g target))
  | .finalize name, g => Function.update g name none
  | .finalizeInto name _, g => Function.update g name ((g name).map fun _ => true)
  | .pad name, g => Function.update g name ((g name).map fun _ => true)
  | .reset name, g => Function.update g name ((g name).map fun _ => true)
  | .zeroize name, g => Function.update g name ((g name).map fun _ => true)
  | .setBitCount _ _, g => g
  | .drop name, g => Function.update g name none

def run (steps : List (Strategy × Step)) (g : Settled) : Settled :=
  steps.foldl (fun g x => step x.2 g) g

end Settled

/-- What two sessions have under one name: no hasher, or hashers of one view, which are the
same hasher if they are settled. -/
inductive Twin : Option Hasher → Option Hasher → Option Bool → Prop
  | unknown : Twin none none none
  | known {a b : Hasher} {settled : Bool} (view : View.of a = View.of b)
    (whole : settled = true → a = b) : Twin (some a) (some b) (some settled)

theorem Twin.same (a : Hasher) : Twin (some a) (some a) (some true) := .known rfl fun _ => rfl

def Twins (s t : Store) (g : Settled) : Prop := ∀ name, Twin (s name) (t name) (g name)

namespace Twins

variable {s t : Store} {g : Settled}

theorem start (h : ∀ name, Option.Rel (fun a b => View.of a = View.of b) (s name) (t name)) :
    Twins s t (Settled.start s) := by
  intro name
  have hname := h name
  rw [Settled.start]
  generalize s name = a at hname
  generalize t name = b at hname
  cases hname with
  | none => exact .unknown
  | some hview => exact .known hview nofun

theorem views (h : Twins s t g) (name : String) :
    Option.Rel (fun a b => View.of a = View.of b) (s name) (t name) := by
  have hname := h name
  generalize s name = a at hname
  generalize t name = b at hname
  generalize g name = settled at hname
  cases hname with
  | unknown => exact .none
  | known hview _ => exact .some hview

theorem whole (h : Twins s t g) {name : String} (hg : g name = some true) : s name = t name := by
  have hname := h name
  rw [hg] at hname
  generalize s name = a at hname
  generalize t name = b at hname
  cases hname with
  | known _ hwhole => rw [hwhole rfl]

theorem look_up (h : Twins s t g) (name : String) :
    (s name = none ∧ t name = none ∧ g name = none) ∨
      ∃ a b settled, s name = some a ∧ t name = some b ∧ g name = some settled ∧
        View.of a = View.of b ∧ (settled = true → a = b) := by
  have hname := h name
  generalize s name = a at hname
  generalize t name = b at hname
  generalize g name = settled at hname
  cases hname with
  | unknown => exact .inl ⟨rfl, rfl, rfl⟩
  | known hview hwhole => exact .inr ⟨_, _, _, rfl, rfl, rfl, hview, hwhole⟩

theorem put (h : Twins s t g) (target : String) {a b : Option Hasher} {settled : Option Bool}
    (htwin : Twin a b settled) :
    Twins (s.put target a) (t.put target b) (Function.update g target settled) := by
  intro other
  by_cases hn : other = target
  · simpa [hn] using htwin
  · simpa [hn] using h other

end Twins

/-! ## Steps and runs -/

section Steps

variable {s t : Store} {g : Settled}

/-- A step other than `create` keeps twins, if it does so on hashers that are known. -/
theorem twins_of_target (h : Twins s t g) (choice : Strategy) (st : Step)
    (hst : ∀ name, st ≠ .create name) (settled : Option Bool)
    (hunknown : g st.subject = none → settled = g st.target)
    (hknown : ∀ a b old, s st.subject = some a → t st.subject = some b →
      g st.subject = some old → View.of a = View.of b → (old = true → a = b) →
      ∃ reply one two, (step choice st).run s = (reply, s.put st.target one) ∧
        (step choice st).run t = (reply, t.put st.target two) ∧ Twin one two settled) :
    ((step choice st).run s).1 = ((step choice st).run t).1 ∧
      Twins ((step choice st).run s).2 ((step choice st).run t).2
        (Function.update g st.target settled) := by
  rcases h.look_up st.subject with ⟨hs, ht, hg⟩ | ⟨a, b, old, hs, ht, hg, hview, hwhole⟩
  · rw [step_of_unknown choice st hs hst, step_of_unknown choice st ht hst, hunknown hg,
      Function.update_eq_self]
    exact ⟨rfl, h⟩
  · obtain ⟨reply, one, two, hone, htwo, htwin⟩ := hknown a b old hs ht hg hview hwhole
    rw [hone, htwo]
    exact ⟨rfl, h.put st.target htwin⟩

/-- A step that leaves what its hasher's view decides settles its name. -/
theorem twins_of_settle (h : Twins s t g) (choice : Strategy) (st : Step)
    (hst : ∀ name, st ≠ .create name) (hsame : st.target = st.subject) (reply : View → Reply)
    (after : View → Hasher) (hrun : ∀ (u : Store) (a : Hasher), u st.subject = some a →
      (step choice st).run u = (reply (View.of a), u.put st.target (some (after (View.of a))))) :
    ((step choice st).run s).1 = ((step choice st).run t).1 ∧
      Twins ((step choice st).run s).2 ((step choice st).run t).2
        (Function.update g st.target ((g st.target).map fun _ => true)) := by
  refine twins_of_target h choice st hst _ ?_ ?_
  · intro hg
    rw [hsame, hg, Option.map_none]
  · intro a b old hs ht hg hview _
    refine ⟨_, _, _, hrun s a hs, by rw [hrun t b ht, ← hview], ?_⟩
    rw [hsame, hg, Option.map_some]
    exact .same _

/-- A step that goes on with its hasher settles nothing. -/
theorem twins_of_keep (h : Twins s t g) (choice : Strategy) (st : Step)
    (hst : ∀ name, st ≠ .create name) (hsame : st.target = st.subject)
    (hknown : ∀ a b old, s st.subject = some a → t st.subject = some b →
      View.of a = View.of b → (old = true → a = b) →
      ∃ reply one two, (step choice st).run s = (reply, s.put st.target one) ∧
        (step choice st).run t = (reply, t.put st.target two) ∧ Twin one two (some old)) :
    ((step choice st).run s).1 = ((step choice st).run t).1 ∧
      Twins ((step choice st).run s).2 ((step choice st).run t).2 g := by
  have hkeep := twins_of_target h choice st hst (g st.target) (fun _ => rfl) ?_
  · rwa [Function.update_eq_self] at hkeep
  · intro a b old hs ht hg hview hwhole
    rw [hsame, hg, ← hsame]
    exact hknown a b old hs ht hview hwhole

theorem step_twins (h : Twins s t g) (choice : Strategy) (st : Step) :
    ((step choice st).run s).1 = ((step choice st).run t).1 ∧
      Twins ((step choice st).run s).2 ((step choice st).run t).2 (Settled.step st g) := by
  cases st with
  | create name => exact ⟨rfl, h.put name (.same Hasher.initial)⟩
  | view name =>
    refine twins_of_keep h choice (.view name) (by simp) rfl ?_
    intro a b old (hs : s name = some a) (ht : t name = some b) hview hwhole
    exact ⟨_, _, _, run_view_of_some hs, by rw [run_view_of_some ht, hview]; rfl,
      .known hview hwhole⟩
  | update name data =>
    refine twins_of_keep h choice (.update name data) (by simp) rfl ?_
    intro a b old (hs : s name = some a) (ht : t name = some b) hview hwhole
    obtain ⟨one, hone, hones⟩ := Hasher.run_update choice data a
    obtain ⟨two, htwo, htwos⟩ := Hasher.run_update choice data b
    -- The data covers the pending octets alike, and what lies beyond may differ as before.
    have hviews : View.of one = View.of two := by rw [hones, htwos, hview]
    refine ⟨.view (View.of one), some one, some two, ?_, ?_, .known hviews fun hold => ?_⟩
    · rw [step]
      exact run_onHasher_of_ok hs hone
    · rw [step, hviews]
      exact run_onHasher_of_ok ht htwo
    · rw [hwhole hold, htwo] at hone
      injection hone with _ heq
      exact heq.symm
  | clone source target =>
    refine twins_of_target h choice (.clone source target) (by simp) _ ?_ ?_
    · intro (hg : g source = none)
      rw [hg, Option.none_or]
      rfl
    · intro a b old (hs : s source = some a) (ht : t source = some b) (hg : g source = some old)
        hview hwhole
      refine ⟨_, _, _, run_clone_of_some hs, by rw [run_clone_of_some ht, hview]; rfl, ?_⟩
      rw [hg, Option.some_or]
      exact .known hview hwhole
  | finalize name =>
    refine twins_of_target h choice (.finalize name) (by simp) _ (fun hg => hg.symm) ?_
    intro a b old (hs : s name = some a) (ht : t name = some b) _ hview _
    exact ⟨_, _, _, run_finalize_of_some hs, by rw [run_finalize_of_some ht, hview]; rfl, .unknown⟩
  | finalizeInto name out =>
    exact twins_of_settle h choice (.finalizeInto name out) (by simp) rfl
      (fun v => .finalized v.digest (WholeView.of Hasher.initial)) (fun _ => Hasher.initial)
      fun _ _ hu => run_finalizeInto_of_some hu out
  | pad name =>
    exact twins_of_settle h choice (.pad name) (by simp) rfl
      (fun v => .padded v.paddedBlocks.length (WholeView.of v.afterPad)) View.afterPad
      fun _ _ hu => run_pad_of_some hu
  | reset name =>
    exact twins_of_settle h choice (.reset name) (by simp) rfl
      (fun _ => .whole (WholeView.of Hasher.initial)) (fun _ => Hasher.initial)
      fun _ _ hu => run_reset_of_some hu
  | zeroize name =>
    exact twins_of_settle h choice (.zeroize name) (by simp) rfl
      (fun _ => .whole (WholeView.of Hasher.wiped)) (fun _ => Hasher.wiped)
      fun _ _ hu => run_zeroize_of_some hu
  | setBitCount name bits =>
    refine twins_of_keep h choice (.setBitCount name bits) (by simp) rfl ?_
    intro a b old (hs : s name = some a) (ht : t name = some b) hview hwhole
    by_cases hb : bits % 512 = 0
    · have hstate : a.state = b.state := congrArg View.state hview
      have hviews : View.of { a with bitCount := bits } = View.of { b with bitCount := bits } := by
        rw [View.of, View.of, Hasher.pending_of_blocks a hb, Hasher.pending_of_blocks b hb, hstate]
      refine ⟨_, _, _, run_setBitCount_of_blocks hs hb,
        by rw [run_setBitCount_of_blocks ht hb, hviews]; rfl, .known hviews fun hold => ?_⟩
      rw [hwhole hold]
    · -- A refused count leaves both hashers as they are, and the replies show their views.
      have hstay : ∀ {u : Store} {c : Hasher}, u name = some c → u = u.put name (some c) :=
        fun hu => by rw [← hu, Store.put_eq_self]
      refine ⟨.refused (.unequal (bits % 512).toNat 0) (View.of a), some a, some b, ?_, ?_,
        .known hview hwhole⟩
      · rw [run_setBitCount_of_part hs hb]
        exact congrArg _ (hstay hs)
      · rw [run_setBitCount_of_part ht hb, hview]
        exact congrArg _ (hstay ht)
  | drop name =>
    refine twins_of_target h choice (.drop name) (by simp) _ (fun hg => hg.symm) ?_
    intro a b old (hs : s name = some a) (ht : t name = some b) _ _ _
    exact ⟨_, _, _, run_drop_of_some hs, run_drop_of_some ht, .unknown⟩

theorem run_twins (h : Twins s t g) (steps : List (Strategy × Step)) :
    ((run steps).run s).1 = ((run steps).run t).1 ∧
      Twins ((run steps).run s).2 ((run steps).run t).2 (Settled.run steps g) := by
  induction steps generalizing s t g with
  | nil => exact ⟨rfl, h⟩
  | cons first rest ih =>
    obtain ⟨choice, st⟩ := first
    obtain ⟨hreply, hafter⟩ := step_twins h choice st
    obtain ⟨hreplies, hend⟩ := ih hafter
    exact ⟨congrArg₂ List.cons hreply hreplies, hend⟩

end Steps

/-- Sessions that begin with hashers of the same views, and go through the same steps, get the
same replies, faults among them, and keep the same views.  From a name's first padding,
closing or new start on its hashers agree in the whole buffer.  All this holds after each
step, since the steps may end there. -/
theorem stale_octets_never_show {s t : Store}
    (alike : ∀ name, Option.Rel (fun a b => View.of a = View.of b) (s name) (t name))
    (steps : List (Strategy × Step)) :
    let one := (run steps).run s
    let two := (run steps).run t
    one.1 = two.1 ∧
      (∀ name, Option.Rel (fun a b => View.of a = View.of b) (one.2 name) (two.2 name)) ∧
      ∀ name, Settled.run steps (Settled.start s) name = some true →
        one.2 name = two.2 name := by
  obtain ⟨hreplies, htwins⟩ := run_twins (Twins.start alike) steps
  exact ⟨hreplies, htwins.views, fun name => htwins.whole⟩

/-- One octet is pending, and the other places of the buffer differ.  The copy is taken
before the padding and stays unsettled. -/
theorem stale_octets_never_show_of_fill :
    let filled (octet : UInt8) : Hasher :=
      { state := ChainState.initial, bitCount := 8
        buffer := Vector.ofFn fun place => if place = 0 then 1 else octet }
    let plain := Strategy.uniform .rolled
    let s := Store.empty.put "a" (some (filled 0))
    let t := Store.empty.put "a" (some (filled 7))
    let steps : List (Strategy × Step) :=
      [(plain, .update "a" [2]), (plain, .clone "a" "b"), (plain, .pad "a"),
        (plain, .setBitCount "b" 8), (plain, .finalize "b")]
    (filled 0).buffer ≠ (filled 7).buffer ∧
      (∀ name, Option.Rel (fun a b => View.of a = View.of b) (s name) (t name)) ∧
      Settled.run (steps.take 3) (Settled.start s) "a" = some true ∧
      Settled.run (steps.take 3) (Settled.start s) "b" = some false ∧
      ((run steps).run s).1 = ((run steps).run t).1 ∧
      ((run (steps.take 3)).run s).2 "a" = ((run (steps.take 3)).run t).2 "a" := by
  intro filled plain s t steps
  have hview : View.of (filled 0) = View.of (filled 7) := by decide
  have halike : ∀ name, Option.Rel (fun a b => View.of a = View.of b) (s name) (t name) := by
    intro name
    by_cases hn : name = "a"
    · rw [hn]
      exact .some hview
    · have hs : s name = none := Store.put_of_ne _ _ hn
      have ht : t name = none := Store.put_of_ne _ _ hn
      rw [hs, ht]
      exact .none
  have hsettled : Settled.run (steps.take 3) (Settled.start s) "a" = some true := by decide
  exact ⟨by decide, halike, hsettled, by decide, (stale_octets_never_show halike steps).1,
    (stale_octets_never_show halike (steps.take 3)).2.2 "a" hsettled⟩

end Session
end SecureHash
