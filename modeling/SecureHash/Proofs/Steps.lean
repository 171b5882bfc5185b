import SecureHash.Proofs.Locality
import SecureHash.Proofs.Closing

/-!
What each step of a session replies and leaves on a hasher that is known.  With
`step_of_unknown` this covers every step but `create`.

What is known beside a store, a message or an account for each name, is related to it name
by name, and the relation has to be shown at the target of a step alone (`Related.put`).
-/

namespace SecureHash
namespace Session

variable {choice : Strategy} {name : String} {s : Store} {h : Hasher}

theorem run_view_of_some (hs : s name = some h) :
    (step choice (.view name)).run s = (.view (View.of h), s.put name (some h)) := by
  rw [step]
  exact run_onHasher_of_ok hs rfl

theorem run_update_of_some (hs : s name = some h) (data : List UInt8) :
    ∃ after, View.of after = (View.of h).extend data ∧
      (step choice (.update name data)).run s =
        (.view (View.of after), s.put name (some after)) := by
  obtain ⟨after, hrun, hview⟩ := Hasher.run_update choice data h
  refine ⟨after, hview, ?_⟩
  rw [step]
  exact run_onHasher_of_ok hs hrun

theorem run_finalize_of_some (hs : s name = some h) :
    (step choice (.finalize name)).run s = (.digest (View.of h).digest, s.put name none) := by
  rw [step, run_forget (run_onHasher_of_ok hs (Hasher.run_finalize choice h)), Store.put_put]

theorem run_finalizeInto_of_some (hs : s name = some h) (out : Vector UInt8 32) :
    (step choice (.finalizeInto name out)).run s =
      (.finalized (View.of h).digest (WholeView.of Hasher.initial),
        s.put name (some Hasher.initial)) := by
  rw [step]
  exact run_onHasher_of_ok hs (Hasher.run_finalizeInto choice out h)

theorem run_pad_of_some (hs : s name = some h) :
    (step choice (.pad name)).run s =
      (.padded (View.of h).paddedBlocks.length (WholeView.of (View.of h).afterPad),
        s.put name (some (View.of h).afterPad)) := by
  rw [step]
  exact run_onHasher_of_ok hs (Hasher.run_pad choice h)

theorem run_reset_of_some (hs : s name = some h) :
    (step choice (.reset name)).run s =
      (.whole (WholeView.of Hasher.initial), s.put name (some Hasher.initial)) := by
  rw [step]
  exact run_onHasher_of_ok hs (Hasher.run_reset h)

theorem run_zeroize_of_some (hs : s name = some h) :
    (step choice (.zeroize name)).run s =
      (.whole (WholeView.of Hasher.wiped), s.put name (some Hasher.wiped)) := by
  rw [step]
  exact run_onHasher_of_ok hs rfl

theorem run_setBitCount_of_blocks (hs : s name = some h) {bits : UInt64} (hb : bits % 512 = 0) :
    (step choice (.setBitCount name bits)).run s =
      (.view (View.of { h with bitCount := bits }),
        s.put name (some { h with bitCount := bits })) := by
  rw [step]
  exact run_onHasher_of_ok hs (by rw [Hasher.run_setBitCount, if_pos hb])

theorem run_setBitCount_of_part (hs : s name = some h) {bits : UInt64} (hb : bits % 512 ≠ 0) :
    (step choice (.setBitCount name bits)).run s =
      (.refused (.unequal (bits % 512).toNat 0) (View.of h), s) := by
  have hrun : (Hasher.setBitCount bits).run h = .error (.unequal (bits % 512).toNat 0) h := by
    rw [Hasher.run_setBitCount, if_neg hb]
  rw [step, run_onHasher_of_error hs hrun, ← hs, Store.put_eq_self]

theorem run_drop_of_some (hs : s name = some h) :
    (step choice (.drop name)).run s = (.dropped, s.put name none) := by
  have hlook : (onHasher name (pure ()) fun _ _ => .dropped).run s =
      (.dropped, s.put name (some h)) := run_onHasher_of_ok hs rfl
  rw [step, run_forget hlook, Store.put_put]

/-! ## What a step leaves in the store -/

theorem store_view (choice : Strategy) (name : String) (s : Store) :
    ((step choice (.view name)).run s).2 = s := by
  cases hs : s name with
  | none => rw [step_of_unknown choice (.view name) hs fun _ => nofun]
  | some h =>
    rw [run_view_of_some hs, ← hs]
    exact Store.put_eq_self s name

theorem store_pad (choice : Strategy) (name : String) (s : Store) :
    ((step choice (.pad name)).run s).2 =
      s.put name ((s name).map fun h => (View.of h).afterPad) := by
  cases hs : s name with
  | none => rw [step_of_unknown choice (.pad name) hs fun _ => nofun, Option.map_none, ← hs,
      Store.put_eq_self]
  | some h => rw [run_pad_of_some hs, Option.map_some]

/-- A count that is not whole blocks changes nothing. -/
theorem store_setBitCount (choice : Strategy) (name : String) (bits : UInt64) (s : Store) :
    ((step choice (.setBitCount name bits)).run s).2 =
      if bits % 512 = 0 then s.put name ((s name).map fun h => { h with bitCount := bits })
      else s := by
  cases hs : s name with
  | none =>
    rw [step_of_unknown choice (.setBitCount name bits) hs fun _ => nofun, Option.map_none, ← hs,
      Store.put_eq_self, ite_self]
  | some h =>
    by_cases hb : bits % 512 = 0
    · rw [run_setBitCount_of_blocks hs hb, if_pos hb, Option.map_some]
    · rw [run_setBitCount_of_part hs hb, if_neg hb]

/-! ## Stores related name by name -/

/-- The names of `s` are those of `m`, and `R` holds between what the two have there. -/
def Store.Related {β : Type} (R : Hasher → β → Prop) (s : Store) (m : String → Option β) : Prop :=
  ∀ name, Option.Rel R (s name) (m name)

namespace Store.Related

variable {β : Type} {R : Hasher → β → Prop} {m : String → Option β}

theorem empty : Store.Related R Store.empty fun _ => none := fun _ => .none

theorem look_up (hr : Store.Related R s m) (name : String) :
    (s name = none ∧ m name = none) ∨ ∃ h b, s name = some h ∧ m name = some b ∧ R h b := by
  generalize hs : s name = found
  generalize hm : m name = b
  have hrel := hr name
  rw [hs, hm] at hrel
  cases hrel with
  | none => exact .inl ⟨rfl, rfl⟩
  | some hrel => exact .inr ⟨_, _, rfl, rfl, hrel⟩

theorem mono {R' : Hasher → β → Prop} (hr : Store.Related R s m)
    (himp : ∀ {h b}, R h b → R' h b) : Store.Related R' s m := by
  intro name
  rcases hr.look_up name with ⟨hs, hm⟩ | ⟨h, b, hs, hm, hrel⟩
  · rw [hs, hm]
    exact .none
  · rw [hs, hm]
    exact .some (himp hrel)

/-- A step other than `create` finds nothing and does nothing, or finds a hasher and what
is known beside it. -/
theorem step_cases (hr : Store.Related R s m) (choice : Strategy) (st : Step)
    (hst : ∀ name, st ≠ .create name) :
    (m st.subject = none ∧ (step choice st).run s = (.unknown, s)) ∨
      ∃ h b, s st.subject = some h ∧ m st.subject = some b ∧ R h b := by
  rcases hr.look_up st.subject with ⟨hs, hm⟩ | hknown
  · exact .inl ⟨hm, step_of_unknown choice st hs hst⟩
  · exact .inr hknown

theorem put (hr : Store.Related R s m) (target : String) {after : Option Hasher} {b : Option β}
    (hrel : Option.Rel R after b) :
    Store.Related R (s.put target after) (Function.update m target b) := by
  intro other
  by_cases hn : other = target
  · simpa [hn] using hrel
  · simpa [hn] using hr other

end Store.Related

end Session
end SecureHash
