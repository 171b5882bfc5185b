import Mathlib
import SecureHash.Fault

/-!
One equation for each way a run goes on: after a step that succeeded, after a value
that was computed beside the store, and after the store was read or changed.  A proof
about a run rewrites by these from the first step to the last.
-/

namespace SecureHash

variable {ε σ α β : Type}

theorem run_bind_of_ok {act : EStateM ε σ α} {s t : σ} {a : α} (h : act.run s = .ok a t)
    (next : α → EStateM ε σ β) : (act >>= next).run s = (next a).run t := by
  rw [EStateM.run_bind, h]

theorem lift_bind_of_ok {value : Except ε α} {a : α} (h : value = .ok a)
    (next : α → EStateM ε σ β) : (liftM value : EStateM ε σ α) >>= next = next a := by
  rw [h]
  rfl

theorem run_lift_bind_of_ok {value : Except ε α} {a : α} (h : value = .ok a)
    (next : α → EStateM ε σ β) (s : σ) :
    ((liftM value : EStateM ε σ α) >>= next).run s = (next a).run s := by
  rw [lift_bind_of_ok h]

theorem run_get_bind (next : σ → EStateM ε σ β) (s : σ) :
    ((get : EStateM ε σ σ) >>= next).run s = (next s).run s := rfl

theorem run_modify_bind (f : σ → σ) (next : PUnit → EStateM ε σ β) (s : σ) :
    ((modify f : EStateM ε σ PUnit) >>= next).run s = (next ⟨⟩).run (f s) := rfl

/-! ## What a value came from -/

theorem bind_eq_ok_iff {value : Except ε α} {next : α → Except ε β} {b : β} :
    value >>= next = .ok b ↔ ∃ a, value = .ok a ∧ next a = .ok b := by
  cases value with
  | ok a =>
    show next a = .ok b ↔ _
    simp
  | error e =>
    show Except.error e = .ok b ↔ _
    simp

theorem bind_eq_error_iff {value : Except ε α} {next : α → Except ε β} {e : ε} :
    value >>= next = .error e ↔
      value = .error e ∨ ∃ a, value = .ok a ∧ next a = .error e := by
  cases value with
  | ok a =>
    show next a = .error e ↔ _
    simp
  | error other =>
    show Except.error other = .error e ↔ _
    simp

/-! ## Noting -/

/-- Noting down values one by one leaves them in front, the latest first. -/
theorem forM_note {m : Type → Type} [Monad m] [MonadStateOf (List α) m]
    [LawfulMonadStateOf (List α) m] (l : List α) :
    (l.forM fun a => modify (a :: ·) : m Unit) = modify (l.reverse ++ ·) := by
  induction l with
  | nil => exact LawfulMonadStateOf.modify_id.symm
  | cons a rest ih =>
    rw [List.forM_eq_forM] at ih ⊢
    rw [List.forM_cons, ih, LawfulMonadStateOf.modify_bind_modify]
    refine congrArg modify (funext fun found => ?_)
    rw [Function.comp_apply, List.reverse_cons, List.append_assoc, List.singleton_append]

end SecureHash
