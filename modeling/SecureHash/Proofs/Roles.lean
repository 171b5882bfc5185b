import SecureHash.Proofs.Inversion

/-!
Which variable a slot holds after any number of rounds in place.

Round `t` finds its roles from slot `-t` on, so after `n` rounds slot `-n + i` holds what the
shifting rounds have in slot `i` (`turns_aligned`).  After every eighth round the two forms agree
slot by slot.  They do so after no other number of rounds, because the shifting rounds reach every
state and in some states no two words are equal (`turns_eq_shifts_iff`).
-/

namespace SecureHash

theorem ChainState.get_initial_injective : Function.Injective ChainState.initial.get := by decide

namespace Rounds

/-! ## Rounds by their number -/

/-- The slot that plays `a` in round `t`: with each round it is one less, modulo eight. -/
def baseAt (t : Nat) : Fin 8 := ⟨(8 - t % 8) % 8, Nat.mod_lt _ (by decide)⟩

/-- The slots after `n` rounds in place, when `kw t` goes into round `t`. -/
def turns {n : Nat} (kw : Fin n → UInt32) (s : ChainState) : ChainState :=
  Fin.foldl n (fun s t => turn (baseAt t) (kw t) s) s

/-- The working variables after `n` rounds that move them.  Their input comes in two parts, and any
word is the sum of two. -/
def shifts {n : Nat} (k w : Fin n → UInt32) (s : ChainState) : ChainState :=
  Fin.foldl n (fun v t => shift v (k t) (w t)) s

theorem val_baseAt {t : Nat} (ht : t ≤ 64) : (baseAt t).val = (64 - t) % 8 := by
  simp only [baseAt]
  omega

theorem baseAt_eq_neg (t : Nat) : baseAt t = -Fin.ofNat 8 t := by
  apply Fin.ext
  simp only [baseAt, Fin.ofNat, Fin.neg_def]

theorem baseAt_succ (t : Nat) : baseAt (t + 1) = baseAt t - 1 := by
  apply Fin.ext
  simp only [baseAt, Fin.sub_def]
  omega

theorem baseAt_eq_zero_iff (t : Nat) : baseAt t = 0 ↔ 8 ∣ t := by
  rw [Fin.ext_iff]
  simp only [baseAt]
  omega

/-- Numbering the rounds comes to the same as counting the base down. -/
theorem foldl_turn_eq_turnsFrom {n : Nat} (base : Fin 8) (kw : Fin n → UInt32) (s : ChainState) :
    Fin.foldl n (fun s t => turn (base + baseAt t) (kw t) s) s =
      turnsFrom base (List.ofFn kw) s := by
  induction n generalizing base s with
  | zero => rfl
  | succ n ih =>
    have hfirst : base + baseAt 0 = base := add_zero base
    have hrest : ∀ t, base + baseAt (t + 1) = base - 1 + baseAt t := fun t => by
      rw [baseAt_succ, add_sub_assoc', sub_add_eq_add_sub]
    rw [Fin.foldl_succ, List.ofFn_succ, turnsFrom, ← ih]
    simp only [Fin.val_zero, Fin.val_succ, hfirst, hrest]

theorem turns_eq_turnsFrom {n : Nat} (kw : Fin n → UInt32) (s : ChainState) :
    turns kw s = turnsFrom 0 (List.ofFn kw) s := by
  rw [← foldl_turn_eq_turnsFrom]
  simp only [zero_add]
  rfl

theorem shifts_eq_foldl {n : Nat} (k w : Fin n → UInt32) (s : ChainState) :
    shifts k w s =
      (List.ofFn fun t => (k t, w t)).foldl (fun v kw => shift v kw.1 kw.2) s := by
  rw [shifts, Fin.foldl_eq_finRange_foldl, List.ofFn_eq_map, List.foldl_map]

theorem mixStraight_eq_turns (w : Schedule) (s : ChainState) :
    mixStraight w s = turns (constants.get + w.get) s := by
  rw [mixStraight_eq_turnsFrom, turns_eq_turnsFrom, List.ofFn_eq_map]
  rfl

theorem mixLoop_eq_shifts (w : Schedule) (s : ChainState) :
    mixLoop w s = shifts constants.get w.get s := by
  rw [mixLoop_eq_foldl, shifts, Fin.foldl_eq_finRange_foldl]

/-! ## Where the roles are -/

theorem turns_aligned {n : Nat} (k w : Fin n → UInt32) (s : ChainState) :
    Aligned (baseAt n) (turns (k + w) s) (shifts k w s) := by
  have h := turnsFrom_aligned (aligned_zero_iff.mpr (Eq.refl s)) (List.ofFn fun t => (k t, w t))
  rw [List.map_ofFn, List.length_ofFn, zero_sub, ← baseAt_eq_neg] at h
  rw [turns_eq_turnsFrom, shifts_eq_foldl]
  exact h

theorem shifts_surjective {n : Nat} (k w : Fin n → UInt32) : Function.Surjective (shifts k w) := by
  induction n with
  | zero => exact fun v => ⟨v, rfl⟩
  | succ n ih =>
    intro v
    obtain ⟨s, hs⟩ := ih (fun t => k t.castSucc) (fun t => w t.castSucc)
      (unshift v (k (Fin.last n)) (w (Fin.last n)))
    refine ⟨s, ?_⟩
    rw [shifts] at hs
    rw [shifts, Fin.foldl_succ_last, hs, shift_unshift]

theorem turns_eq_shifts_iff {n : Nat} (k w : Fin n → UInt32) :
    (∀ s, turns (k + w) s = shifts k w s) ↔ 8 ∣ n := by
  rw [← baseAt_eq_zero_iff]
  constructor
  · intro hall
    -- Let the rounds end in eight different words, so that a slot tells which of them it holds.
    obtain ⟨s, hs⟩ := shifts_surjective k w ChainState.initial
    have h := turns_aligned k w s 0
    rw [hall, hs, add_zero] at h
    exact ChainState.get_initial_injective h
  · intro hbase s
    have h := turns_aligned k w s
    rw [hbase] at h
    exact aligned_zero_iff.mp h

theorem get_apply (v : Variant) (w : Schedule) (s : ChainState) (i : Fin 8) :
    (apply v w s).get i = s.get i + (mix v w s).get i :=
  Vector.getElem_zipWith i.isLt

/-- With rounds in place the roles go back by one slot a round: whatever goes into `n` of them, slot
`-n + i` then holds the variable that the shifting rounds have in slot `i`.  So each slot has its
own variable again when `n` is a multiple of eight, and for no other `n` from every state.  The
straight line makes sixty-four such rounds, and its closing addition puts each variable on its own
word. -/
theorem roles_rotate :
    (∀ {n : Nat} (k w : Fin n → UInt32),
      (∀ (s : ChainState) (i : Fin 8),
        (turns (k + w) s).get (baseAt n + i) = (shifts k w s).get i) ∧
      ((∀ s, turns (k + w) s = shifts k w s) ↔ 8 ∣ n)) ∧
    (∀ t : Nat, baseAt t = -Fin.ofNat 8 t) ∧
    (∀ t : Fin 64, (baseAt t).val = (64 - t.val) % 8) ∧
    ∀ (w : Schedule) (s : ChainState),
      mixStraight w s = turns (constants.get + w.get) s ∧
      mixLoop w s = shifts constants.get w.get s ∧
      ∀ i : Fin 8, (apply .unrolled w s).get i = s.get i + (mixLoop w s).get i := by
  refine ⟨?_, baseAt_eq_neg, ?_, ?_⟩
  · intro n k w
    exact ⟨turns_aligned k w, turns_eq_shifts_iff k w⟩
  · intro t
    exact val_baseAt (Nat.le_of_lt t.isLt)
  · intro w s
    refine ⟨mixStraight_eq_turns w s, mixLoop_eq_shifts w s, fun i => ?_⟩
    rw [get_apply, mix_eq_mixLoop]

end Rounds
end SecureHash
