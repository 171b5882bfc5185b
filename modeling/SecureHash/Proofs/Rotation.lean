import SecureHash.Compression.Rounds
import Mathlib

/-!
Rounds that rename instead of moving words.

A round moves seven of eight words by one place.  The straight-line rounds leave the words
where they are and count a base backwards, so after `t` rounds slot `base + i` holds what
the loop has in slot `i` (`Aligned`).  Sixty-four rounds bring the base back to zero, and the
two agree (`mixStraight_eq_mixLoop`).
-/

namespace SecureHash
namespace Rounds

theorem get_set {α : Type} {n : Nat} (s : Vector α n) (i j : Fin n) (x : α) :
    (s.set i x i.isLt).get j = if i = j then x else s.get j := by
  show (s.set i x i.isLt)[j.val] = if i = j then x else s[j.val]
  simp only [Vector.getElem_set, Fin.ext_iff]

/-- What a round adds to the word of `h` before that word moves on to `d`. -/
def roundSum (kw e f g h : UInt32) : UInt32 := h + bigSigma1 e + choose e f g + kw

theorem get_turn (base j : Fin 8) (kw : UInt32) (s : ChainState) :
    let sum :=
      roundSum kw (s.get (base + 4)) (s.get (base + 5)) (s.get (base + 6)) (s.get (base + 7))
    (turn base kw s).get (base + j) =
      if j = 7 then
        sum + bigSigma0 (s.get base) + majority (s.get base) (s.get (base + 1)) (s.get (base + 2))
      else if j = 3 then s.get (base + 3) + sum
      else s.get (base + j) := by
  intro sum
  have hne : ∀ a b : Fin 8, base + a = base + b ↔ a = b := fun a b => add_right_inj base
  have hzero : ∀ a : Fin 8, base + a = base ↔ a = 0 := fun a => add_eq_left
  -- The three writes of a turn, with the slots read through `get`.
  let write (s : ChainState) (i : Fin 8) (x : UInt32) : ChainState := s.set i x i.isLt
  let first := write s (base + 7) sum
  let second := write first (base + 3) (first.get (base + 3) + first.get (base + 7))
  have hturn : turn base kw s = write second (base + 7) (second.get (base + 7) +
      bigSigma0 (second.get base) + majority (second.get base) (second.get (base + 1))
        (second.get (base + 2))) := rfl
  rw [hturn]
  by_cases h7 : j = 7
  · subst h7
    simp only [write, first, second, get_set, hne, hzero, Fin.reduceEq, ↓reduceIte]
  · by_cases h3 : j = 3
    · subst h3
      simp only [write, first, second, get_set, hne, Fin.reduceEq, ↓reduceIte]
    · simp only [write, first, second, get_set, hne, if_neg h7, if_neg h3, if_neg (Ne.symm h7),
        if_neg (Ne.symm h3)]

/-- The slots of `s` hold the working variables `v`, the first of them at `base`. -/
def Aligned (base : Fin 8) (s v : ChainState) : Prop := ∀ i : Fin 8, s.get (base + i) = v.get i

theorem aligned_zero_iff {s v : ChainState} : Aligned 0 s v ↔ s = v := by
  constructor
  · intro h
    apply Vector.ext
    intro i hi
    have hslot := h ⟨i, hi⟩
    rw [zero_add] at hslot
    exact hslot
  · rintro rfl i
    rw [zero_add]

theorem turn_aligned {base : Fin 8} {s v : ChainState} (h : Aligned base s v) (k w : UInt32) :
    Aligned (base - 1) (turn base (k + w) s) (shift v k w) := by
  have hbase : s.get base = v.get 0 := by simpa only [add_zero] using h 0
  have hsum : roundSum (k + w) (v.get 4) (v.get 5) (v.get 6) (v.get 7) =
      v[7] + bigSigma1 v[4] + choose v[4] v[5] v[6] + k + w := (add_assoc _ k w).symm
  intro i
  -- The variable at place `i` after the round was at place `i + 7` before it.
  have hi : base - 1 + i = base + (i + 7) := by
    rw [sub_eq_add_neg, add_assoc, add_comm (-1) i]
    rfl
  rw [hi, get_turn, h 7, h 4, h 5, h 6, hsum, hbase, h 1, h 2, h 3, h (i + 7)]
  fin_cases i
  · exact add_assoc _ _ _
  all_goals rfl

/-- After any number of rounds the roles are as many slots further back. -/
theorem turnsFrom_aligned {base : Fin 8} {s v : ChainState} (h : Aligned base s v)
    (inputs : List (UInt32 × UInt32)) :
    Aligned (base - Fin.ofNat 8 inputs.length) (turnsFrom base (inputs.map fun kw => kw.1 + kw.2) s)
      (inputs.foldl (fun v kw => shift v kw.1 kw.2) v) := by
  induction inputs generalizing base s v with
  | nil => simpa [turnsFrom] using h
  | cons kw rest ih =>
    have hlen : base - Fin.ofNat 8 (kw :: rest).length = base - 1 - Fin.ofNat 8 rest.length := by
      rw [List.length_cons, sub_sub]
      congr 1
      apply Fin.ext
      simp only [Fin.ofNat, Fin.val_add]
      omega
    rw [hlen]
    exact ih (turn_aligned h kw.1 kw.2)

theorem mixStraight_eq_turnsFrom (w : Schedule) (s : ChainState) :
    mixStraight w s =
      turnsFrom 0 ((List.finRange 64).map fun t => constants.get t + w.get t) s := rfl

theorem mixLoop_eq_foldl (w : Schedule) (s : ChainState) :
    mixLoop w s = (List.finRange 64).foldl (fun v t => shift v (constants.get t) (w.get t)) s := by
  have hzip : (constants.zip w).toList =
      (List.finRange 64).map fun t => (constants.get t, w.get t) := by
    apply List.ext_getElem
    · simp
    · intro t h _
      simp [Vector.get]
  rw [mixLoop, ← Vector.foldl_toList, hzip, List.foldl_map]

theorem mixStraight_eq_mixLoop (w : Schedule) (s : ChainState) : mixStraight w s = mixLoop w s := by
  rw [mixStraight_eq_turnsFrom, mixLoop_eq_foldl]
  have h := turnsFrom_aligned (aligned_zero_iff.mpr (Eq.refl s))
    ((List.finRange 64).map fun t => (constants.get t, w.get t))
  rw [List.map_map, List.foldl_map, List.length_map, List.length_finRange] at h
  -- Sixty-four rounds take every role back to its own slot.
  have hback : (0 : Fin 8) - Fin.ofNat 8 64 = 0 := rfl
  rw [hback] at h
  exact aligned_zero_iff.mp h

end Rounds
end SecureHash
