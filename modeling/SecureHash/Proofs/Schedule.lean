import SecureHash.Standard.Compression
import SecureHash.Proofs.WordLogic
import SecureHash.Proofs.Digits

/-!
Both ways to fill the schedule array give the words of the standard's recurrence.

The array may hold anything before.  Step `t` writes word `t + 16` from words that are
already right, which is what `Filled` carries through the fold.
-/

namespace SecureHash

theorem fin_foldl_induct {α : Type} {n : Nat} (f : α → Fin n → α) (motive : Nat → α → Prop)
    (x : α) (hzero : motive 0 x)
    (hsucc : ∀ (t : Fin n) (a : α), motive t a → motive (t + 1) (f a t)) :
    motive n (Fin.foldl n f x) := by
  induction n with
  | zero => rw [Fin.foldl_zero]; exact hzero
  | succ n ih =>
    rw [Fin.foldl_succ_last]
    exact hsucc (Fin.last n) _ (ih (fun a t => f a t.castSucc) fun t a => hsucc t.castSucc a)

/-- The recurrence, by the places of the words it reads. -/
theorem Standard.scheduleWord_add (block : Block) (t : Nat) :
    scheduleWord block (t + 16) =
      lowerSigma1 (scheduleWord block (t + 14)) + scheduleWord block (t + 9) +
        lowerSigma0 (scheduleWord block (t + 1)) + scheduleWord block t := by
  rw [scheduleWord, if_neg (by omega)]
  rfl

namespace Schedule

/-- The first `n` words are those of the schedule of `block`. -/
def Filled (block : Block) (n : Nat) (w : Schedule) : Prop :=
  ∀ (t : Nat) (ht : t < 64), t < n → w[t] = Standard.scheduleWord block t

theorem extendAt_filled {block : Block} {w : Schedule} (t : Fin 48)
    (h : Filled block (t.val + 16) w) : Filled block (t.val + 1 + 16) (w.extendAt t) := by
  intro i hi hlt
  by_cases he : t.val + 16 = i
  · subst he
    rw [getElem_extendAt_self, h _ _ (by omega), h _ _ (by omega), h _ _ (by omega),
      h _ _ (by omega), Standard.scheduleWord_add, smallSigma0_eq_lowerSigma0,
      smallSigma1_eq_lowerSigma1]
  · rw [getElem_extendAt_of_ne w t hi he]
    exact h i hi (by omega)

theorem extend_filled {block : Block} {w : Schedule} (v : Variant) (h : Filled block 16 w) :
    Filled block 64 (extend v w) := by
  have hloop : Filled block 64 (extendLoop w) :=
    fin_foldl_induct extendAt (fun n w => Filled block (n + 16) w) w h
      fun t w hw => extendAt_filled t hw
  cases v with
  | rolled => exact hloop
  | unrolled => rw [extend, extendStraight_eq_extendLoop]; exact hloop

theorem load_filled {block : Block} {old w : Schedule}
    (h : w.toList = BigEndian.readOver (old.toList.take 16) block.toList ++ old.toList.drop 16) :
    Filled block 16 w := by
  intro t ht hlt
  have htake : (old.toList.take 16).length = 16 := by
    rw [List.length_take, Vector.length_toList]
    rfl
  have hfit : block.toList.length = 4 * (old.toList.take 16).length := by
    rw [htake, Vector.length_toList]
  have hread := BigEndian.getElem?_readOver hfit (show t < (old.toList.take 16).length by omega)
  have hw : w.toList[t]? = some w[t] := by
    rw [List.getElem?_eq_getElem (by simpa using ht), Vector.getElem_toList]
  rw [h, List.getElem?_append_left (by simpa [htake] using hlt),
    hread] at hw
  rw [Standard.scheduleWord, if_pos hlt]
  exact (Option.some.inj hw).symm

/-- The schedule of a block, all of whose words come from the block. -/
def ofBlock (block : Block) : Schedule := Vector.ofFn fun t => Standard.scheduleWord block t

@[simp] theorem getElem_ofBlock (block : Block) {t : Nat} (ht : t < 64) :
    (ofBlock block)[t] = Standard.scheduleWord block t := by
  rw [ofBlock, Vector.getElem_ofFn]

theorem eq_ofBlock {block : Block} {w : Schedule} (h : Filled block 64 w) : w = ofBlock block := by
  apply Vector.ext
  intro t ht
  rw [getElem_ofBlock]
  exact h t ht ht

theorem run_expand_block (v : Variant) (block : Block) (old : Schedule) :
    (expand v block.toList).run old = .ok () (ofBlock block) := by
  have hlen : block.toList.length = 64 := Vector.length_toList
  obtain ⟨w, hload, hw⟩ := load_eq_ok old hlen
  rw [run_expand v hlen hload, eq_ofBlock (extend_filled v (load_filled hw))]

end Schedule
end SecureHash
