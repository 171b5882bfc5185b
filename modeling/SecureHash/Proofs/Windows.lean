import SecureHash.Proofs.Schedule

/-!
Sixteen words of the schedule carry the whole block.

The recurrence makes each word from the sixteen before it, and the oldest of those comes in by an
addition alone.  So the words run backwards as well as forwards (`slide_bijective`), and every
window of sixteen is as many steps away from the first one, which is the block.
-/

namespace SecureHash
open Standard (digits256)

namespace Block

/-- The words that a block spells. -/
def words (block : Block) : Fin 16 → UInt32 := fun i => Standard.blockWord block i

/-- The block that sixteen words spell. -/
def ofWords (words : Fin 16 → UInt32) : Block :=
  ⟨((List.ofFn words).flatMap fun word => digits256 4 word.toNat).toArray, by
    rw [List.size_toArray, List.length_flatMap]
    simp⟩

theorem toList_ofWords (words : Fin 16 → UInt32) :
    (ofWords words).toList = (List.ofFn words).flatMap fun word => digits256 4 word.toNat := rfl

theorem ofFn_words (block : Block) :
    List.ofFn block.words = BigEndian.readOver (List.replicate 16 0) block.toList := by
  have hlen : block.toList.length = 4 * (List.replicate 16 (0 : UInt32)).length := by
    rw [Vector.length_toList, List.length_replicate]
  apply List.ext_getElem?
  intro t
  rcases Nat.lt_or_ge t 16 with ht | ht
  · rw [BigEndian.getElem?_readOver hlen (by simpa using ht),
      List.getElem?_eq_getElem (by simpa using ht), List.getElem_ofFn]
    rfl
  · rw [List.getElem?_eq_none (by simpa using ht),
      List.getElem?_eq_none (by simpa using ht)]

theorem ofWords_words (block : Block) : ofWords block.words = block := by
  apply Vector.toList_inj.mp
  rw [toList_ofWords, ofFn_words]
  exact BigEndian.flatMap_digits256_readOver (by simp)

theorem words_ofWords (words : Fin 16 → UInt32) : (ofWords words).words = words := by
  apply List.ofFn_injective
  rw [ofFn_words, toList_ofWords]
  exact BigEndian.readOver_flatMap_digits256 (by simp)

theorem words_bijective : Function.Bijective words :=
  Function.bijective_iff_has_inverse.mpr ⟨ofWords, ofWords_words, words_ofWords⟩

end Block

namespace Schedule

/-! ## One step -/

/-- The next sixteen words: the oldest goes, and the one made from it comes. -/
def slide (u : Fin 16 → UInt32) : Fin 16 → UInt32 :=
  Fin.snoc (Fin.tail u) (smallSigma1 (u 14) + u 9 + smallSigma0 (u 1) + u 0)

/-- The sixteen words before: the latest goes, and the one it was made from comes back. -/
def slideBack (u : Fin 16 → UInt32) : Fin 16 → UInt32 :=
  Fin.cons (u 15 - (smallSigma1 (u 13) + u 8 + smallSigma0 (u 0))) (Fin.init u)

theorem slideBack_slide (u : Fin 16 → UInt32) : slideBack (slide u) = u := by
  have hlast : slide u 15 = smallSigma1 (u 14) + u 9 + smallSigma0 (u 1) + u 0 :=
    Fin.snoc_last _ _
  have h13 : slide u 13 = u 14 := rfl
  have h8 : slide u 8 = u 9 := rfl
  have h0 : slide u 0 = u 1 := rfl
  rw [slideBack, hlast, h13, h8, h0, add_sub_cancel_left, slide, Fin.init_snoc, Fin.cons_self_tail]

theorem slide_slideBack (u : Fin 16 → UInt32) : slide (slideBack u) = u := by
  have hfirst : slideBack u 0 = u 15 - (smallSigma1 (u 13) + u 8 + smallSigma0 (u 0)) := rfl
  have h14 : slideBack u 14 = u 13 := rfl
  have h9 : slideBack u 9 = u 8 := rfl
  have h1 : slideBack u 1 = u 0 := rfl
  rw [slide, hfirst, h14, h9, h1, add_sub_cancel, slideBack, Fin.tail_cons]
  exact Fin.snoc_init_self u

theorem slide_bijective : Function.Bijective slide :=
  Function.bijective_iff_has_inverse.mpr ⟨slideBack, slideBack_slide, slide_slideBack⟩

/-! ## Windows -/

/-- Sixteen words in a row, the first of them word `t`. -/
def window (w : Schedule) (t : Fin 49) : Fin 16 → UInt32 := fun i => w[t.val + i.val]

theorem getElem_ofBlock_add (block : Block) {t : Nat} (ht : t + 16 < 64) :
    (ofBlock block)[t + 16] = smallSigma1 (ofBlock block)[t + 14] + (ofBlock block)[t + 9] +
      smallSigma0 (ofBlock block)[t + 1] + (ofBlock block)[t] := by
  simp only [getElem_ofBlock, Standard.scheduleWord_add, smallSigma0_eq_lowerSigma0,
    smallSigma1_eq_lowerSigma1]

theorem window_zero (block : Block) : (ofBlock block).window 0 = block.words := by
  funext i
  show (ofBlock block)[0 + i.val] = _
  rw [getElem_ofBlock, Nat.zero_add, Standard.scheduleWord, if_pos i.isLt]
  rfl

/-- Each window is the one before it, slid by one word. -/
theorem window_succ (block : Block) {t : Nat} (ht : t + 1 < 49) :
    (ofBlock block).window ⟨t + 1, ht⟩ =
      slide ((ofBlock block).window ⟨t, Nat.lt_of_succ_lt ht⟩) := by
  funext i
  induction i using Fin.lastCases with
  | last =>
    rw [slide, Fin.snoc_last]
    exact getElem_ofBlock_add block (by omega)
  | cast i =>
    rw [slide, Fin.snoc_castSucc, Fin.tail]
    show (ofBlock block)[t + 1 + i.val] = (ofBlock block)[t + (i.val + 1)]
    exact getElem_congr_idx (by omega)

theorem window_eq_iterate (block : Block) {t : Nat} (ht : t < 49) :
    (ofBlock block).window ⟨t, ht⟩ = slide^[t] block.words := by
  induction t with
  | zero => exact window_zero block
  | succ t ih => rw [window_succ, ih, Function.iterate_succ_apply']

theorem window_bijective (t : Fin 49) :
    Function.Bijective fun block => (ofBlock block).window t := by
  have hmap : (fun block => (ofBlock block).window t) = slide^[t.val] ∘ Block.words :=
    funext fun block => window_eq_iterate block t.isLt
  rw [hmap]
  exact (slide_bijective.iterate t.val).comp Block.words_bijective

/-- The schedule that a block expands to is the same in either variant and whatever the array
held, and any sixteen of its words in a row carry the whole block: different blocks differ there,
and any sixteen words are there for some block. -/
theorem windows_carry_block (t : Fin 49) :
    ∃ carried : Block → Fin 16 → UInt32, Function.Bijective carried ∧
      ∀ (v : Variant) (block : Block) (old : Schedule), ∃ w,
        (expand v block.toList).run old = .ok () w ∧ w.window t = carried block :=
  ⟨_, window_bijective t, fun v block old => ⟨_, run_expand_block v block old, rfl⟩⟩

end Schedule
end SecureHash
