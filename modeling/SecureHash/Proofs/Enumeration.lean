import SecureHash.Proofs.Compositions

/-!
Compositions in order.

The walk tries each first size in turn, and below it the compositions of what is left.  So of
two compositions the one with the lesser first size is met earlier, and the rest decides
among those that start alike (`ordered_all`).  The order is that of words, and an order that
is strict meets nothing twice.
-/

namespace SecureHash
namespace Composition

/-- In the order of words, the first size that differs decides. -/
def Ordered (found : List (List Nat)) : Prop := found.Pairwise (List.Lex (· < ·))

theorem Ordered.map_cons {found : List (List Nat)} (h : Ordered found) (size : Nat) :
    Ordered (found.map (size :: ·)) :=
  List.Pairwise.map _ (fun _ _ hlex => .cons hlex) h

theorem Ordered.nodup {found : List (List Nat)} (h : Ordered found) : found.Nodup := by
  refine List.Pairwise.imp ?_ h
  rintro sizes _ hlex rfl
  exact List.lex_irrefl Nat.lt_irrefl sizes hlex

theorem ordered_all (length : Nat) : Ordered (all length) := by
  induction length using all.induct with
  | case1 =>
    rw [all]
    exact List.pairwise_singleton _ _
  | case2 r ih =>
    rw [all, Ordered, List.pairwise_flatMap]
    constructor
    · intro i _
      exact (ih i).map_cons _
    · apply (List.pairwise_lt_finRange (r + 1)).imp
      intro i j hij a ha b hb
      obtain ⟨_, -, rfl⟩ := List.mem_map.mp ha
      obtain ⟨_, -, rfl⟩ := List.mem_map.mp hb
      exact .rel (Nat.succ_lt_succ hij)

/-- `found` holds the compositions of `length`, each of them once, in the order of words. -/
structure Enumerates (length : Nat) (found : List (List Nat)) : Prop where
  mem : ∀ sizes, sizes ∈ found ↔ sizes.sum = length ∧ ∀ size ∈ sizes, 0 < size
  ordered : Ordered found
  nodup : found.Nodup
  count : found.length = if length = 0 then 1 else 2 ^ (length - 1)
  of_zero : length = 0 → found = [[]]

theorem enumerates_compositions (length : Nat) : Enumerates length (compositions length) where
  mem sizes := by
    rw [mem_compositions]
    refine and_congr_right fun _ => ⟨fun hzero size hsize => ?_, fun hpos hzero => ?_⟩
    · exact Nat.pos_of_ne_zero fun h => hzero (h ▸ hsize)
    · exact Nat.lt_irrefl 0 (hpos 0 hzero)
  ordered := by
    rw [compositions_eq]
    exact ordered_all length
  nodup := by
    rw [compositions_eq]
    exact (ordered_all length).nodup
  count := length_compositions length
  of_zero h := by rw [h, compositions_eq, all]

/-- A walk from any stack visits the stack followed by each composition of what remains, and
leaves the stack as it was.  A walk over a length visits its compositions, which are all the
lists of positive sizes with that sum, each of them once, in the order of words. -/
theorem walk_enumerates {m : Type → Type} [Monad m] [LawfulMonad m] (visit : List Nat → m Unit)
    (length : Nat) (stack : List Nat) :
    forEach length visit = (compositions length).forM visit ∧
      (walk visit length).run stack = (do
        (compositions length).forM fun sizes => visit (stack.reverse ++ sizes)
        return ((), stack)) ∧
      Enumerates length (compositions length) := by
  refine ⟨?_, ?_, enumerates_compositions length⟩
  · rw [forEach_eq, compositions_eq]
  · rw [walk_eq, run_visitEach, compositions_eq]

/-- What a visitor that notes the lists has seen of three, with a size of five on the stack. -/
theorem walk_enumerates_of_three :
    let note (sizes : List Nat) : StateM (List (List Nat)) Unit := modify (sizes :: ·)
    LawfulMonad (StateM (List (List Nat))) ∧
      ((walk note 3).run [5]).run [] =
        (((), [5]), [[5, 3], [5, 2, 1], [5, 1, 2], [5, 1, 1, 1]]) ∧
      Enumerates 3 [[1, 1, 1], [1, 2], [2, 1], [3]] := by
  intro note
  have hfound : compositions 3 = [[1, 1, 1], [1, 2], [2, 1], [3]] := by cbv
  obtain ⟨-, hrun, henumerates⟩ := walk_enumerates note 3 [5]
  rw [hfound] at hrun henumerates
  exact ⟨inferInstance, by rw [hrun]; rfl, henumerates⟩

end Composition
end SecureHash
