import SecureHash.Chunking.Composition
import SecureHash.Proofs.Runs

/-!
The compositions of a length, as the walk meets them.

The walk keeps one stack for all of its branches.  Each branch takes off what it put on, so
what is visited depends only on the stack at the start (`walk_eq`), and the lists are those
of a recursion without a stack.
-/

namespace SecureHash
namespace Composition

/-- The compositions of a length, by their first size. -/
def all : Nat → List (List Nat)
  | 0 => [[]]
  | r + 1 => (List.finRange (r + 1)).flatMap fun i => (all (r - i.val)).map ((i.val + 1) :: ·)

/-! ## The walk -/

section Walk

variable {m : Type → Type} [Monad m]

/-- Visit the stack followed by each of `found` in turn, and leave it as it was. -/
def visitEach (visit : List Nat → m Unit) (found : List (List Nat)) :
    StateT (List Nat) m Unit := fun stack => do
  found.forM fun sizes => visit (stack.reverse ++ sizes)
  return ((), stack)

variable (visit : List Nat → m Unit)

theorem run_visitEach (found : List (List Nat)) (stack : List Nat) :
    (visitEach visit found).run stack =
      ((found.forM fun sizes => visit (stack.reverse ++ sizes)) >>= fun _ => pure ((), stack)) :=
  rfl

variable [LawfulMonad m]

theorem visitEach_append (front back : List (List Nat)) :
    visitEach visit (front ++ back) = visitEach visit front >>= fun _ => visitEach visit back := by
  refine StateT.ext fun stack => ?_
  simp [run_visitEach]

/-- A size that is put on for a while stands in front of all that is visited meanwhile. -/
theorem visitEach_push (size : Nat) (found : List (List Nat)) :
    (do modify (size :: ·); visitEach visit found; modify List.tail) =
      visitEach visit (found.map (size :: ·)) := by
  refine StateT.ext fun stack => ?_
  simp [run_visitEach]

theorem forM_visitEach {ι : Type} (indices : List ι) (found : ι → List (List Nat)) :
    (indices.forM fun i => visitEach visit (found i)) =
      visitEach visit (indices.flatMap found) := by
  induction indices with
  | nil =>
    refine StateT.ext fun stack => ?_
    simp [run_visitEach]
  | cons i rest ih =>
    rw [List.flatMap_cons, visitEach_append, ← ih]
    rfl

/-- The walk visits the stack followed by each composition, and leaves it as it was. -/
theorem walk_eq (remaining : Nat) : walk visit remaining = visitEach visit (all remaining) := by
  induction remaining using walk.induct with
  | case1 =>
    refine StateT.ext fun stack => ?_
    simp [walk, all, run_visitEach]
  | case2 r ih => simp only [walk, all, ih, visitEach_push, forM_visitEach]

theorem forEach_eq (length : Nat) : forEach length visit = (all length).forM visit := by
  rw [forEach, walk_eq]
  simp [run_visitEach]

end Walk

end Composition

theorem compositions_eq (length : Nat) : compositions length = Composition.all length := by
  rw [compositions, Composition.forEach_eq, forM_note]
  show ((Composition.all length).reverse ++ []).reverse = _
  rw [List.append_nil, List.reverse_reverse]

/-! ## What they are, and how many -/

namespace Composition

theorem nil_mem_all {length : Nat} : [] ∈ all length ↔ length = 0 := by
  cases length with
  | zero => simp [all]
  | succ r => simp [all]

theorem cons_mem_all {length size : Nat} {rest : List Nat} :
    size :: rest ∈ all length ↔ 0 < size ∧ size ≤ length ∧ rest ∈ all (length - size) := by
  cases length with
  | zero =>
    simp only [all, List.mem_singleton, reduceCtorEq, false_iff]
    omega
  | succ r =>
    rw [all, List.mem_flatMap]
    constructor
    · rintro ⟨i, -, hmem⟩
      obtain ⟨tail, htail, heq⟩ := List.mem_map.mp hmem
      obtain ⟨rfl, rfl⟩ := List.cons.inj heq
      rw [Nat.add_sub_add_right]
      exact ⟨Nat.succ_pos i, i.isLt, htail⟩
    · rintro ⟨hpos, hle, htail⟩
      obtain ⟨i, rfl⟩ := Nat.exists_eq_add_one.mpr hpos
      rw [Nat.add_sub_add_right] at htail
      exact ⟨⟨i, hle⟩, List.mem_finRange _, List.mem_map.mpr ⟨rest, htail, rfl⟩⟩

/-- They are all the lists of positive sizes with that sum. -/
theorem mem_all {length : Nat} {sizes : List Nat} :
    sizes ∈ all length ↔ sizes.sum = length ∧ 0 ∉ sizes := by
  induction sizes generalizing length with
  | nil => simp [nil_mem_all, eq_comm]
  | cons size rest ih =>
    rw [cons_mem_all, ih, List.sum_cons, List.mem_cons]
    constructor
    · rintro ⟨hpos, hle, hsum, hzero⟩
      refine ⟨by omega, ?_⟩
      rintro (hsize | hrest)
      · omega
      · exact hzero hrest
    · rintro ⟨hsum, hzero⟩
      have hsize : 0 ≠ size := fun h => hzero (.inl h)
      exact ⟨by omega, by omega, by omega, fun h => hzero (.inr h)⟩

theorem length_all_eq_sum (r : Nat) :
    (all (r + 1)).length = ((List.finRange (r + 1)).map fun i => (all (r - i.val)).length).sum := by
  simp only [all, List.length_flatMap, List.length_map]

/-- A composition of `r + 2` is one of `r + 1` with a size of one in front, or with its first
size greater by one. -/
theorem length_all_succ (r : Nat) : (all (r + 2)).length = 2 * (all (r + 1)).length := by
  calc (all (r + 2)).length
      = (all (r + 1)).length +
          ((List.finRange (r + 1)).map fun i => (all (r - i.val)).length).sum := by
        rw [length_all_eq_sum (r + 1), List.finRange_succ, List.map_cons, List.sum_cons,
          List.map_map]
        simp only [Function.comp_def, Fin.val_zero, Fin.val_succ, Nat.sub_zero,
          Nat.add_sub_add_right]
    _ = 2 * (all (r + 1)).length := by rw [← length_all_eq_sum r, Nat.two_mul]

theorem length_all (r : Nat) : (all (r + 1)).length = 2 ^ r := by
  induction r with
  | zero => simp [all]
  | succ r ih => rw [length_all_succ, ih, Nat.pow_succ, Nat.mul_comm]

end Composition

theorem mem_compositions {length : Nat} {sizes : List Nat} :
    sizes ∈ compositions length ↔ sizes.sum = length ∧ 0 ∉ sizes := by
  rw [compositions_eq, Composition.mem_all]

theorem length_compositions (length : Nat) :
    (compositions length).length = if length = 0 then 1 else 2 ^ (length - 1) := by
  rw [compositions_eq]
  cases length with
  | zero => simp [Composition.all]
  | succ r => simpa using Composition.length_all r

theorem length_compositions_pos (length : Nat) : 0 < (compositions length).length := by
  rw [length_compositions]
  split
  · exact Nat.one_pos
  · exact Nat.two_pow_pos _

end SecureHash
