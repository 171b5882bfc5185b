import SecureHash.Chunking.Split
import SecureHash.Proofs.Runs

/-!
Sizes that cover the data cut it without a fault.

The check in front refuses all other sizes, so the cuts themselves always fit
(`handOut_eq`), and what the visitor is shown are the sublists of those lengths in a row.
-/

namespace SecureHash
namespace Chunking

theorem foldlM_add (sizes : List Nat) {sum : Nat} (hsum : sum < UInt64.size) :
    sizes.foldlM Checked.add sum =
      if sum + sizes.sum < UInt64.size then .ok (sum + sizes.sum) else .error .sumOverflow := by
  induction sizes generalizing sum with
  | nil =>
    rw [List.sum_nil, Nat.add_zero, if_pos hsum]
    rfl
  | cons size rest ih =>
    rw [List.foldlM_cons, List.sum_cons, ← Nat.add_assoc]
    by_cases hsize : sum + size < UInt64.size
    · rw [Checked.add_eq_ok hsize]
      exact ih hsize
    · rw [Checked.add, if_neg hsize, if_neg (by omega)]
      rfl

/-- Adding up sizes one by one overflows just if their sum does. -/
theorem total_eq (sizes : List Nat) :
    total sizes = if sizes.sum < UInt64.size then .ok sizes.sum else .error .sumOverflow := by
  rw [total, foldlM_add sizes (by decide), Nat.zero_add]

theorem checkCover_eq_ok {data : List UInt8} {sizes : List Nat} (hsum : sizes.sum = data.length)
    (hdata : data.length < UInt64.size) : checkCover data sizes = .ok () := by
  rw [checkCover, total_eq, hsum, if_pos hdata]
  exact if_pos rfl

variable {σ : Type}

theorem handOut_eq (visit : List UInt8 → EStateM Fault σ Unit) {rest : List UInt8}
    {sizes : List Nat} (hsum : sizes.sum ≤ rest.length) :
    handOut visit rest sizes = (sizes.splitLengths rest).forM visit := by
  induction sizes generalizing rest with
  | nil => rfl
  | cons size sizes ih =>
    rw [List.sum_cons] at hsum
    have hcut : Checked.split rest size = .ok (rest.take size, rest.drop size) :=
      Checked.split_eq_ok (by omega)
    have hrest : sizes.sum ≤ (rest.drop size).length := by rw [List.length_drop]; omega
    rw [handOut, lift_bind_of_ok hcut]
    dsimp only
    rw [ih hrest]
    simp only [List.splitLengths, List.splitAt_eq, List.forM_eq_forM, List.forM_cons]

theorem forEachChunk_eq (visit : List UInt8 → EStateM Fault σ Unit) {data : List UInt8}
    {sizes : List Nat} (hsum : sizes.sum = data.length) (hdata : data.length < UInt64.size) :
    forEachChunk data sizes visit = (sizes.splitLengths data).forM visit := by
  rw [forEachChunk, lift_bind_of_ok (checkCover_eq_ok hsum hdata), handOut_eq visit hsum.le]

/-- `sizes` cut `data` into `chunks`, which together are the data, and a visitor is shown them
in order.  A fault is the visitor's own. -/
structure Cuts (data : List UInt8) (sizes : List Nat) (chunks : List (List UInt8)) : Prop where
  split : Chunking.split data sizes = .ok chunks
  lengths : chunks.map List.length = sizes
  flatten : chunks.flatten = data
  visits : ∀ {σ : Type} (visit : List UInt8 → EStateM Fault σ Unit),
    forEachChunk data sizes visit = chunks.forM visit

theorem cuts_of_sum {data : List UInt8} {sizes : List Nat} (hsum : sizes.sum = data.length)
    (hdata : data.length < UInt64.size) : Cuts data sizes (sizes.splitLengths data) where
  split := by
    have hrun : (forEachChunk data sizes fun chunk => modify (chunk :: ·) :
        EStateM Fault (List (List UInt8)) Unit).run [] =
        .ok () ((sizes.splitLengths data).reverse ++ []) := by
      rw [forEachChunk_eq _ hsum hdata, forM_note]
      rfl
    rw [Chunking.split, overwritten_eq_ok hrun, List.append_nil]
    exact congrArg Except.ok (List.reverse_reverse _)
  lengths := List.map_splitLengths_length data sizes hsum.le
  flatten := List.flatten_splitLengths data sizes hsum.ge
  visits visit := forEachChunk_eq visit hsum hdata

end Chunking
end SecureHash
