import SecureHash.Proofs.Splits

/-!
What a cut comes to, by the sum of the sizes.

A sum that no size can hold is found before it is compared with the length, and both are
settled before the first chunk.  So sizes that do not fit are refused to every visitor with
its store as it was (`Refuses`), and sizes that fit show it the stretches of the data that
begin where the sizes before them end (`Slices`).
-/

namespace SecureHash
namespace Chunking

/-- Where chunk `i` begins. -/
def offset (sizes : List Nat) (i : Nat) : Nat := (sizes.take i).sum

theorem offset_le_sum (sizes : List Nat) (i : Nat) : offset sizes i ≤ sizes.sum := by
  have hsplit := congrArg List.sum (List.take_append_drop i sizes)
  rw [List.sum_append] at hsplit
  rw [offset]
  omega

/-- Cutting by lengths is slicing at the offsets that they add up to. -/
theorem getElem?_splitLengths {α : Type} {sizes : List Nat} (data : List α) {i : Nat}
    (hi : i < sizes.length) :
    (sizes.splitLengths data)[i]? = some ((data.drop (offset sizes i)).take sizes[i]) := by
  induction sizes generalizing data i with
  | nil => exact absurd hi (Nat.not_lt_zero i)
  | cons size rest ih =>
    rw [List.splitLengths_cons]
    cases i with
    | zero => rfl
    | succ i =>
      rw [List.getElem?_cons_succ, ih (data.drop size) (Nat.lt_of_succ_lt_succ hi), List.drop_drop]
      simp only [offset, List.take_succ_cons, List.sum_cons, List.getElem_cons_succ]

/-- The sizes are refused for the cause `fault`, and no visitor has been shown anything. -/
structure Refuses (data : List UInt8) (sizes : List Nat) (fault : Fault) : Prop where
  visits : ∀ {σ : Type} (visit : List UInt8 → EStateM Fault σ Unit) (s : σ),
    (forEachChunk data sizes visit).run s = .error fault s
  split : Chunking.split data sizes = .error fault

theorem refuses_of_check {data : List UInt8} {sizes : List Nat} {fault : Fault}
    (hcheck : checkCover data sizes = .error fault) : Refuses data sizes fault := by
  have hvisits : ∀ {σ : Type} (visit : List UInt8 → EStateM Fault σ Unit) (s : σ),
      (forEachChunk data sizes visit).run s = .error fault s := by
    intro σ visit s
    rw [forEachChunk, hcheck]
    rfl
  refine ⟨hvisits, ?_⟩
  rw [split, overwritten, hvisits]
  rfl

theorem checkCover_of_overflow (data : List UInt8) {sizes : List Nat}
    (hsum : UInt64.size ≤ sizes.sum) : checkCover data sizes = .error .sumOverflow := by
  rw [checkCover, total_eq, if_neg (Nat.not_lt.mpr hsum)]
  rfl

theorem checkCover_of_ne {data : List UInt8} {sizes : List Nat} (hsum : sizes.sum < UInt64.size)
    (hne : sizes.sum ≠ data.length) :
    checkCover data sizes = .error (.uncovered sizes.sum data.length) := by
  rw [checkCover, total_eq, if_pos hsum]
  exact if_neg hne

/-- There is one chunk for each size, and it is the stretch of that size where the sizes before
it end.  Added up one after the other, the sizes never overflow, and no stretch goes beyond
the data. -/
structure Slices (data : List UInt8) (sizes : List Nat) (chunks : List (List UInt8)) : Prop where
  count : chunks.length = sizes.length
  slice : ∀ (i : Nat) (hi : i < sizes.length),
    chunks[i]? = some ((data.drop (offset sizes i)).take sizes[i])
  added : ∀ i, total (sizes.take i) = .ok (offset sizes i)
  within : ∀ (i : Nat) (hi : i < sizes.length), offset sizes i + sizes[i] ≤ data.length

theorem slices_of_sum {data : List UInt8} {sizes : List Nat} (hsum : sizes.sum = data.length)
    (hdata : data.length < UInt64.size) : Slices data sizes (sizes.splitLengths data) where
  count := List.length_splitLengths data sizes
  slice _ hi := getElem?_splitLengths data hi
  added i := by
    have hle : offset sizes i ≤ data.length := hsum ▸ offset_le_sum sizes i
    rw [total_eq]
    exact if_pos (Nat.lt_of_le_of_lt hle hdata)
  within i hi := by
    rw [offset, ← List.sum_take_succ sizes i hi, ← hsum]
    exact offset_le_sum sizes (i + 1)

/-- What becomes of any data and any sizes depends on the sum of the sizes.  A sum that no size
can hold is refused as such, and any other that is not the length of the data is refused with
both numbers.  In neither case has a visitor been shown a chunk.  Otherwise the chunks are the
slices of the data, and a visitor is shown them one by one in order. -/
theorem cut_decided_by_sum (data : List UInt8) (sizes : List Nat) :
    (2 ^ 64 ≤ sizes.sum → Refuses data sizes .sumOverflow) ∧
    (sizes.sum < 2 ^ 64 → sizes.sum ≠ data.length →
      Refuses data sizes (.uncovered sizes.sum data.length)) ∧
    (sizes.sum < 2 ^ 64 → sizes.sum = data.length →
      ∃ chunks, Cuts data sizes chunks ∧ Slices data sizes chunks) ∧
    Fault.sumOverflow.message = "attempt to add with overflow" ∧
    (Fault.uncovered sizes.sum data.length).message =
      "assertion `left == right` failed: chunk sizes must cover the input exactly" ++
        ("\n  left: " ++ toString sizes.sum ++ "\n right: " ++ toString data.length) := by
  refine ⟨fun hsum => ?_, fun hsum hne => ?_, fun hsum heq => ?_, rfl, rfl⟩
  · exact refuses_of_check (checkCover_of_overflow data hsum)
  · exact refuses_of_check (checkCover_of_ne hsum hne)
  · exact ⟨_, cuts_of_sum heq (heq ▸ hsum), slices_of_sum heq (heq ▸ hsum)⟩

/-- Two sizes whose sum is too great although neither is, sizes that fall short, and sizes
with one of zero that cut five octets. -/
theorem cut_decided_by_sum_of_five :
    let data : List UInt8 := [97, 98, 99, 100, 101]
    2 ^ 64 ≤ [2 ^ 63, 2 ^ 63].sum ∧ Refuses data [2 ^ 63, 2 ^ 63] .sumOverflow ∧
      [1, 1].sum < 2 ^ 64 ∧ [1, 1].sum ≠ data.length ∧ Refuses data [1, 1] (.uncovered 2 5) ∧
      [2, 0, 3].sum < 2 ^ 64 ∧ [2, 0, 3].sum = data.length ∧
      ∃ chunks, Cuts data [2, 0, 3] chunks ∧ Slices data [2, 0, 3] chunks ∧
        chunks[1]? = some [] ∧ chunks[2]? = some [99, 100, 101] := by
  intro data
  have hgreat : 2 ^ 64 ≤ [2 ^ 63, 2 ^ 63].sum := by decide
  have hshort : [1, 1].sum < 2 ^ 64 := by decide
  have hne : [1, 1].sum ≠ data.length := by decide
  have hsum : [2, 0, 3].sum < 2 ^ 64 := by decide
  have heq : [2, 0, 3].sum = data.length := by decide
  obtain ⟨chunks, hcuts, hslices⟩ := (cut_decided_by_sum data [2, 0, 3]).2.2.1 hsum heq
  exact ⟨hgreat, (cut_decided_by_sum data _).1 hgreat, hshort, hne,
    (cut_decided_by_sum data _).2.1 hshort hne, hsum, heq, chunks, hcuts, hslices,
    hslices.slice 1 (by decide), hslices.slice 2 (by decide)⟩

end Chunking
end SecureHash
