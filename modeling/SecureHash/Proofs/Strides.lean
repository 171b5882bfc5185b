import Mathlib
import SecureHash.Chunking.Stride

/-!
A stride that advances covers any length exactly.

No step goes beyond what is left, so what a lap covers is the sum of the stride, cut off at
the length (`lap_eq_ok`).  A lap therefore advances just if some step is not zero, and the
laps come to an end just then.
-/

namespace SecureHash
namespace Chunking
namespace Cover

/-- The sizes chosen so far cover what they are said to, and no more than the length. -/
structure Fits (length : Nat) (c : Cover) : Prop where
  sum : c.sizes.sum = c.covered
  le : c.covered ≤ length

theorem fits_empty (length : Nat) : empty.Fits length where
  sum := rfl
  le := Nat.zero_le length

variable {length : Nat}

theorem advance_of_covered {c : Cover} (hdone : length ≤ c.covered) (step : Nat) :
    advance length c step = .ok c := if_pos hdone

/-- While something is left, a step takes a chunk, and what it covers is a size. -/
theorem advance_of_left (hlength : length < UInt64.size) {c : Cover} (hleft : c.covered < length)
    (step : Nat) :
    advance length c step = .ok
      { covered := min length (c.covered + step),
        sizes := min step (length - c.covered) :: c.sizes } := by
  have hsize : c.covered + min step (length - c.covered) = min length (c.covered + step) := by
    omega
  rw [advance, if_neg (by omega), Checked.sub_eq_ok hleft.le]
  show (Checked.add c.covered (min step (length - c.covered)) >>= _) = _
  rw [Checked.add_eq_ok (by omega), hsize]
  rfl

theorem advance_eq_ok (hlength : length < UInt64.size) {c : Cover} (hfits : c.Fits length)
    (step : Nat) :
    ∃ next, advance length c step = .ok next ∧ next.Fits length ∧
      next.covered = min length (c.covered + step) := by
  by_cases hdone : length ≤ c.covered
  · exact ⟨c, advance_of_covered hdone step, hfits, by have := hfits.le; omega⟩
  · refine ⟨_, advance_of_left hlength (by omega) step, ⟨?_, Nat.min_le_left _ _⟩, rfl⟩
    rw [List.sum_cons, hfits.sum]
    show min step (length - c.covered) + c.covered = min length (c.covered + step)
    omega

theorem lap_eq_ok (hlength : length < UInt64.size) {c : Cover} (hfits : c.Fits length)
    (stride : List Nat) :
    ∃ next, lap length stride c = .ok next ∧ next.Fits length ∧
      next.covered = min length (c.covered + stride.sum) := by
  induction stride generalizing c with
  | nil => exact ⟨c, rfl, hfits, (Nat.min_eq_right hfits.le).symm⟩
  | cons step rest ih =>
    obtain ⟨middle, hstep, hmiddle, hcovered⟩ := advance_eq_ok hlength hfits step
    obtain ⟨next, hlap, hnext, hend⟩ := ih hmiddle
    refine ⟨next, ?_, hnext, ?_⟩
    · rw [lap, List.foldlM_cons, hstep]
      exact hlap
    · rw [hend, hcovered, List.sum_cons]
      omega

theorem laps_of_covered {stride : List Nat} {c : Cover} (hdone : length ≤ c.covered) :
    laps length stride c = .ok c := by
  rw [laps, if_pos hdone]
  rfl

/-- A stride that advances goes on until the length is covered. -/
theorem laps_eq_ok (hlength : length < UInt64.size) {stride : List Nat} (hstride : 0 < stride.sum)
    {c : Cover} (hfits : c.Fits length) :
    ∃ cover, laps length stride c = .ok cover ∧ cover.Fits length ∧ cover.covered = length := by
  by_cases hdone : length ≤ c.covered
  · exact ⟨c, laps_of_covered hdone, hfits, Nat.le_antisymm hfits.le hdone⟩
  · obtain ⟨next, hlap, hnext, hcovered⟩ := lap_eq_ok hlength hfits stride
    have hadvance : c.covered < next.covered := by omega
    obtain ⟨cover, hlaps, hcover⟩ := laps_eq_ok hlength hstride hnext
    refine ⟨cover, ?_, hcover⟩
    rw [laps, if_neg hdone, hlap, ← hlaps]
    exact if_pos hadvance
termination_by length - c.covered

theorem laps_eq_error (hlength : length < UInt64.size) {stride : List Nat}
    (hstride : stride.sum = 0) {c : Cover} (hfits : c.Fits length) (hleft : c.covered < length) :
    laps length stride c = .error .idleStride := by
  obtain ⟨next, hlap, -, hcovered⟩ := lap_eq_ok hlength hfits stride
  have hidle : ¬ c.covered < next.covered := by omega
  rw [laps, if_neg (by omega), hlap]
  exact if_neg hidle

end Cover

open Cover (fits_empty)

theorem strided_eq_ok {length : Nat} (hlength : length < UInt64.size) {stride : List Nat}
    (hstride : length = 0 ∨ 0 < stride.sum) :
    ∃ sizes, strided length stride = .ok sizes ∧ sizes.sum = length := by
  have hcover : ∃ cover, Cover.laps length stride Cover.empty = .ok cover ∧
      cover.Fits length ∧ cover.covered = length := by
    obtain rfl | hpos := hstride
    · exact ⟨Cover.empty, Cover.laps_of_covered (Nat.le_refl 0), fits_empty 0, rfl⟩
    · exact Cover.laps_eq_ok hlength hpos (fits_empty length)
  obtain ⟨cover, hlaps, hfits, hcovered⟩ := hcover
  refine ⟨cover.sizes.reverse, ?_, ?_⟩
  · rw [strided, hlaps]
    rfl
  · rw [List.sum_reverse, hfits.sum, hcovered]

theorem strided_eq_error {length : Nat} (hlength : length < UInt64.size) {stride : List Nat}
    (hpos : 0 < length) (hstride : stride.sum = 0) :
    strided length stride = .error .idleStride := by
  rw [strided, Cover.laps_eq_error hlength hstride (fits_empty length) hpos]
  rfl

/-- Sizes that are found cover the length, and they are found only if there is nothing to
cover or the stride advances. -/
theorem sum_of_strided {length : Nat} (hlength : length < UInt64.size) {stride sizes : List Nat}
    (hsizes : strided length stride = .ok sizes) :
    sizes.sum = length ∧ (length = 0 ∨ 0 < stride.sum) := by
  by_cases hstride : length = 0 ∨ 0 < stride.sum
  · obtain ⟨found, hfound, hsum⟩ := strided_eq_ok hlength hstride
    rw [hfound] at hsizes
    exact ⟨Except.ok.inj hsizes ▸ hsum, hstride⟩
  · rw [strided_eq_error hlength (by omega) (by omega)] at hsizes
    simp at hsizes

theorem strided_eq_ok_iff {length : Nat} (hlength : length < UInt64.size) {stride : List Nat} :
    (∃ sizes, strided length stride = .ok sizes) ↔ length = 0 ∨ ∃ step ∈ stride, step ≠ 0 := by
  have hadvance : 0 < stride.sum ↔ ∃ step ∈ stride, step ≠ 0 := by
    rw [Nat.pos_iff_ne_zero, Ne, List.sum_eq_zero_iff]
    push Not
    rfl
  rw [← hadvance]
  constructor
  · rintro ⟨sizes, hsizes⟩
    exact (sum_of_strided hlength hsizes).2
  · intro hstride
    obtain ⟨sizes, hsizes, -⟩ := strided_eq_ok hlength hstride
    exact ⟨sizes, hsizes⟩

end Chunking
end SecureHash
