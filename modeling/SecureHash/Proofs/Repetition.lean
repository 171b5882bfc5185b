import SecureHash.Proofs.Runs
import SecureHash.Proofs.Strides

/-!
Which sizes a stride makes.

Gone through over and over, a stride is an endless row of steps.  A cover follows the row:
each size is its step or what was left then, and no step is taken once the length is reached
(`Follows`).  One step keeps this, hence a lap and all laps do, and when they end there are as
many sizes as it takes steps to reach the length.
-/

namespace SecureHash
namespace Chunking

/-- The step at place `i` when the stride is repeated without end.  An empty stride has no
steps and counts as zero. -/
def stepAt (stride : List Nat) (i : Nat) : Nat := stride.getD (i % stride.length) 0

/-- What the first `n` steps add up to. -/
def reach (stride : List Nat) (n : Nat) : Nat := ∑ i ∈ Finset.range n, stepAt stride i

/-- The size that step `i` gives when it is taken: itself, or what the steps before it left. -/
def sizeAt (length : Nat) (stride : List Nat) (i : Nat) : Nat :=
  min (stepAt stride i) (length - reach stride i)

theorem reach_zero (stride : List Nat) : reach stride 0 = 0 := Finset.sum_range_zero _

theorem reach_succ (stride : List Nat) (n : Nat) :
    reach stride (n + 1) = reach stride n + stepAt stride n := Finset.sum_range_succ _ _

/-- Each lap begins anew with the first step. -/
theorem stepAt_lap (stride : List Nat) (k : Nat) {i : Nat} (hi : i < stride.length) :
    stepAt stride (k * stride.length + i) = stride[i] := by
  rw [stepAt, Nat.mul_add_mod_of_lt hi, List.getD_eq_getElem _ _ hi]

/-! ## Following the row -/

namespace Cover

/-- The cover has gone through the first `n` steps of the row. -/
structure Follows (length : Nat) (stride : List Nat) (n : Nat) (c : Cover) : Prop where
  sizes : c.sizes.reverse = (List.range c.sizes.length).map (sizeAt length stride)
  covered : c.covered = min length (reach stride n)
  /-- Something was left for each step that was taken. -/
  left : ∀ i < c.sizes.length, reach stride i < length
  taken : reach stride n < length → c.sizes.length = n
  enough : length ≤ reach stride n → length ≤ reach stride c.sizes.length

variable {length n k : Nat} {stride : List Nat} {c next : Cover}

theorem follows_empty (length : Nat) (stride : List Nat) : empty.Follows length stride 0 where
  sizes := rfl
  covered := by rw [reach_zero, Nat.min_zero]; rfl
  left i hi := absurd hi (Nat.not_lt_zero i)
  taken _ := rfl
  enough h := h

/-- One step of the row keeps a cover on it. -/
theorem Follows.advance (hlength : length < UInt64.size) (h : c.Follows length stride n)
    (hnext : advance length c (stepAt stride n) = .ok next) :
    next.Follows length stride (n + 1) := by
  obtain ⟨hsizes, hcovered, hleft, htaken, henough⟩ := h
  have hreach := reach_succ stride n
  by_cases hdone : length ≤ c.covered
  · -- Nothing is left, so the step is gone through and not taken.
    rw [advance_of_covered hdone] at hnext
    obtain rfl := Except.ok.inj hnext
    exact ⟨hsizes, by omega, hleft, fun h => by omega, fun _ => henough (by omega)⟩
  · rw [advance_of_left hlength (by omega)] at hnext
    obtain rfl := Except.ok.inj hnext
    have hn : c.sizes.length = n := htaken (by omega)
    have hsize : min (stepAt stride n) (length - c.covered) = sizeAt length stride n := by
      rw [hcovered, sizeAt]
      omega
    have hcount : (sizeAt length stride n :: c.sizes).length = n + 1 := by
      rw [List.length_cons, hn]
    rw [hsize]
    refine
      { sizes := ?sizes, covered := ?covered, left := ?left, taken := ?taken, enough := ?enough }
    case sizes =>
      rw [List.reverse_cons, hcount, List.range_succ, List.map_append, hsizes, hn]
      rfl
    case covered =>
      show min length (c.covered + stepAt stride n) = _
      omega
    case left =>
      intro i hi
      rw [hcount] at hi
      obtain hi | rfl : i < c.sizes.length ∨ i = n := by omega
      · exact hleft i hi
      · omega
    case taken =>
      intro _
      exact hcount
    case enough =>
      intro h
      rw [hcount]
      exact h

/-- Steps that stand next in the row keep a cover on it. -/
theorem Follows.foldlM (hlength : length < UInt64.size) {steps : List Nat}
    (hsteps : ∀ (i : Nat) (hi : i < steps.length), stepAt stride (n + i) = steps[i])
    (h : c.Follows length stride n) (hnext : steps.foldlM (Cover.advance length) c = .ok next) :
    next.Follows length stride (n + steps.length) := by
  induction steps generalizing n c with
  | nil =>
    obtain rfl := Except.ok.inj hnext
    exact h
  | cons step rest ih =>
    rw [List.foldlM_cons, bind_eq_ok_iff] at hnext
    obtain ⟨middle, hstep, hrest⟩ := hnext
    have hplace : stepAt stride n = step := hsteps 0 (Nat.succ_pos _)
    have hmiddle : middle.Follows length stride (n + 1) := h.advance hlength (hplace ▸ hstep)
    have hfollows := ih (fun i hi => ?_) hmiddle hrest
    · rwa [Nat.add_assoc, Nat.add_comm 1] at hfollows
    · rw [Nat.add_assoc, Nat.add_comm 1]
      exact hsteps (i + 1) (Nat.succ_lt_succ hi)

theorem Follows.lap (hlength : length < UInt64.size)
    (h : c.Follows length stride (k * stride.length)) (hnext : lap length stride c = .ok next) :
    next.Follows length stride ((k + 1) * stride.length) := by
  rw [Nat.succ_mul]
  exact h.foldlM hlength (fun _ hi => stepAt_lap stride k hi) hnext

/-- However many laps it takes, the cover that they end with is on the row, and covers the
length. -/
theorem Follows.laps (hlength : length < UInt64.size) {k : Nat} {c : Cover}
    (h : c.Follows length stride (k * stride.length)) (hnext : laps length stride c = .ok next) :
    ∃ n, next.Follows length stride n ∧ length ≤ next.covered := by
  rw [Cover.laps] at hnext
  split at hnext
  · rename_i hdone
    obtain rfl := Except.ok.inj hnext
    exact ⟨_, h, hdone⟩
  · obtain ⟨middle, hlap, hrest⟩ := bind_eq_ok_iff.mp hnext
    split at hrest
    · exact Follows.laps hlength (h.lap hlength hlap) hrest
    · cases hrest
termination_by length - c.covered

end Cover

/-! ## What comes of it -/

/-- `sizes` go through the stride, over and over, until they make up `length`: as many as it
takes, each of them its step but for the last, which is what is left. -/
structure Repeats (length : Nat) (stride sizes : List Nat) : Prop where
  least : IsLeast {n | length ≤ reach stride n} sizes.length
  whole : ∀ i, i + 1 < sizes.length → sizes[i]? = some (stepAt stride i)
  last : ∀ h : sizes ≠ [],
    0 < sizes.getLast h ∧ sizes.getLast h = length - sizes.dropLast.sum
  sum : sizes.sum = length
  le_step : ∀ i size, sizes[i]? = some size → size ≤ stepAt stride i

theorem Cover.Follows.getElem? {length n : Nat} {stride : List Nat} {c : Cover}
    (h : c.Follows length stride n) {i : Nat} (hi : i < c.sizes.length) :
    c.sizes.reverse[i]? = some (sizeAt length stride i) := by
  rw [h.sizes, List.getElem?_map, List.getElem?_range hi]
  rfl

theorem Cover.Follows.getLast {length n j : Nat} {stride : List Nat} {c : Cover}
    (h : c.Follows length stride n) (hj : c.sizes.length = j + 1) (hne : c.sizes.reverse ≠ []) :
    c.sizes.reverse.getLast hne = sizeAt length stride j := by
  apply Option.some.inj
  rw [← List.getLast?_eq_some_getLast, List.getLast?_eq_getElem?, List.length_reverse, hj,
    Nat.add_sub_cancel, h.getElem? (by omega)]

/-- A cover on the row that covers the length has repeated the stride. -/
theorem Cover.Follows.repeats {length n : Nat} {stride : List Nat} {c : Cover}
    (h : c.Follows length stride n) (hdone : length ≤ c.covered)
    (hsum : c.sizes.reverse.sum = length) : Repeats length stride c.sizes.reverse := by
  have hcovered := h.covered
  have hreach : length ≤ reach stride c.sizes.length := h.enough (by omega)
  refine { least := ?least, whole := ?whole, last := ?last, sum := hsum, le_step := ?le_step }
  case least =>
    rw [List.length_reverse]
    refine ⟨hreach, fun m hm => ?_⟩
    by_contra hlt
    exact Nat.not_lt.mpr hm (h.left m (by omega))
  case whole =>
    intro i hi
    rw [List.length_reverse] at hi
    have hnext := h.left (i + 1) hi
    rw [reach_succ] at hnext
    rw [h.getElem? (by omega), sizeAt, Nat.min_eq_left (by omega)]
  case last =>
    intro hne
    obtain ⟨j, hj⟩ : ∃ j, c.sizes.length = j + 1 :=
      Nat.exists_eq_add_one.mpr (List.length_pos_iff.mpr (mt List.reverse_eq_nil_iff.mpr hne))
    have hsplit := congrArg List.sum (List.dropLast_append_getLast hne)
    rw [List.sum_append, List.sum_singleton, hsum] at hsplit
    refine ⟨?_, by omega⟩
    -- The steps before the last were not enough, and with it they are.
    have hbefore := h.left j (by omega)
    rw [hj, reach_succ] at hreach
    rw [h.getLast hj, sizeAt]
    omega
  case le_step =>
    intro i size hsize
    have hi : i < c.sizes.length := by
      rw [← List.length_reverse]
      exact (List.getElem?_eq_some_iff.mp hsize).1
    rw [h.getElem? hi] at hsize
    obtain rfl := Option.some.inj hsize
    exact Nat.min_le_left _ _

/-- Sizes that are found repeat the stride. -/
theorem repeats_of_strided {length : Nat} (hlength : length < UInt64.size) {stride sizes : List Nat}
    (hsizes : strided length stride = .ok sizes) : Repeats length stride sizes := by
  have hsum := (sum_of_strided hlength hsizes).1
  rw [strided, bind_eq_ok_iff] at hsizes
  obtain ⟨cover, hlaps, hreverse⟩ := hsizes
  obtain rfl := Except.ok.inj hreverse
  have hstart : Cover.empty.Follows length stride (0 * stride.length) := by
    rw [Nat.zero_mul]
    exact Cover.follows_empty length stride
  obtain ⟨n, hfollows, hdone⟩ := hstart.laps hlength hlaps
  exact hfollows.repeats hdone hsum

/-- Which sizes a stride makes, for each length that a size can hold and each stride.  It is
refused just if there is something to cover and no step advances, and nothing else goes wrong
however great the steps are.  Otherwise it is repeated for as many steps as it takes, and
nothing to cover takes none. -/
theorem strided_repeats {length : Nat} (hlength : length < 2 ^ 64) (stride : List Nat) :
    (∀ fault, strided length stride = .error fault ↔
      fault = .idleStride ∧ 0 < length ∧ ∀ step ∈ stride, step = 0) ∧
    (¬ (0 < length ∧ ∀ step ∈ stride, step = 0) →
      ∃ sizes, strided length stride = .ok sizes ∧ Repeats length stride sizes) ∧
    strided 0 stride = .ok [] := by
  have hnothing : strided 0 stride = .ok [] := by
    rw [strided, Cover.laps_of_covered (Nat.le_refl 0)]
    rfl
  by_cases hidle : 0 < length ∧ ∀ step ∈ stride, step = 0
  · have hrefused := strided_eq_error hlength hidle.1 (List.sum_eq_zero_iff.mpr hidle.2)
    refine ⟨fun fault => ?_, fun h => absurd hidle h, hnothing⟩
    rw [hrefused, Except.error.injEq, eq_comm]
    exact (and_iff_left hidle).symm
  · obtain ⟨sizes, hsizes⟩ : ∃ sizes, strided length stride = .ok sizes := by
      rw [strided_eq_ok_iff hlength]
      by_contra hnone
      push Not at hnone
      exact hidle ⟨Nat.pos_of_ne_zero hnone.1, hnone.2⟩
    have hrepeats := repeats_of_strided hlength hsizes
    rw [hsizes]
    refine ⟨fun fault => ?_, fun _ => ⟨sizes, rfl, hrepeats⟩, hnothing⟩
    simp only [reduceCtorEq, false_iff]
    exact fun h => hidle h.2

/-- Steps whose sum no size can hold, and one of zero: they cover the greatest length. -/
theorem strided_repeats_of_great_steps :
    let length := 2 ^ 64 - 1
    let stride := [2 ^ 63, 0, 2 ^ 64 - 1]
    length < 2 ^ 64 ∧ ¬ (0 < length ∧ ∀ step ∈ stride, step = 0) ∧
      strided length stride = .ok [2 ^ 63, 0, 2 ^ 63 - 1] ∧
      Repeats length stride [2 ^ 63, 0, 2 ^ 63 - 1] := by
  intro length stride
  have hlength : length < 2 ^ 64 := by decide
  have hactive : ¬ (0 < length ∧ ∀ step ∈ stride, step = 0) := by decide
  have hsizes : strided length stride = .ok [2 ^ 63, 0, 2 ^ 63 - 1] := by
    show strided 18446744073709551615 [9223372036854775808, 0, 18446744073709551615] =
      .ok [9223372036854775808, 0, 9223372036854775807]
    cbv
  obtain ⟨sizes, hfound, hrepeats⟩ := (strided_repeats hlength stride).2.1 hactive
  rw [hsizes] at hfound
  obtain rfl := Except.ok.inj hfound
  exact ⟨hlength, hactive, hsizes, hrepeats⟩

end Chunking
end SecureHash
