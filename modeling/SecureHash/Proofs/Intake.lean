import SecureHash.Chunking.Stream
import SecureHash.Session
import SecureHash.Proofs.Compression
import SecureHash.Proofs.Cutting
import SecureHash.Proofs.Runs

/-!
Taking in data, seen from outside.

`update` has three regimes, and which of them applies depends on all that came before.  They
share one description: the pending octets and the data make whole blocks, which are
compressed, and a remainder, which is pending afterwards (`run_feed`).  On views this is
`View.extend`, and cutting the data changes nothing there (`extend_extend`).
-/

namespace SecureHash

namespace Hasher

theorem run_absorb (choice : Strategy) (blocks : List Block) (h : Hasher) :
    (absorb choice blocks).run h =
      .ok () { h with state := blocks.foldl Standard.compress h.state } := by
  rw [absorb_eq, run_get_bind, run_lift_bind_of_ok (compressBlocks_eq choice h.state blocks)]
  rfl

/-- `h` with the bits of `data` counted and not yet anything done with them. -/
def counted (h : Hasher) (data : List UInt8) : Hasher :=
  { h with bitCount := h.bitCount + (UInt64.ofNat data.length <<< 3) }

@[simp] theorem counted_nil (h : Hasher) : h.counted [] = h := by
  have hzero : UInt64.ofNat ([] : List UInt8).length <<< 3 = 0 := by decide
  rw [counted, hzero, UInt64.add_zero]

theorem pendingLength_counted (h : Hasher) (data : List UInt8) :
    (h.counted data).pendingLength = (h.pendingLength + data.length) % 64 := by
  rw [pendingLength_eq, pendingLength_eq, counted, UInt64.toNat_add, UInt64.toNat_shiftLeft,
    UInt64.toNat_ofNat']
  show (_ + (data.length % 2 ^ 64) <<< 3 % 2 ^ 64) % 2 ^ 64 / 8 % 64 = _
  rw [Nat.shiftLeft_eq]
  omega

/-- What `feed` does first with data that is not empty. -/
theorem run_feed_of_ne_nil (h : Hasher) {data : List UInt8} (hne : data ≠ []) :
    (feed data).run h = EStateM.run (do
      if data.length < 64 - h.pendingLength then
        fill h.pendingLength (h.pendingLength + data.length) data
        return []
      fill h.pendingLength 64 (data.take (64 - h.pendingLength))
      let completed := (← get).buffer
      let rest := data.drop (64 - h.pendingLength)
      fill 0 (leftover rest).length (leftover rest)
      return completed :: wholeBlocks rest) (h.counted data) := by
  have hempty : data.isEmpty = false := by simp [hne]
  have hlt := h.pendingLength_lt
  rw [feed, if_neg (by simp [hempty]), run_get_bind, run_modify_bind,
    run_lift_bind_of_ok (Checked.sub_eq_ok (Nat.le_of_lt hlt))]
  by_cases hs : data.length < 64 - h.pendingLength
  · have hadd : h.pendingLength + data.length < UInt64.size := by
      show _ < 2 ^ 64
      omega
    rw [if_pos hs, if_pos hs, run_lift_bind_of_ok (Checked.add_eq_ok hadd)]
    rfl
  · rw [if_neg hs, if_neg hs, run_lift_bind_of_ok (Checked.split_eq_ok (Nat.not_lt.mp hs))]
    rfl

theorem run_feed_of_short (h : Hasher) {data : List UInt8} (hne : data ≠ [])
    (hs : h.pendingLength + data.length < 64) :
    ∃ buffer, (feed data).run h = .ok [] { h.counted data with buffer } ∧
      buffer.toList.take (h.pendingLength + data.length) = h.pending ++ data := by
  obtain ⟨buffer, hfill, hbuf⟩ := run_fill (h.counted data)
    (Nat.le_add_right h.pendingLength data.length) (Nat.le_of_lt hs)
    (Nat.add_sub_cancel_left h.pendingLength data.length).symm
  refine ⟨buffer, ?_, ?_⟩
  · rw [run_feed_of_ne_nil h hne, if_pos (by omega), run_bind_of_ok hfill]
    rfl
  · rw [hbuf]
    refine List.take_left' ?_
    rw [List.length_append, List.length_take, Vector.length_toList]
    omega

theorem run_feed_of_long (h : Hasher) {data : List UInt8}
    (hl : 64 ≤ h.pendingLength + data.length) :
    ∃ completed buffer : Block, ∃ rest : List UInt8,
      (feed data).run h = .ok (completed :: wholeBlocks rest) { h.counted data with buffer } ∧
        h.pending ++ data = completed.toList ++ rest ∧
        buffer.toList.take (leftover rest).length = leftover rest := by
  have hlt := h.pendingLength_lt
  have hne : data ≠ [] := by
    rintro rfl
    simp only [List.length_nil] at hl
    omega
  set room := 64 - h.pendingLength with hroom
  have hhead : (data.take room).length = room := by
    rw [List.length_take]
    omega
  obtain ⟨completed, hfirst, hcompleted⟩ :=
    run_fill (h.counted data) (Nat.le_of_lt hlt) (Nat.le_refl 64) hhead
  set rest := data.drop room
  have htail : (leftover rest).length ≤ 64 := by
    rw [length_leftover]
    omega
  obtain ⟨buffer, hsecond, hbuffer⟩ :=
    run_fill { h.counted data with buffer := completed } (Nat.zero_le _) htail
      (Nat.sub_zero (leftover rest).length).symm
  refine ⟨completed, buffer, rest, ?_, ?_, ?_⟩
  · rw [run_feed_of_ne_nil h hne, if_neg (by omega), run_bind_of_ok hfirst]
    show EStateM.run (do
      fill 0 (leftover rest).length (leftover rest)
      return completed :: wholeBlocks rest) { h.counted data with buffer := completed } = _
    rw [run_bind_of_ok hsecond]
    rfl
  · rw [hcompleted, List.drop_of_length_le (by simp), List.append_nil,
      List.append_assoc, List.take_append_drop]
    rfl
  · rw [hbuffer, List.take_zero, List.nil_append, List.take_left]

/-- Taking in data gives the blocks that the pending octets make with it, and leaves what
is too short for a block pending. -/
theorem run_feed (h : Hasher) (data : List UInt8) :
    ∃ buffer, (feed data).run h =
        .ok (wholeBlocks (h.pending ++ data)) { h.counted data with buffer } ∧
      buffer.toList.take ((h.counted data).pendingLength) = leftover (h.pending ++ data) := by
  have hfill : (h.counted data).pendingLength = (leftover (h.pending ++ data)).length := by
    rw [pendingLength_counted, length_leftover, List.length_append, length_pending]
  rw [hfill]
  rcases eq_or_ne data [] with rfl | hne
  · have hshort := h.length_pending_lt
    refine ⟨h.buffer, ?_, ?_⟩
    · rw [List.append_nil, wholeBlocks_of_short hshort, counted_nil]
      rfl
    · rw [List.append_nil, leftover_of_short hshort, length_pending]
      rfl
  · rcases Nat.lt_or_ge (h.pendingLength + data.length) 64 with hs | hl
    · obtain ⟨buffer, hrun, hbuf⟩ := run_feed_of_short h hne hs
      have hshort : (h.pending ++ data).length < 64 := by simpa using hs
      refine ⟨buffer, ?_, ?_⟩
      · rw [hrun, wholeBlocks_of_short hshort]
      · rw [leftover_of_short hshort, List.length_append, length_pending, hbuf]
    · obtain ⟨completed, buffer, rest, hrun, hcut, hbuf⟩ := run_feed_of_long h hl
      refine ⟨buffer, ?_, ?_⟩
      · rw [hrun, hcut, wholeBlocks_toList_append]
      · rw [hcut, leftover_toList_append, hbuf]

end Hasher

/-! ## Views

A view is what later operations depend on: the buffer counts only as far as it is
pending. -/

namespace Session.View

/-- The view after `data` is taken in. -/
def extend (v : View) (data : List UInt8) : View :=
  { state := (wholeBlocks (v.pending ++ data)).foldl Standard.compress v.state
    bitCount := v.bitCount + (UInt64.ofNat data.length <<< 3)
    pending := leftover (v.pending ++ data) }

theorem extend_nil {v : View} (h : v.pending.length < 64) : v.extend [] = v := by
  have hzero : UInt64.ofNat ([] : List UInt8).length <<< 3 = 0 := by decide
  rw [extend, List.append_nil, wholeBlocks_of_short h, leftover_of_short h, hzero, UInt64.add_zero]
  rfl

theorem ofNat_shiftLeft_add (m n : Nat) :
    UInt64.ofNat (m + n) <<< 3 = (UInt64.ofNat m <<< 3) + (UInt64.ofNat n <<< 3) := by
  apply UInt64.toNat_inj.mp
  simp only [UInt64.toNat_add, UInt64.toNat_shiftLeft, UInt64.toNat_ofNat', Nat.shiftLeft_eq]
  show (m + n) % 2 ^ 64 * 2 ^ 3 % 2 ^ 64 =
    (m % 2 ^ 64 * 2 ^ 3 % 2 ^ 64 + n % 2 ^ 64 * 2 ^ 3 % 2 ^ 64) % 2 ^ 64
  omega

theorem toNat_bitCount_extend (v : View) (data : List UInt8) :
    (v.extend data).bitCount.toNat = (v.bitCount.toNat + 8 * data.length) % 2 ^ 64 := by
  rw [extend, UInt64.toNat_add, UInt64.toNat_shiftLeft, UInt64.toNat_ofNat', Nat.shiftLeft_eq]
  show (v.bitCount.toNat + data.length % 2 ^ 64 * 2 ^ 3 % 2 ^ 64) % 2 ^ 64 = _
  omega

/-- Where the data is cut does not matter. -/
theorem extend_extend (v : View) (front back : List UInt8) :
    (v.extend front).extend back = v.extend (front ++ back) := by
  simp only [extend]
  rw [← List.foldl_append, ← wholeBlocks_append, ← leftover_append, List.append_assoc,
    List.length_append, ofNat_shiftLeft_add, UInt64.add_assoc]

end Session.View

namespace Hasher
open Session (View)

theorem run_update (choice : Strategy) (data : List UInt8) (h : Hasher) :
    ∃ after, (update choice data).run h = .ok () after ∧
      View.of after = (View.of h).extend data := by
  obtain ⟨buffer, hfeed, hpending⟩ := run_feed h data
  let state := (wholeBlocks (h.pending ++ data)).foldl Standard.compress h.state
  refine ⟨{ h.counted data with state, buffer }, ?_, ?_⟩
  · rw [update_eq, run_bind_of_ok hfeed, run_absorb]
    rfl
  · have hview : View.of { h.counted data with state, buffer } =
        { state, bitCount := (h.counted data).bitCount
          pending := buffer.toList.take (h.counted data).pendingLength } := rfl
    rw [hview, hpending]
    rfl

theorem run_updateFrom (plan : Plan) (i : Nat) (chunks : List (List UInt8)) (h : Hasher) :
    ∃ after, (updateFrom plan i chunks).run h = .ok () after ∧
      View.of after = (View.of h).extend chunks.flatten := by
  induction chunks generalizing i h with
  | nil =>
    refine ⟨h, rfl, ?_⟩
    rw [List.flatten_nil, View.extend_nil h.length_pending_lt]
  | cons chunk rest ih =>
    obtain ⟨middle, hfirst, hmiddle⟩ := run_update (plan i) chunk h
    obtain ⟨after, hrest, hafter⟩ := ih (i + 1) middle
    refine ⟨after, ?_, ?_⟩
    · rw [updateFrom_cons, run_bind_of_ok hfirst, hrest]
    · rw [hafter, hmiddle, View.extend_extend, List.flatten_cons]

end Hasher
end SecureHash
