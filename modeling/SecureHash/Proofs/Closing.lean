import SecureHash.Proofs.Intake

/-!
Padding and closing, seen from outside.

Room for the count decides between one block and two, and the buffer is written in place.
In both cases the blocks are those of the pending octets with the mark, the zeros and the
count after them (`run_padBlocks`), so all that closing gives depends on the view alone.
-/

namespace SecureHash
open Standard (digits256 zeroCount octetsOf)

namespace Hasher

theorem countOffset_eq : countOffset = 56 := rfl

theorem take_padding {n : Nat} (hpos : 0 < n) (hle : n ≤ 64) :
    padding.toList.take n = 0x80 :: List.replicate (n - 1) 0 := by
  have hlist : padding.toList = 0x80 :: List.replicate 63 0 := rfl
  obtain ⟨m, rfl⟩ : ∃ m, n = m + 1 := ⟨n - 1, by omega⟩
  rw [hlist, List.take_succ_cons, List.take_replicate, Nat.min_eq_left (by omega)]
  rfl

theorem run_fillPadding (h : Hasher) {start stop : Nat} (hlt : start < stop) (hstop : stop ≤ 64) :
    ∃ buffer, (fillPadding start stop).run h = .ok () { h with buffer } ∧
      buffer.toList = h.buffer.toList.take start ++ 0x80 :: List.replicate (stop - start - 1) 0 ++
        h.buffer.toList.drop stop := by
  have hfront := take_padding (show 0 < stop - start by omega) (show stop - start ≤ 64 by omega)
  have hlen : (padding.toList.take (stop - start)).length = stop - start := by
    rw [List.length_take, Vector.length_toList]
    omega
  obtain ⟨buffer, hfill, hbuf⟩ := run_fill h (Nat.le_of_lt hlt) hstop hlen
  refine ⟨buffer, ?_, ?_⟩
  · rw [fillPadding, run_lift_bind_of_ok (Checked.sub_eq_ok (Nat.le_of_lt hlt)),
      run_lift_bind_of_ok (Checked.split_eq_ok (by rw [Vector.length_toList]; omega))]
    exact hfill
  · rw [hbuf, hfront]

theorem run_writeCount (h : Hasher) :
    ∃ last, padBlocks.writeCount.run h = .ok last { h with buffer := last } ∧
      last.toList = h.buffer.toList.take 56 ++ digits256 8 h.bitCount.toNat := by
  have hlen : (BigEndian.encode64 h.bitCount).toList.length = 64 - 56 := Vector.length_toList
  obtain ⟨last, hfill, hlast⟩ := run_fill h (by decide) (Nat.le_refl 64) hlen
  refine ⟨last, ?_, ?_⟩
  · rw [padBlocks.writeCount, run_get_bind, countOffset_eq, run_bind_of_ok hfill, run_get_bind]
    rfl
  · rw [hlast, BigEndian.toList_encode64, List.drop_of_length_le (by simp),
      List.append_nil]

end Hasher

namespace Session.View

/-- The pending octets with the mark, the zeros and the count after them. -/
def padded (v : View) : List UInt8 :=
  v.pending ++ 0x80 :: List.replicate (zeroCount v.pending.length) 0 ++
    digits256 8 v.bitCount.toNat

def paddedBlocks (v : View) : List Block := wholeBlocks v.padded

/-- The chaining words after the padded octets. -/
def closed (v : View) : ChainState := v.paddedBlocks.foldl Standard.compress v.state

/-- The hasher that padding leaves, with the last block still in its buffer. -/
def afterPad (v : View) : Hasher :=
  { state := v.closed, bitCount := v.bitCount, buffer := v.paddedBlocks.getLastD Block.zero }

end Session.View

/-- The digest that chaining words spell. -/
def Digest.ofState (state : ChainState) : Digest :=
  ⟨⟨(octetsOf state).toArray, by rw [List.size_toArray, Standard.length_octetsOf]⟩⟩

@[simp] theorem Digest.toList_ofState (state : ChainState) :
    (ofState state).octets.toList = octetsOf state := rfl

/-- What a message that leaves `v` is digested to. -/
def Session.View.digest (v : View) : Digest := Digest.ofState v.closed

namespace Hasher
open Session (View)

theorem zeroCount_of_room {r : Nat} (h : r < 56) : zeroCount r = 55 - r := by
  rw [zeroCount]
  omega

theorem zeroCount_of_no_room {r : Nat} (h : 56 ≤ r) (hlt : r < 64) :
    zeroCount r = 63 - r + 56 := by
  rw [zeroCount]
  omega

theorem run_padBlocks_of_room (h : Hasher) (hr : h.pendingLength < 56) :
    ∃ last, padBlocks.run h = .ok [last] { h with buffer := last } ∧
      (View.of h).padded = last.toList := by
  obtain ⟨buffer, hfill, hbuf⟩ := run_fillPadding h hr (by decide)
  obtain ⟨last, hwrite, hlast⟩ := run_writeCount { h with buffer }
  refine ⟨last, ?_, ?_⟩
  · rw [padBlocks, run_get_bind, countOffset_eq, if_pos hr, run_bind_of_ok hfill,
      run_bind_of_ok hwrite]
    rfl
  · have hfront :
        (h.pending ++ 0x80 :: List.replicate (56 - h.pendingLength - 1) 0).length = 56 := by
      rw [List.length_append, length_pending, List.length_cons, List.length_replicate]
      omega
    have htake : buffer.toList.take 56 =
        h.pending ++ 0x80 :: List.replicate (56 - h.pendingLength - 1) 0 := by
      rw [hbuf]
      exact List.take_left' hfront
    have hzeros : zeroCount h.pending.length = 56 - h.pendingLength - 1 := by
      rw [length_pending, zeroCount_of_room hr]
      omega
    rw [hlast, htake, ← hzeros]
    rfl

theorem run_padBlocks_of_no_room (h : Hasher) (hr : 56 ≤ h.pendingLength) :
    ∃ filled last, padBlocks.run h = .ok [filled, last] { h with buffer := last } ∧
      (View.of h).padded = filled.toList ++ last.toList := by
  have hlt := h.pendingLength_lt
  obtain ⟨filled, hfill, hfilled⟩ := run_fillPadding h hlt (Nat.le_refl 64)
  obtain ⟨zeros, hzero, hzeros⟩ := run_fill { h with buffer := filled } (Nat.zero_le 56)
    (by decide) (show (List.replicate 56 (0 : UInt8)).length = 56 - 0 from List.length_replicate)
  obtain ⟨last, hwrite, hlast⟩ := run_writeCount { h with buffer := zeros }
  refine ⟨filled, last, ?_, ?_⟩
  · rw [padBlocks, run_get_bind, countOffset_eq, if_neg (Nat.not_lt.mpr hr), run_bind_of_ok hfill,
      run_get_bind, run_bind_of_ok hzero, run_bind_of_ok hwrite]
    rfl
  · have hcount : zeroCount h.pending.length = (64 - h.pendingLength - 1) + 56 := by
      rw [length_pending, zeroCount_of_no_room hr hlt]
      omega
    have hfront : zeros.toList.take 56 = List.replicate 56 0 := by
      rw [hzeros]
      exact List.take_left' List.length_replicate
    show h.pending ++ 0x80 :: List.replicate (zeroCount h.pending.length) 0 ++ _ = _
    rw [hcount, List.replicate_add, hlast, hfront, hfilled,
      List.drop_of_length_le (by simp), List.append_nil]
    simp only [List.append_assoc, List.cons_append]
    rfl

theorem run_padBlocks (h : Hasher) :
    padBlocks.run h = .ok (View.of h).paddedBlocks
      { h with buffer := (View.of h).paddedBlocks.getLastD Block.zero } := by
  rcases Nat.lt_or_ge h.pendingLength 56 with hr | hr
  · obtain ⟨last, hrun, hpadded⟩ := run_padBlocks_of_room h hr
    have hblocks : (View.of h).paddedBlocks = [last] := by
      rw [View.paddedBlocks, hpadded, wholeBlocks_toList]
    rw [hrun, hblocks]
    rfl
  · obtain ⟨filled, last, hrun, hpadded⟩ := run_padBlocks_of_no_room h hr
    have hblocks : (View.of h).paddedBlocks = [filled, last] := by
      rw [View.paddedBlocks, hpadded, wholeBlocks_toList_append, wholeBlocks_toList]
    rw [hrun, hblocks]
    rfl

/-- Padding depends on the view alone, and so does all that it leaves. -/
theorem run_pad (choice : Strategy) (h : Hasher) :
    (pad choice).run h = .ok (View.of h).paddedBlocks.length (View.of h).afterPad := by
  rw [pad_eq, run_bind_of_ok (run_padBlocks h), run_bind_of_ok (run_absorb choice _ _)]
  rfl

theorem overwritten_encodeWords (state : ChainState) (out : Vector UInt8 32) :
    overwritten (BigEndian.encodeWords state.toList) out = .ok (Digest.ofState state).octets := by
  have hlen : 32 = state.toList.length * 4 := by simp
  obtain ⟨octets, hrun, hoctets⟩ := BigEndian.run_encodeWords out hlen
  rw [BigEndian.writeOver_eq_flatMap (by simp)] at hoctets
  have heq : octets = (Digest.ofState state).octets :=
    Vector.toList_inj.mp (hoctets.trans (Digest.toList_ofState state).symm)
  rw [overwritten_eq_ok hrun, heq]

theorem run_finalizeInto (choice : Strategy) (out : Vector UInt8 32) (h : Hasher) :
    (finalizeInto choice out).run h = .ok (View.of h).digest.octets initial := by
  rw [finalizeInto_eq, run_bind_of_ok (run_pad choice h), run_get_bind,
    run_lift_bind_of_ok (overwritten_encodeWords _ out), run_bind_of_ok (run_reset _)]
  rfl

theorem run_finalize (choice : Strategy) (h : Hasher) :
    (finalize choice).run h = .ok (View.of h).digest initial := by
  rw [finalize, run_bind_of_ok (run_finalizeInto choice _ h)]
  rfl

end Hasher
end SecureHash
