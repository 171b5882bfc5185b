import SecureHash.Proofs.Recording

/-!
From messages of one digest to inputs of one compression.

Chains of compressions that end alike are gone through from the back.  As long as their last
inputs are the same, so are the chaining words before them; the first difference is two
inputs that collide.  If none comes, one chain is used up, and its blocks are the end of the
other's (`collide_or_suffix`).  Padded messages rule that out.

That no two messages of one digest are known is no part of this: the theorem gives
different digests or the two inputs.
-/

namespace SecureHash
open Session (View)

namespace CompressionInput

/-- Different inputs that compress to the same chaining words, in whatever variants. -/
structure Collide (p q : CompressionInput) : Prop where
  ne : p ≠ q
  same : ∀ v w : Variant, ∃ after,
    compressBlock v p.state p.block = .ok after ∧ compressBlock w q.state q.block = .ok after

theorem collide_of_compress_eq {p q : CompressionInput} (hne : p ≠ q)
    (h : Standard.compress p.state p.block = Standard.compress q.state q.block) :
    p.Collide q where
  ne := hne
  same v w := ⟨Standard.compress p.state p.block, compressBlock_eq v p.state p.block, by
    rw [h, compressBlock_eq]⟩

/-- Some input of the one list collides with some input of the other. -/
def SomeCollide (inputs others : List CompressionInput) : Prop :=
  ∃ p ∈ inputs, ∃ q ∈ others, p.Collide q

theorem SomeCollide.mono {inputs others more rest : List CompressionInput}
    (h : SomeCollide inputs others) (hi : inputs ⊆ more) (ho : others ⊆ rest) :
    SomeCollide more rest := by
  obtain ⟨p, hp, q, hq, hcollide⟩ := h
  exact ⟨p, hi hp, q, ho hq, hcollide⟩

theorem chain_concat (state : ChainState) (blocks : List Block) (last : Block) :
    chain state (blocks ++ [last]) =
      chain state blocks ++ [{ state := blocks.foldl Standard.compress state, block := last }] := by
  rw [chain_append]
  rfl

/-- Chains that end in the same chaining words have inputs that collide, unless the blocks
of one are the end of the blocks of the other. -/
theorem collide_or_suffix {one two : ChainState} (blocks others : List Block)
    (h : blocks.foldl Standard.compress one = others.foldl Standard.compress two) :
    SomeCollide (chain one blocks) (chain two others) ∨ blocks <:+ others ∨ others <:+ blocks := by
  induction blocks using List.reverseRecOn generalizing others with
  | nil => exact .inr (.inl List.nil_suffix)
  | append_singleton front last ih =>
    rcases others.eq_nil_or_concat with rfl | ⟨front', last', rfl⟩
    · exact .inr (.inr List.nil_suffix)
    rw [List.concat_eq_append, List.foldl_append, List.foldl_append] at h
    rw [List.concat_eq_append, chain_concat, chain_concat]
    let p : CompressionInput := { state := front.foldl Standard.compress one, block := last }
    let q : CompressionInput := { state := front'.foldl Standard.compress two, block := last' }
    -- The last inputs collide, or they are the same and the fronts end alike too.
    by_cases hpq : p = q
    · have hstate : front.foldl Standard.compress one = front'.foldl Standard.compress two :=
        congrArg CompressionInput.state hpq
      have hlast : last = last' := congrArg CompressionInput.block hpq
      rw [← hlast]
      rcases ih front' hstate with hcollide | ⟨before, hbefore⟩ | ⟨before, hbefore⟩
      · exact .inl (hcollide.mono (List.subset_append_left _ _) (List.subset_append_left _ _))
      · exact .inr (.inl ⟨before, by rw [← List.append_assoc, hbefore]⟩)
      · exact .inr (.inr ⟨before, by rw [← List.append_assoc, hbefore]⟩)
    · exact .inl ⟨p, List.mem_concat_self, q, List.mem_concat_self, collide_of_compress_eq hpq h⟩

end CompressionInput

open CompressionInput (chain SomeCollide)

theorem Digest.ofState_injective : Function.Injective Digest.ofState := by
  intro s t h
  have hoctets : (Digest.ofState s).octets.toList = (Digest.ofState t).octets.toList := by rw [h]
  exact Standard.octetsOf_injective hoctets

/-- Short messages of one digest have inputs that collide. -/
theorem someCollide_of_digest_eq {message other : List UInt8} (hne : message ≠ other)
    (hm : message.length < 2 ^ 61) (ho : other.length < 2 ^ 61)
    (h : (View.ofMessage message).digest = (View.ofMessage other).digest) :
    SomeCollide (chain ChainState.initial (Standard.blocks message))
      (chain ChainState.initial (Standard.blocks other)) := by
  have hclosed : (View.ofMessage message).closed = (View.ofMessage other).closed :=
    Digest.ofState_injective h
  rw [View.closed_eq_foldl_blocks, View.closed_eq_foldl_blocks] at hclosed
  rcases CompressionInput.collide_or_suffix _ _ hclosed with hcollide | hsuffix | hsuffix
  · exact hcollide
  · exact absurd ((Standard.blocks_suffix_iff hm ho).mp hsuffix) hne
  · exact absurd ((Standard.blocks_suffix_iff ho hm).mp hsuffix).symm hne

/-- The same for two passes: either the digests of the first pass are one, or they are
different messages to the second. -/
theorem someCollide_of_doubleDigest_eq {message other : List UInt8} (hne : message ≠ other)
    (hm : message.length < 2 ^ 61) (ho : other.length < 2 ^ 61) :
    let first := (View.ofMessage message).digest
    let first' := (View.ofMessage other).digest
    (View.ofMessage first.octets.toList).digest = (View.ofMessage first'.octets.toList).digest →
    SomeCollide
      (chain ChainState.initial (Standard.blocks message) ++
        chain ChainState.initial (Standard.blocks first.octets.toList))
      (chain ChainState.initial (Standard.blocks other) ++
        chain ChainState.initial (Standard.blocks first'.octets.toList)) := by
  intro first first' h
  -- A first pass that tells the messages apart leaves the collision to the second.
  by_cases hfirst : first = first'
  · exact (someCollide_of_digest_eq hne hm ho hfirst).mono (List.subset_append_left _ _)
      (List.subset_append_left _ _)
  · have hoctets : first.octets.toList ≠ first'.octets.toList := fun he =>
      hfirst (congrArg Digest.mk (Vector.toList_inj.mp he))
    have hshort : ∀ d : Digest, d.octets.toList.length < 2 ^ 61 := fun d => by
      rw [Vector.length_toList]
      decide
    exact (someCollide_of_digest_eq hoctets (hshort first) (hshort first') h).mono
      (List.subset_append_right _ _) (List.subset_append_right _ _)

/-- Two messages that are short enough for their count get different digests, or among the
inputs of their compressions are two that collide.  The same holds of the double hash, with
the inputs of both passes. -/
theorem digests_differ_or_inputs_collide {message other : List UInt8} (hne : message ≠ other)
    (hm : message.length < 2 ^ 61) (ho : other.length < 2 ^ 61) (plan plan' : Plan) :
    (∃ d inputs d' inputs',
      hash plan message = .ok d ∧ Recorded.hash plan message = .ok (d, inputs) ∧
      hash plan' other = .ok d' ∧ Recorded.hash plan' other = .ok (d', inputs') ∧
      (d ≠ d' ∨ ∃ p ∈ inputs, ∃ q ∈ inputs', p.Collide q)) ∧
    ∃ d inputs d' inputs',
      doubleHash plan message = .ok d ∧ Recorded.doubleHash plan message = .ok (d, inputs) ∧
      doubleHash plan' other = .ok d' ∧ Recorded.doubleHash plan' other = .ok (d', inputs') ∧
      (d ≠ d' ∨ ∃ p ∈ inputs, ∃ q ∈ inputs', p.Collide q) := by
  refine ⟨⟨_, _, _, _, hash_eq plan message, Recorded.hash_eq plan message, hash_eq plan' other,
      Recorded.hash_eq plan' other, ?_⟩,
    ⟨_, _, _, _, doubleHash_eq plan message, Recorded.doubleHash_eq plan message,
      doubleHash_eq plan' other, Recorded.doubleHash_eq plan' other, ?_⟩⟩
  · exact or_iff_not_imp_left.mpr fun h => someCollide_of_digest_eq hne hm ho (not_not.mp h)
  · exact or_iff_not_imp_left.mpr fun h => someCollide_of_doubleDigest_eq hne hm ho (not_not.mp h)

/-- The empty message and the octet that its padding begins with. -/
theorem digests_differ_or_inputs_collide_of_mark :
    let plan := Plan.uniform .rolled
    ([] : List UInt8) ≠ [0x80] ∧ ([] : List UInt8).length < 2 ^ 61 ∧
      ([0x80] : List UInt8).length < 2 ^ 61 ∧
      ∃ d inputs d' inputs',
        Recorded.doubleHash plan [] = .ok (d, inputs) ∧
        Recorded.doubleHash plan [0x80] = .ok (d', inputs') ∧
        (d ≠ d' ∨ ∃ p ∈ inputs, ∃ q ∈ inputs', p.Collide q) := by
  intro plan
  have hne : ([] : List UInt8) ≠ [0x80] := by decide
  have hnone : ([] : List UInt8).length < 2 ^ 61 := by decide
  have hone : ([0x80] : List UInt8).length < 2 ^ 61 := by decide
  obtain ⟨-, d, inputs, d', inputs', -, hrun, -, hrun', hcollide⟩ :=
    digests_differ_or_inputs_collide hne hnone hone plan plan
  exact ⟨hne, hnone, hone, d, inputs, d', inputs', hrun, hrun', hcollide⟩

end SecureHash
