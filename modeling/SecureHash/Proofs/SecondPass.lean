import SecureHash.Proofs.Recording

/-!
The second pass of the double hash.

Both passes go through one hasher and write over the same octets.  Closing a hasher leaves a
new one, whatever it held, so what reaches the second pass is the digest of the first and
nothing else (`closesTwice`).  A digest has one length, so the second pass compresses one
block, and the count in it is the same for every message.
-/

namespace SecureHash
open Session (View)
open CompressionInput (chain)

namespace Digest

/-- The block that a digest is hashed as. -/
def block (d : Digest) : Block :=
  ⟨(Standard.padded d.octets.toList).toArray, by
    rw [List.size_toArray, Standard.length_padded_eq, Vector.length_toList]
    rfl⟩

/-- Thirty-two octets, the mark, zeros, and a count of 256 bits. -/
theorem toList_block (d : Digest) :
    d.block.toList =
      d.octets.toList ++ 0x80 :: List.replicate 23 0 ++ [0, 0, 0, 0, 0, 0, 1, 0] := by
  show Standard.padded d.octets.toList = _
  rw [Standard.padded, Vector.length_toList]
  rfl

@[simp] theorem blocks_octets (d : Digest) : Standard.blocks d.octets.toList = [d.block] :=
  wholeBlocks_toList d.block

end Digest

namespace Hasher

/-- What closing `h` twice comes to, if its digest is `first` and that of `first` is
`second`. -/
structure ClosesTwice (plan : Plan) (out : Vector UInt8 32) (h : Hasher) (first second : Digest) :
    Prop where
  /-- The first pass leaves its digest and a new hasher. -/
  first_pass : (finalizeInto (plan 1) out).run h = .ok first.octets initial
  second_pass : ∀ other, hash other first.octets.toList = .ok second
  both : (closeTwice plan out).run h = .ok second.octets initial
  /-- Beside what the first pass compresses, one block is compressed, into the initial chaining
  words: the digest, the mark, zeros, and a count of 256 bits. -/
  inputs : ∃ inputs block,
    (Recorded.finalizeInto (plan 1) out).run { store := h, inputs := [] } =
      .ok first.octets { store := initial, inputs } ∧
    (Recorded.closeTwice plan out).run { store := h, inputs := [] } =
      .ok second.octets { store := initial
                          inputs := inputs ++ [{ state := ChainState.initial, block }] } ∧
    block.toList =
      first.octets.toList ++ 0x80 :: List.replicate 23 0 ++ [0, 0, 0, 0, 0, 0, 1, 0]

theorem closesTwice (plan : Plan) (out : Vector UInt8 32) (h : Hasher) :
    ClosesTwice plan out h (View.of h).digest
      (View.ofMessage (View.of h).digest.octets.toList).digest where
  first_pass := run_finalizeInto (plan 1) out h
  second_pass other := hash_eq other _
  both := run_closeTwice plan out h
  inputs := by
    have hboth := Recorded.run_closeTwice plan out { store := h, inputs := [] }
    rw [Digest.blocks_octets] at hboth
    exact ⟨_, _, Recorded.run_finalizeInto (plan 1) out _, hboth, Digest.toList_block _⟩

end Hasher

/-- The double hash of a message of any length is the hash of its digest, whatever the
destination held.  From whatever hasher, the second pass is that of a new one to which the
digest is given. -/
theorem doubleHash_eq_hash_of_digest (plan : Plan) (message : List UInt8) (out : Vector UInt8 32) :
    (∃ (first second : Digest) (middle : Hasher),
      hash plan message = .ok first ∧
      (∀ other, hash other first.octets.toList = .ok second) ∧
      doubleHash plan message = .ok second ∧
      doubleHashInto plan message out = .ok second.octets ∧
      doubleHashInto plan message out =
        Hasher.fresh (do Hasher.update (plan 0) message; Hasher.closeTwice plan out) ∧
      (Hasher.update (plan 0) message).run Hasher.initial = .ok () middle ∧
      Hasher.ClosesTwice plan out middle first second) ∧
    ∀ h : Hasher, ∃ first second, Hasher.ClosesTwice plan out h first second := by
  refine ⟨?_, fun h => ⟨_, _, Hasher.closesTwice plan out h⟩⟩
  obtain ⟨middle, hupdate, hview⟩ := Hasher.run_update (plan 0) message Hasher.initial
  have hmiddle : View.of middle = View.ofMessage message := hview
  have hcloses := Hasher.closesTwice plan out middle
  rw [hmiddle] at hcloses
  exact ⟨_, _, middle, hash_eq plan message, fun other => hash_eq other _,
    doubleHash_eq plan message, doubleHashInto_eq plan message out,
    doubleHashInto_eq_fresh plan message out, hupdate, hcloses⟩

end SecureHash
