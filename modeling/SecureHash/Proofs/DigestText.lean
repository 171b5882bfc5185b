import SecureHash.Proofs.Spelling
import SecureHash.Proofs.Parsing

/-!
The text of a digest against its reading.

A text reads as a digest exactly if it spells the octets of the digest
(`ofHex_eq_ok_iff`), and a text in lower case is the only one of its spellings that is written.
Comparing gathers all differences in one octet, which is zero for the same octets only
(`difference_eq_zero_iff`), so digests are compared as their texts are.
-/

namespace SecureHash
namespace Digest
open Hexadecimal (Spelling nibbles encode)

/-! ## Comparing -/

theorem foldl_or_eq_zero_iff {l : List UInt8} {b : UInt8} :
    l.foldl (· ||| ·) b = 0 ↔ b = 0 ∧ ∀ c ∈ l, c = 0 := by
  induction l generalizing b with
  | nil => simp
  | cons c rest ih =>
    rw [List.foldl_cons, ih, UInt8.or_eq_zero_iff, List.forall_mem_cons, and_assoc]

theorem difference_eq_zero_iff {d e : Digest} : difference d e = 0 ↔ d = e := by
  rw [difference, ← Vector.foldl_toList, foldl_or_eq_zero_iff]
  constructor
  · rintro ⟨-, hzero⟩
    have hoctets : d.octets = e.octets := by
      ext i hi
      have hmem : d.octets[i] ^^^ e.octets[i] ∈ (d.octets.zipWith (· ^^^ ·) e.octets).toList := by
        rw [Vector.mem_toList_iff, Vector.mem_iff_getElem]
        exact ⟨i, hi, Vector.getElem_zipWith hi⟩
      rw [UInt8.xor_eq_zero_iff.mp (hzero _ hmem)]
    exact congrArg Digest.mk hoctets
  · rintro rfl
    refine ⟨rfl, fun c hc => ?_⟩
    rw [Vector.mem_toList_iff, Vector.mem_iff_getElem] at hc
    obtain ⟨i, hi, rfl⟩ := hc
    rw [Vector.getElem_zipWith, UInt8.xor_self]

theorem beq_eq_true_iff {d e : Digest} : (d == e) = true ↔ d = e := by
  show (difference d e == 0) = true ↔ d = e
  rw [beq_iff_eq, difference_eq_zero_iff]

/-! ## Reading what is spelled -/

theorem spells_iff {s : List UInt8} {i : Nat} {b : UInt8} :
    Spells s i b ↔
      HexDigitAt s (2 * i) (b.toNat / 16) ∧ HexDigitAt s (2 * i + 1) (b.toNat % 16) := by
  constructor
  · rintro ⟨high, low, hhigh, hlow, hb⟩
    have hlt := hlow.lt
    rw [show b.toNat / 16 = high by omega, show b.toNat % 16 = low by omega]
    exact ⟨hhigh, hlow⟩
  · rintro ⟨hhigh, hlow⟩
    exact ⟨_, _, hhigh, hlow, by omega⟩

theorem forall₂_iff_hexDigitAt {s : List UInt8} {vs : List Nat} :
    List.Forall₂ IsHexDigit s vs ↔
      s.length = vs.length ∧ ∀ p v, vs[p]? = some v → HexDigitAt s p v := by
  rw [List.forall₂_iff_get]
  refine and_congr_right fun hlen => ⟨fun h p v hv => ?_, fun h p _ hp => ?_⟩
  · obtain ⟨hp, rfl⟩ := List.getElem?_eq_some_iff.mp hv
    exact ⟨_, List.getElem?_eq_getElem (hlen ▸ hp), h p (hlen ▸ hp) hp⟩
  · obtain ⟨c, hc, hdigit⟩ := h p _ (List.getElem?_eq_getElem hp)
    obtain ⟨_, rfl⟩ := List.getElem?_eq_some_iff.mp hc
    exact hdigit

/-- Octets are spelled all together exactly if each is at its places. -/
theorem spelling_iff_spells {s octets : List UInt8} :
    Spelling s octets ↔
      s.length = 2 * octets.length ∧ ∀ i b, octets[i]? = some b → Spells s i b := by
  rw [Spelling, forall₂_iff_hexDigitAt, Hexadecimal.length_nibbles]
  refine and_congr_right fun _ => ⟨fun h i b hb => ?_, fun h p v hv => ?_⟩
  · obtain ⟨hhigh, hlow⟩ := Hexadecimal.getElem?_nibbles octets i
    rw [hb] at hhigh hlow
    exact spells_iff.mpr ⟨h _ _ hhigh, h _ _ hlow⟩
  · obtain ⟨hhigh, hlow⟩ := Hexadecimal.getElem?_nibbles octets (p / 2)
    obtain heven | hodd := Nat.mod_two_eq_zero_or_one p
    · rw [show p = 2 * (p / 2) by omega] at hv ⊢
      rw [hhigh, Option.map_eq_some_iff] at hv
      obtain ⟨b, hb, rfl⟩ := hv
      exact (spells_iff.mp (h _ _ hb)).1
    · rw [show p = 2 * (p / 2) + 1 by omega] at hv ⊢
      rw [hlow, Option.map_eq_some_iff] at hv
      obtain ⟨b, hb, rfl⟩ := hv
      exact (spells_iff.mp (h _ _ hb)).2

theorem reads_ok_iff {s : List UInt8} {d : Digest} :
    Reads s (.ok d) ↔ Spelling s d.octets.toList := by
  have hlen : d.octets.toList.length = 32 := Vector.length_toList
  rw [spelling_iff_spells, hlen]
  constructor
  · intro h
    cases h with
    | digest h hd =>
      refine ⟨h, fun i b hb => ?_⟩
      obtain ⟨hi, rfl⟩ := List.getElem?_eq_some_iff.mp hb
      exact hd ⟨i, hlen ▸ hi⟩
  · rintro ⟨h, hd⟩
    exact .digest h fun i => hd i _ (List.getElem?_eq_getElem (hlen.symm ▸ i.isLt))

/-- A text reads as a digest exactly if the digest is written as the text in lower case. -/
theorem ofHex_eq_ok_iff {text : String} {d : Digest} :
    ofHex text = .ok d ↔ d.toHex = text.toLower := by
  rw [ofHex_eq_iff, reads_ok_iff, Hexadecimal.spelling_textOctets_iff]
  rfl

/-! ## Writing and reading -/

theorem ofHex_toHex (d : Digest) : ofHex d.toHex = .ok d :=
  ofHex_eq_ok_iff.mpr (Hexadecimal.toLower_encode d.octets.toList).symm

theorem toHex_injective : Function.Injective toHex := by
  intro d e h
  have hread := ofHex_toHex d
  rw [h, ofHex_toHex] at hread
  exact (Except.ok.inj hread).symm

theorem length_toHex (d : Digest) : d.toHex.length = 64 := by
  rw [toHex, Hexadecimal.length_encode, Vector.length_toList]

theorem mem_toHex {d : Digest} {c : Char} (h : c ∈ d.toHex.toList) :
    c ∈ "0123456789abcdef".toList := by
  have hdigit : ∀ v < 16, Hexadecimal.digit v ∈ "0123456789abcdef".toList := by decide
  rw [toHex, Hexadecimal.toList_encode] at h
  obtain ⟨v, hv, rfl⟩ := List.mem_map.mp h
  exact hdigit v (Hexadecimal.lt_of_mem_nibbles hv)

/-- Whatever the layout, a digest is written as 64 digits in lower case that read back as it, and
what reads as a digest is its text but for the case of letters.  So the comparison of digests
is that of their octets, of their texts, and of any texts they were read from in lower case. -/
theorem display_inverts_ofHex :
    (∀ (layout other : Layout) (d : Digest),
      display layout d = lowerHex other d ∧ (display layout d).length = 64 ∧
      (∀ c ∈ (display layout d).toList, c ∈ "0123456789abcdef".toList) ∧
      ofHex (display layout d) = .ok d) ∧
    (∀ (layout : Layout) (text : String) (d : Digest),
      ofHex text = .ok d → display layout d = text.toLower) ∧
    (∀ (s t : String) (d e : Digest), ofHex s = .ok d → ofHex t = .ok e →
      ((d == e) = true ↔ s.toLower = t.toLower)) ∧
    ∀ (layout other : Layout) (d e : Digest),
      ((d == e) = true ↔ d.octets = e.octets) ∧
      ((d == e) = true ↔ display layout d = display other e) := by
  refine ⟨fun _ _ d => ⟨rfl, length_toHex d, fun _ => mem_toHex, ofHex_toHex d⟩,
    fun _ _ _ => ofHex_eq_ok_iff.mp, fun s t d e hs ht => ?_, fun _ _ d e => ⟨?_, ?_⟩⟩
  · rw [beq_eq_true_iff, ← ofHex_eq_ok_iff.mp hs, ← ofHex_eq_ok_iff.mp ht, toHex_injective.eq_iff]
  · rw [beq_eq_true_iff]
    exact ⟨congrArg octets, congrArg mk⟩
  · rw [beq_eq_true_iff]
    exact toHex_injective.eq_iff.symm

/-- Two spellings of one digest. -/
theorem display_inverts_ofHex_of_two_spellings :
    let s := String.ofList (List.replicate 32 'a' ++ List.replicate 32 'F')
    let t := String.ofList (List.replicate 32 'A' ++ List.replicate 32 'f')
    let d : Digest := ⟨Vector.ofFn fun i => if i.val < 16 then 0xaa else 0xff⟩
    ofHex s = .ok d ∧ ofHex t = .ok d ∧ display { width := 80 } d = s.toLower ∧
      ((d == d) = true ↔ s.toLower = t.toLower) := by
  intro s t d
  have hs : ofHex s = .ok d := by cbv
  have ht : ofHex t = .ok d := by cbv
  exact ⟨hs, ht, display_inverts_ofHex.2.1 { width := 80 } s d hs,
    display_inverts_ofHex.2.2.1 s t d d hs ht⟩

end Digest
end SecureHash
