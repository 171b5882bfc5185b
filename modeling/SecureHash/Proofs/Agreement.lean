import SecureHash.Proofs.Decoding
import SecureHash.Proofs.DigestText

/-!
The two readings of hexadecimal text agree.

A digest is read place by place and stops at the first wrong digit, and octets of any number
are decoded in pairs.  Both accept what spells octets, so a digest is what decodes to as many
octets as it has (`readings_agree`), and their refusals tell the same of a text.
-/

namespace SecureHash
namespace Digest
open Hexadecimal (Spelling Decodes decode)

/-- The result is a refusal for a length of `actual`. -/
def MissesLength (result : Except ParseError Digest) (actual : Nat) : Prop :=
  ∃ expected, result = .error (.invalidLength expected actual)

theorem ofOctets_eq_ok_iff {octets : List UInt8} {d : Digest} :
    ofOctets octets = .ok d ↔ d.octets.toList = octets := by
  constructor
  · intro h
    rw [ofOctets] at h
    split_ifs at h
    obtain rfl := Except.ok.inj h
    rfl
  · rintro rfl
    exact dif_pos Vector.length_toList

theorem missesLength_ofOctets_iff {octets : List UInt8} {n : Nat} :
    MissesLength (ofOctets octets) n ↔ octets.length ≠ 32 ∧ octets.length = n := by
  by_cases h : octets.length = 32
  · simp [MissesLength, ofOctets, h]
  · simp [MissesLength, ofOctets, h]

theorem missesLength_ofHex_iff {text : String} {n : Nat} :
    MissesLength (ofHex text) n ↔
      (textOctets text).length ≠ 64 ∧ (textOctets text).length = n := by
  simp only [MissesLength, ofHex_eq_iff]
  constructor
  · rintro ⟨expected, h⟩
    cases h with
    | wrongLength h => exact ⟨h, rfl⟩
  · rintro ⟨h, rfl⟩
    exact ⟨64, .wrongLength h⟩

theorem exists_invalidHex_iff {text : String} :
    (∃ p, ofHex text = .error (.invalidHex p)) ↔
      (textOctets text).length = 64 ∧ ∃ c ∈ textOctets text, ∀ v, ¬ IsHexDigit c v := by
  constructor
  · rintro ⟨p, h⟩
    rw [ofHex_eq_iff] at h
    cases h with
    | badDigit h hp =>
      obtain ⟨hlt, hbad⟩ := hp.1
      refine ⟨h, _, List.getElem_mem hlt, fun v hv => ?_⟩
      exact hbad v ⟨_, List.getElem?_eq_getElem hlt, hv⟩
  · rintro ⟨h, c, hc, hbad⟩
    have hreads := reads_ofHex text
    cases hresult : ofHex text with
    | ok d =>
      rw [hresult, reads_ok_iff] at hreads
      obtain ⟨v, hv⟩ := hreads.exists_digit hc
      exact absurd hv (hbad v)
    | error e =>
      rw [hresult] at hreads
      cases hreads with
      | wrongLength h' => exact absurd h h'
      | badDigit => exact ⟨_, rfl⟩

theorem ofHex_eq_ok_iff_decode {text : String} {d : Digest} :
    ofHex text = .ok d ↔ decode text = .ok d.octets.toList := by
  rw [ofHex_eq_ok_iff, Hexadecimal.decode_eq_ok_iff]
  rfl

/-- A text reads as a digest exactly if it decodes to the octets of that digest.  A digit is
refused in reading exactly if there are 64 octets and decoding refuses a digit.  Where the text
decodes, reading refuses its length exactly if the octets are too many or too few, and tells
twice their number. -/
theorem readings_agree (text : String) :
    (∀ d, ofHex text = .ok d ↔ ∃ octets, decode text = .ok octets ∧ ofOctets octets = .ok d) ∧
    ((∃ p, ofHex text = .error (.invalidHex p)) ↔
      (textOctets text).length = 64 ∧ decode text = .error .badHexDigit) ∧
    Fault.badHexDigit.message = "invalid hex digit" ∧
    ∀ octets, decode text = .ok octets →
      ∀ n, MissesLength (ofHex text) n ↔ ∃ m, n = 2 * m ∧ MissesLength (ofOctets octets) m := by
  refine ⟨fun d => ?_, ?_, rfl, fun octets hoctets n => ?_⟩
  · simp only [ofHex_eq_ok_iff_decode, ofOctets_eq_ok_iff, exists_eq_right']
  · rw [exists_invalidHex_iff, Hexadecimal.decode_eq_badHexDigit_iff]
    refine and_congr_right fun h => (and_iff_right ?_).symm
    rw [h]
  · have hlength := Hexadecimal.length_of_decode hoctets
    simp only [missesLength_ofHex_iff, missesLength_ofOctets_iff, hlength]
    constructor
    · rintro ⟨hne, rfl⟩
      exact ⟨_, rfl, by omega, rfl⟩
    · rintro ⟨m, rfl, hne, rfl⟩
      exact ⟨by omega, rfl⟩

/-- Two octets decode, and are too few for a digest. -/
theorem readings_agree_of_two_octets :
    decode "abCD" = .ok [0xab, 0xcd] ∧ MissesLength (ofOctets [0xab, 0xcd]) 2 ∧
      ∀ n, MissesLength (ofHex "abCD") n ↔
        ∃ m, n = 2 * m ∧ MissesLength (ofOctets [0xab, 0xcd]) m := by
  have hoctets : decode "abCD" = .ok [0xab, 0xcd] := by decide
  exact ⟨hoctets, ⟨32, rfl⟩, (readings_agree "abCD").2.2.2 _ hoctets⟩

end Digest
end SecureHash
