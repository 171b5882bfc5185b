import SecureHash.Proofs.Spelling
import SecureHash.Proofs.Runs

/-!
What becomes of a hexadecimal text of any length that is decoded.

A text has an odd number of octets, or some octet of it is no digit, or it spells octets
(`Decodes`).  That is all there is to decoding, so what it does to a written form, to either
case of it and to one text behind another is read off the written form alone.
-/

namespace SecureHash
namespace Hexadecimal

/-- What octets decode to.  An odd number of them counts before a wrong digit. -/
inductive Decodes (text : List UInt8) : Except Fault (List UInt8) → Prop
  | oddLength (h : text.length % 2 = 1) : Decodes text (.error .oddHexLength)
  | badDigit (h : text.length % 2 = 0) {c : UInt8} (hc : c ∈ text) (hbad : ∀ v, ¬ IsHexDigit c v) :
    Decodes text (.error .badHexDigit)
  | octets {octets : List UInt8} (h : Spelling text octets) : Decodes text (.ok octets)

/-- Octets decode to one thing only. -/
theorem Decodes.unique {text : List UInt8} {result other : Except Fault (List UInt8)}
    (h : Decodes text result) (hother : Decodes text other) : result = other := by
  cases h with
  | oddLength h =>
    cases hother with
    | oddLength => rfl
    | badDigit h' => omega
    | octets h' => have := h'.length_eq; omega
  | badDigit h hc hbad =>
    cases hother with
    | oddLength h' => omega
    | badDigit => rfl
    | octets h' =>
      obtain ⟨v, hv⟩ := h'.exists_digit hc
      exact absurd hv (hbad v)
  | octets h =>
    cases hother with
    | oddLength h' => have := h.length_eq; omega
    | badDigit _ hc hbad =>
      obtain ⟨v, hv⟩ := h.exists_digit hc
      exact absurd hv (hbad v)
    | octets h' => rw [h.unique h']

/-! ## Decoding -/

theorem digitValue?_eq_some_iff {c : Char} {v : Nat} :
    digitValue? c = some v ↔ IsDigitChar c v := by
  have hdigit : c.isDigit ↔ 48 ≤ c.toNat ∧ c.toNat ≤ 57 := Char.isDigit_iff_toNat
  have hrange : 'a' ≤ c.toLower ∧ c.toLower ≤ 'f' ↔
      97 ≤ c.toLower.toNat ∧ c.toLower.toNat ≤ 102 := Iff.rfl
  have hlower := toNat_toLower c
  rw [isDigitChar_iff, digitValue?]
  by_cases hdecimal : 48 ≤ c.toNat ∧ c.toNat ≤ 57
  · rw [if_pos (hdigit.mpr hdecimal), Option.some.injEq]
    show c.toNat - 48 = v ↔ _
    omega
  · rw [if_neg (mt hdigit.mp hdecimal)]
    simp only [hrange]
    by_cases hletter : 97 ≤ c.toLower.toNat ∧ c.toLower.toNat ≤ 102
    · rw [if_pos hletter, Option.some.injEq]
      show c.toLower.toNat - 97 + 10 = v ↔ _
      split_ifs at hlower <;> omega
    · rw [if_neg hletter]
      simp only [reduceCtorEq, false_iff]
      split_ifs at hlower <;> omega

/-- An octet taken as the character of its number is a digit only if it is ASCII. -/
theorem digitValue?_ofNat {b : UInt8} {v : Nat} :
    digitValue? (Char.ofNat b.toNat) = some v ↔ IsHexDigit b v := by
  have hb : b.toNat < 256 := b.toNat_lt
  have hchar : (Char.ofNat b.toNat).toNat = b.toNat := by
    rw [Char.toNat_ofNat, if_pos (.inl (by omega))]
  have hoctet : (Char.ofNat b.toNat).toUInt8 = b := by
    apply UInt8.toNat_inj.mp
    show (Char.ofNat b.toNat).toNat % 256 = b.toNat
    omega
  rw [digitValue?_eq_some_iff, ← isHexDigit_toUInt8_iff (hchar.trans_lt hb), hoctet]

theorem octetValue_eq_ok {b h : UInt8} (heq : octetValue b = .ok h) : IsHexDigit b h.toNat := by
  rw [octetValue] at heq
  cases hv : digitValue? (Char.ofNat b.toNat) with
  | none => rw [hv] at heq; cases heq
  | some v =>
    rw [hv] at heq
    obtain rfl := Except.ok.inj heq
    have hdigit := digitValue?_ofNat.mp hv
    have hlt := hdigit.lt
    rwa [show v.toUInt8.toNat = v from Nat.mod_eq_of_lt (by omega)]

theorem octetValue_eq_error {b : UInt8} {fault : Fault} (heq : octetValue b = .error fault) :
    fault = .badHexDigit ∧ ∀ v, ¬ IsHexDigit b v := by
  rw [octetValue] at heq
  cases hv : digitValue? (Char.ofNat b.toNat) with
  | none =>
    rw [hv] at heq
    refine ⟨(Except.error.inj heq).symm, fun v hd => ?_⟩
    rw [digitValue?_ofNat.mpr hd] at hv
    cases hv
  | some v => rw [hv] at heq; cases heq

theorem spelling_of_decodePairs {text octets : List UInt8} (heven : text.length % 2 = 0)
    (h : decodePairs text = .ok octets) : Spelling text octets := by
  induction text using decodePairs.induct generalizing octets with
  | case1 high low rest ih =>
    rw [decodePairs, bind_eq_ok_iff] at h
    obtain ⟨hi, hhigh, h⟩ := h
    obtain ⟨lo, hlow, h⟩ := bind_eq_ok_iff.mp h
    obtain ⟨others, hrest, h⟩ := bind_eq_ok_iff.mp h
    obtain rfl := Except.ok.inj h
    have hd := octetValue_eq_ok hhigh
    have hd' := octetValue_eq_ok hlow
    have hshorter : rest.length % 2 = 0 := by
      simp only [List.length_cons] at heven
      omega
    exact .cons hd hd' (toNat_shiftLeft_or hd.lt hd'.lt) (ih hshorter hrest)
  | case2 text hshort =>
    -- Of an even number of octets, fewer than two are none.
    cases text with
    | nil =>
      obtain rfl := Except.ok.inj h
      exact .nil
    | cons high rest =>
      cases rest with
      | nil => cases heven
      | cons low rest => exact absurd rfl (hshort high low rest)

theorem badDigit_of_decodePairs {text : List UInt8} {fault : Fault}
    (h : decodePairs text = .error fault) :
    fault = .badHexDigit ∧ ∃ c ∈ text, ∀ v, ¬ IsHexDigit c v := by
  induction text using decodePairs.induct with
  | case1 high low rest ih =>
    rw [decodePairs, bind_eq_error_iff] at h
    obtain h | ⟨_, -, h⟩ := h
    · obtain ⟨hfault, hbad⟩ := octetValue_eq_error h
      exact ⟨hfault, high, by simp, hbad⟩
    · obtain h | ⟨_, -, h⟩ := bind_eq_error_iff.mp h
      · obtain ⟨hfault, hbad⟩ := octetValue_eq_error h
        exact ⟨hfault, low, by simp, hbad⟩
      · obtain h | ⟨_, -, h⟩ := bind_eq_error_iff.mp h
        · obtain ⟨hfault, c, hc, hbad⟩ := ih h
          exact ⟨hfault, c, by simp [hc], hbad⟩
        · cases h
  | case2 text hshort =>
    rw [decodePairs.eq_2 text hshort] at h
    cases h

theorem decodes_decode (text : String) : Decodes (textOctets text) (decode text) := by
  rw [decode]
  by_cases heven : (textOctets text).length % 2 = 0
  · simp only [if_pos heven]
    cases h : decodePairs (textOctets text) with
    | ok octets => exact .octets (spelling_of_decodePairs heven h)
    | error fault =>
      obtain ⟨rfl, c, hc, hbad⟩ := badDigit_of_decodePairs h
      exact .badDigit heven hc hbad
  · simp only [if_neg heven]
    exact .oddLength (Nat.mod_two_ne_zero.mp heven)

theorem decode_eq_iff {text : String} {result : Except Fault (List UInt8)} :
    decode text = result ↔ Decodes (textOctets text) result :=
  ⟨fun h => h ▸ decodes_decode text, fun h => (decodes_decode text).unique h⟩

/-- A text decodes to octets exactly if writing them gives the text in lower case. -/
theorem decode_eq_ok_iff {text : String} {octets : List UInt8} :
    decode text = .ok octets ↔ encode octets = text.toLower := by
  rw [decode_eq_iff, ← spelling_textOctets_iff]
  constructor
  · intro h
    cases h with
    | octets h => exact h
  · exact .octets

theorem decode_eq_oddHexLength_iff {text : String} :
    decode text = .error .oddHexLength ↔ (textOctets text).length % 2 = 1 := by
  rw [decode_eq_iff]
  constructor
  · intro h
    cases h with
    | oddLength h => exact h
  · exact .oddLength

theorem decode_eq_badHexDigit_iff {text : String} :
    decode text = .error .badHexDigit ↔
      (textOctets text).length % 2 = 0 ∧ ∃ c ∈ textOctets text, ∀ v, ¬ IsHexDigit c v := by
  rw [decode_eq_iff]
  constructor
  · intro h
    cases h with
    | badDigit heven hc hbad => exact ⟨heven, _, hc, hbad⟩
  · rintro ⟨heven, c, hc, hbad⟩
    exact .badDigit heven hc hbad

theorem length_of_decode {text : String} {octets : List UInt8} (h : decode text = .ok octets) :
    (textOctets text).length = 2 * octets.length := by
  rw [decode_eq_ok_iff, ← spelling_textOctets_iff] at h
  exact h.length_eq

theorem exists_decode_eq_ok {text : String} (heven : (textOctets text).length % 2 = 0)
    (hdigits : ∀ c ∈ textOctets text, ∃ v, IsHexDigit c v) :
    ∃ octets, decode text = .ok octets := by
  have hdecodes := decodes_decode text
  cases hresult : decode text with
  | ok octets => exact ⟨octets, rfl⟩
  | error fault =>
    rw [hresult] at hdecodes
    cases hdecodes with
    | oddLength h => omega
    | badDigit _ hc hbad =>
      obtain ⟨v, hv⟩ := hdigits _ hc
      exact absurd hv (hbad v)

theorem decode_append {front back : String} {a b : List UInt8} (ha : decode front = .ok a)
    (hb : decode back = .ok b) : decode (front ++ back) = .ok (a ++ b) := by
  have hlower : (front ++ back).toLower = front.toLower ++ back.toLower := by
    rw [← String.toList_inj]
    simp only [String.toLower, String.toList_map, String.toList_append, List.map_append]
  rw [decode_eq_ok_iff] at ha hb ⊢
  rw [hlower, encode_append, ha, hb]

/-- A text is refused for an odd number of octets, whatever they are, and else for an octet that
is no digit.  Any other decodes to half as many octets, the only ones whose written form is the
text in lower case.  So decoding gives back what was written, in either case, and takes texts
behind one another to their octets behind one another. -/
theorem decode_inverts_encode :
    (∀ text, decode text = .error .oddHexLength ↔ (textOctets text).length % 2 = 1) ∧
    (∀ text, decode text = .error .badHexDigit ↔
      (textOctets text).length % 2 = 0 ∧ ∃ c ∈ textOctets text, ∀ v, ¬ IsHexDigit c v) ∧
    Fault.oddHexLength.message = "hex string has odd length" ∧
    Fault.badHexDigit.message = "invalid hex digit" ∧
    (∀ text, (textOctets text).length % 2 = 0 → (∀ c ∈ textOctets text, ∃ v, IsHexDigit c v) →
      ∃ octets, decode text = .ok octets ∧ octets.length = (textOctets text).length / 2 ∧
        encode octets = text.toLower ∧ ∀ others, encode others = text.toLower → others = octets) ∧
    (∀ octets, decode (encode octets) = .ok octets ∧ decode (encode octets).toUpper = .ok octets) ∧
    ∀ front back a b, decode front = .ok a → decode back = .ok b →
      decode (front ++ back) = .ok (a ++ b) := by
  refine ⟨fun _ => decode_eq_oddHexLength_iff, fun _ => decode_eq_badHexDigit_iff, rfl, rfl,
    fun text heven hdigits => ?_, fun octets => ⟨?_, ?_⟩, fun _ _ _ _ => decode_append⟩
  · obtain ⟨octets, hoctets⟩ := exists_decode_eq_ok heven hdigits
    have hlength := length_of_decode hoctets
    refine ⟨octets, hoctets, by omega, decode_eq_ok_iff.mp hoctets, fun others hothers => ?_⟩
    exact Except.ok.inj ((decode_eq_ok_iff.mpr hothers).symm.trans hoctets)
  · rw [decode_eq_ok_iff, toLower_encode]
  · rw [decode_eq_ok_iff, toLower_toUpper_encode]

/-- Two octets, each with one digit in upper case. -/
theorem decode_inverts_encode_of_mixed_case :
    (textOctets "De").length % 2 = 0 ∧ (∀ c ∈ textOctets "De", ∃ v, IsHexDigit c v) ∧
      (∃ octets, decode "De" = .ok octets ∧ octets.length = (textOctets "De").length / 2 ∧
        encode octets = "De".toLower ∧ ∀ others, encode others = "De".toLower → others = octets) ∧
      decode "De" = .ok [0xde] ∧ decode "aD" = .ok [0xad] ∧
      decode ("De" ++ "aD") = .ok ([0xde] ++ [0xad]) := by
  have htext : textOctets "De" = [68, 101] := by decide
  have heven : (textOctets "De").length % 2 = 0 := by decide
  have hdigits : ∀ c ∈ textOctets "De", ∃ v, IsHexDigit c v := by
    rw [htext, List.forall_mem_cons, List.forall_mem_singleton]
    exact ⟨⟨13, isHexDigit_iff.mpr (by decide)⟩, 14, isHexDigit_iff.mpr (by decide)⟩
  have hfront : decode "De" = .ok [0xde] := by decide
  have hback : decode "aD" = .ok [0xad] := by decide
  obtain ⟨-, -, -, -, hdecode, -, happend⟩ := decode_inverts_encode
  exact ⟨heven, hdigits, hdecode "De" heven hdigits, hfront, hback,
    happend "De" "aD" _ _ hfront hback⟩

/-- An odd number of octets counts before the digit that is none. -/
example : decode "0zz" = .error .oddHexLength ∧ decode "é0z" = .error .badHexDigit := by decide

end Hexadecimal
end SecureHash
