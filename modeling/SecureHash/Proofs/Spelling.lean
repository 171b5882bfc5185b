import SecureHash.Proofs.HexDigits

/-!
Octets spelled out as a text.

Readers work on the octets of a text and a writer gives its characters, so the two meet where
an octet is a whole character: every digit is ASCII, and no octet of a character outside ASCII
is a digit (`forall₂_textOctets`).  A text then spells octets, in whatever mixture of cases,
exactly if its lower case is what the writer gives for them (`spelling_textOctets_iff`).
-/

namespace SecureHash

/-! ## The octets of a text -/

theorem textOctets_eq_flatMap (text : String) :
    textOctets text = text.toList.flatMap String.utf8EncodeChar := by
  rw [textOctets, String.toUTF8_eq_toByteArray, ← String.utf8Encode_toList, List.utf8Encode,
    List.toList_data_toByteArray]

theorem utf8EncodeChar_of_ascii {c : Char} (hc : c.toNat < 128) :
    String.utf8EncodeChar c = [c.toUInt8] := by
  have hle : c.val.toNat ≤ 0x7f := Nat.le_of_lt_succ hc
  rw [String.utf8EncodeChar, if_pos hle]
  rfl

/-- No octet of a character outside ASCII is an ASCII character. -/
theorem le_toNat_of_mem_utf8EncodeChar {c : Char} (hc : 128 ≤ c.toNat) {b : UInt8}
    (hb : b ∈ String.utf8EncodeChar c) : 128 ≤ b.toNat := by
  have hgt : ¬ c.val.toNat ≤ 0x7f := Nat.not_le_of_lt hc
  rw [String.utf8EncodeChar, if_neg hgt] at hb
  -- Two, three or four octets, and each carries a mark of at least `0x80`.
  split_ifs at hb <;> simp only [List.mem_cons, List.not_mem_nil, or_false] at hb <;>
    rcases hb with rfl | rfl | rfl | rfl <;> rw [UInt8.toNat_ofNat'] <;> omega

/-! ## Digits as characters -/

theorem toNat_toLower (c : Char) :
    c.toLower.toNat = if 65 ≤ c.toNat ∧ c.toNat ≤ 90 then c.toNat + 32 else c.toNat := by
  have hupper : c.val ≥ 'A'.val ∧ c.val ≤ 'Z'.val ↔ 65 ≤ c.toNat ∧ c.toNat ≤ 90 := by
    rw [ge_iff_le, UInt32.le_iff_toNat_le, UInt32.le_iff_toNat_le]
    rfl
  by_cases h : 65 ≤ c.toNat ∧ c.toNat ≤ 90
  · rw [Char.toLower, dif_pos (hupper.mpr h), if_pos h, Char.toNat_mk, UInt32.toNat_add]
    show (c.toNat + 32) % 2 ^ 32 = _
    omega
  · rw [Char.toLower, dif_neg (mt hupper.mp h), if_neg h]

namespace Hexadecimal

theorem toNat_digit {v : Nat} (hv : v < 16) :
    (digit v).toNat = if v < 10 then 48 + v else 97 + (v - 10) := by
  have hvalid : ∀ n < 0xd800, (Char.ofNat n).toNat = n := fun n hn => by
    rw [Char.toNat_ofNat, if_pos (.inl hn)]
  rw [digit]
  split_ifs
  · exact hvalid (48 + v) (by omega)
  · exact hvalid (97 + (v - 10)) (by omega)

/-- The character `c` is the digit `v`, in either case. -/
def IsDigitChar (c : Char) (v : Nat) : Prop := v < 16 ∧ c.toLower = digit v

theorem isDigitChar_iff {c : Char} {v : Nat} :
    IsDigitChar c v ↔ v < 10 ∧ c.toNat = 48 + v ∨
      10 ≤ v ∧ v < 16 ∧ (c.toNat = 97 + (v - 10) ∨ c.toNat = 65 + (v - 10)) := by
  have hlower := toNat_toLower c
  by_cases hv : v < 16
  · rw [IsDigitChar, ← Char.toNat_inj, toNat_digit hv]
    split_ifs at * <;> omega
  · exact iff_of_false (fun h => hv h.1) (by omega)

theorem isHexDigit_toUInt8_iff {c : Char} (hc : c.toNat < 256) {v : Nat} :
    IsHexDigit c.toUInt8 v ↔ IsDigitChar c v := by
  have hoctet : c.toUInt8.toNat = c.toNat := Nat.mod_eq_of_lt hc
  rw [isHexDigit_iff, hoctet, isDigitChar_iff]

/-- A text is digits octet by octet exactly if it is the same digits character by character. -/
theorem forall₂_textOctets {text : String} {vs : List Nat} :
    List.Forall₂ IsHexDigit (textOctets text) vs ↔ List.Forall₂ IsDigitChar text.toList vs := by
  rw [textOctets_eq_flatMap]
  induction text.toList generalizing vs with
  | nil => rw [List.flatMap_nil, List.forall₂_nil_left_iff, List.forall₂_nil_left_iff]
  | cons c rest ih =>
    rw [List.flatMap_cons]
    by_cases hc : c.toNat < 128
    · rw [utf8EncodeChar_of_ascii hc, List.singleton_append, List.forall₂_cons_left_iff,
        List.forall₂_cons_left_iff]
      simp only [ih, isHexDigit_toUInt8_iff (hc.trans (by decide : 128 < 256))]
    · -- Neither the character nor the first of its octets is a digit.
      obtain ⟨b, more, hb⟩ := List.exists_cons_of_ne_nil (String.utf8EncodeChar_ne_nil (c := c))
      have hbig := le_toNat_of_mem_utf8EncodeChar (Nat.le_of_not_lt hc) (hb ▸ List.mem_cons_self)
      rw [hb, List.cons_append, List.forall₂_cons_left_iff, List.forall₂_cons_left_iff]
      simp only [isHexDigit_iff, isDigitChar_iff]
      constructor
      · rintro ⟨v, _, hv, -, -⟩
        omega
      · rintro ⟨v, _, hv, -, -⟩
        omega

/-! ## The digits of octets -/

/-- The digits of octets, of each octet the high one first. -/
def nibbles (octets : List UInt8) : List Nat := octets.flatMap fun b => [b.toNat / 16, b.toNat % 16]

theorem nibbles_cons (b : UInt8) (octets : List UInt8) :
    nibbles (b :: octets) = b.toNat / 16 :: b.toNat % 16 :: nibbles octets := rfl

@[simp] theorem length_nibbles (octets : List UInt8) :
    (nibbles octets).length = 2 * octets.length := by
  induction octets with
  | nil => rfl
  | cons b rest ih =>
    rw [nibbles_cons, List.length_cons, List.length_cons, List.length_cons, ih]
    omega

theorem lt_of_mem_nibbles {octets : List UInt8} {v : Nat} (h : v ∈ nibbles octets) : v < 16 := by
  obtain ⟨b, -, hv⟩ := List.mem_flatMap.mp h
  have hb := b.toNat_lt
  simp only [List.mem_cons, List.not_mem_nil, or_false] at hv
  omega

theorem nibbles_injective : Function.Injective nibbles := by
  intro octets others h
  induction octets generalizing others with
  | nil =>
    cases others with
    | nil => rfl
    | cons c others => simp [nibbles] at h
  | cons b octets ih =>
    cases others with
    | nil => simp [nibbles] at h
    | cons c others =>
      simp only [nibbles_cons, List.cons.injEq] at h
      have hb : b.toNat = c.toNat := by omega
      rw [UInt8.toNat_inj.mp hb, ih h.2.2]

/-- The digits of the octet at a place stand at twice the place and behind it. -/
theorem getElem?_nibbles (octets : List UInt8) (i : Nat) :
    (nibbles octets)[2 * i]? = octets[i]?.map (fun b => b.toNat / 16) ∧
      (nibbles octets)[2 * i + 1]? = octets[i]?.map (fun b => b.toNat % 16) := by
  induction octets generalizing i with
  | nil => simp [nibbles]
  | cons b rest ih =>
    cases i with
    | zero => exact ⟨rfl, rfl⟩
    | succ i => exact ih i

theorem encode_eq (octets : List UInt8) :
    encode octets = String.ofList ((nibbles octets).map digit) := by
  rw [encode, nibbles, List.map_flatMap]
  rfl

theorem toList_encode (octets : List UInt8) :
    (encode octets).toList = (nibbles octets).map digit := by
  rw [encode_eq, String.toList_ofList]

@[simp] theorem length_encode (octets : List UInt8) :
    (encode octets).length = 2 * octets.length := by
  rw [← String.length_toList, toList_encode, List.length_map, length_nibbles]

theorem encode_append (front back : List UInt8) :
    encode (front ++ back) = encode front ++ encode back := by
  rw [encode, encode, encode, List.flatMap_append, String.ofList_append]

theorem toLower_encode (octets : List UInt8) : (encode octets).toLower = encode octets := by
  have hdigit : ∀ v < 16, (digit v).toLower = digit v := by decide
  rw [← String.toList_inj, String.toLower, String.toList_map, toList_encode, List.map_map]
  exact List.map_congr_left fun v hv => hdigit v (lt_of_mem_nibbles hv)

theorem toLower_toUpper_encode (octets : List UInt8) :
    (encode octets).toUpper.toLower = encode octets := by
  have hdigit : ∀ v < 16, (digit v).toUpper.toLower = digit v := by decide
  rw [← String.toList_inj, String.toLower, String.toUpper, String.toList_map, String.toList_map,
    toList_encode, List.map_map, List.map_map]
  exact List.map_congr_left fun v hv => hdigit v (lt_of_mem_nibbles hv)

/-! ## Spelling -/

/-- The octets `text` are the digits of `octets`, each in either case. -/
def Spelling (text octets : List UInt8) : Prop := List.Forall₂ IsHexDigit text (nibbles octets)

theorem Spelling.cons {high low b : UInt8} {v w : Nat} {text octets : List UInt8}
    (hhigh : IsHexDigit high v) (hlow : IsHexDigit low w) (hb : b.toNat = 16 * v + w)
    (h : Spelling text octets) : Spelling (high :: low :: text) (b :: octets) := by
  have hlt := hlow.lt
  rw [Spelling, nibbles_cons, show b.toNat / 16 = v by omega, show b.toNat % 16 = w by omega]
  exact .cons hhigh (.cons hlow h)

theorem Spelling.length_eq {text octets : List UInt8} (h : Spelling text octets) :
    text.length = 2 * octets.length := by
  rw [← length_nibbles]
  exact List.Forall₂.length_eq h

theorem Spelling.unique {text octets others : List UInt8} (h : Spelling text octets)
    (hother : Spelling text others) : octets = others := by
  have hright : Relator.RightUnique IsHexDigit := fun _ _ _ => IsHexDigit.unique
  exact nibbles_injective (List.right_unique_forall₂' hright h hother)

theorem Spelling.exists_digit {text octets : List UInt8} (h : Spelling text octets) {c : UInt8}
    (hc : c ∈ text) : ∃ v, IsHexDigit c v := by
  obtain ⟨i, hi, rfl⟩ := List.mem_iff_getElem.mp hc
  obtain ⟨hlen, hdigit⟩ := List.forall₂_iff_get.mp h
  exact ⟨_, hdigit i hi (hlen ▸ hi)⟩

/-- A text spells octets exactly if writing them gives the text in lower case. -/
theorem spelling_textOctets_iff {text : String} {octets : List UInt8} :
    Spelling (textOctets text) octets ↔ encode octets = text.toLower := by
  have hdigits : List.Forall₂ IsDigitChar text.toList (nibbles octets) ↔
      List.Forall₂ (fun c v => c.toLower = digit v) text.toList (nibbles octets) := by
    rw [List.forall₂_iff_zip, List.forall₂_iff_zip]
    refine and_congr_right fun _ => ⟨fun h _ _ hmem => (h hmem).2, fun h _ _ hmem => ?_⟩
    exact ⟨lt_of_mem_nibbles (List.of_mem_zip hmem).2, h hmem⟩
  have hmap : List.Forall₂ (fun c v => c.toLower = digit v) text.toList (nibbles octets) ↔
      text.toList.map Char.toLower = (nibbles octets).map digit := by
    rw [← List.forall₂_eq_eq_eq, List.forall₂_map_left_iff, List.forall₂_map_right_iff]
  rw [Spelling, forall₂_textOctets, hdigits, hmap, ← String.toList_inj, toList_encode,
    String.toLower, String.toList_map, eq_comm]

end Hexadecimal
end SecureHash
