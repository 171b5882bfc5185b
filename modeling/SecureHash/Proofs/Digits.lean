import SecureHash.Standard.Message

/-!
Octets and words as digits of base 256.

Words travel through shifts and masks, and the standard speaks of the value of octets and
of digits of a number.  Both meet in `BigEndian.value`: decoding is the value
(`toNat_decode32`), and encoding gives the digits (`toList_encode32`, `toList_encode64`).
-/

namespace SecureHash
open Standard (digits256 wordOf)

namespace Standard

@[simp] theorem length_digits256 (width n : Nat) : (digits256 width n).length = width := by
  rw [digits256, List.length_map, List.length_range]

/-- Places of base 256 beyond the width do not show. -/
theorem digits256_mod (width n : Nat) : digits256 width (n % 256 ^ width) = digits256 width n := by
  apply List.map_congr_left
  intro i hi
  have hlt : i < width := List.mem_range.mp hi
  apply UInt8.toNat_inj.mp
  rw [UInt8.toNat_ofNat', UInt8.toNat_ofNat']
  have hw : 256 ^ width = 256 ^ (width - 1 - i) * (256 * 256 ^ i) := by
    rw [← Nat.pow_succ', ← Nat.pow_add]
    congr 1
    omega
  rw [hw, Nat.mod_mul_right_div_self]
  exact Nat.mod_mul_right_mod _ _ _

theorem digits256_succ (width n : Nat) :
    digits256 (width + 1) n = UInt8.ofNat (n / 256 ^ width) :: digits256 width n := by
  rw [digits256, List.range_succ_eq_map, List.map_cons, List.map_map, digits256]
  congr 1
  apply List.map_congr_left
  intro i hi
  have hlt : i < width := List.mem_range.mp hi
  have hplace : width + 1 - 1 - (i + 1) = width - 1 - i := by omega
  simp only [Function.comp_apply, hplace]

end Standard

namespace BigEndian

theorem foldl_value (octets : List UInt8) (n : Nat) :
    octets.foldl (fun n b => 256 * n + b.toNat) n = n * 256 ^ octets.length + value octets := by
  induction octets generalizing n with
  | nil => simp [value]
  | cons b rest ih =>
    rw [value, List.foldl_cons, List.foldl_cons, ih, ih (256 * 0 + b.toNat), List.length_cons]
    ring

theorem value_cons (b : UInt8) (rest : List UInt8) :
    value (b :: rest) = b.toNat * 256 ^ rest.length + value rest := by
  rw [value, List.foldl_cons, foldl_value, Nat.mul_zero, Nat.zero_add]

@[simp] theorem value_digits256 (width n : Nat) : value (digits256 width n) = n % 256 ^ width := by
  induction width with
  | zero => rw [Nat.pow_zero, Nat.mod_one]; rfl
  | succ width ih =>
    have hsplit : n % 256 ^ (width + 1) =
        n % 256 ^ width + 256 ^ width * (n / 256 ^ width % 256) := Nat.mod_mul
    rw [Standard.digits256_succ, value_cons, ih, Standard.length_digits256, UInt8.toNat_ofNat',
      hsplit]
    ring

theorem value_lt (octets : List UInt8) : value octets < 256 ^ octets.length := by
  induction octets with
  | nil => exact Nat.one_pos
  | cons b rest ih =>
    have hb : b.toNat + 1 ≤ 256 := b.toNat_lt
    have hroom := Nat.mul_le_mul_right (256 ^ rest.length) hb
    rw [value_cons, List.length_cons, Nat.pow_succ']
    rw [Nat.add_mul, Nat.one_mul] at hroom
    omega

/-- Octets are the digits of their value. -/
theorem digits256_value (octets : List UInt8) :
    digits256 octets.length (value octets) = octets := by
  induction octets with
  | nil => rfl
  | cons b rest ih =>
    have hpos : 0 < 256 ^ rest.length := Nat.pow_pos (by decide)
    have hhigh : (b.toNat * 256 ^ rest.length + value rest) / 256 ^ rest.length = b.toNat := by
      rw [Nat.mul_comm, Nat.mul_add_div hpos, Nat.div_eq_of_lt (value_lt rest), Nat.add_zero]
    have hlow : (b.toNat * 256 ^ rest.length + value rest) % 256 ^ rest.length = value rest := by
      rw [Nat.mul_comm, Nat.mul_add_mod, Nat.mod_eq_of_lt (value_lt rest)]
    rw [List.length_cons, value_cons, Standard.digits256_succ, hhigh,
      ← Standard.digits256_mod rest.length, hlow, ih, UInt8.ofNat_toNat]

/-- A number moved up by an octet, with the octet in the gap. -/
theorem shiftLeft_mod_or {n size : Nat} (b : UInt8) (h : 256 * (n + 1) ≤ size) :
    n <<< 8 % size ||| b.toNat = 256 * n + b.toNat := by
  have hb : b.toNat < 2 ^ 8 := b.toNat_lt
  have hshift : n <<< 8 = 256 * n := by rw [Nat.shiftLeft_eq, Nat.mul_comm]
  rw [Nat.mod_eq_of_lt (by omega), ← Nat.shiftLeft_add_eq_or_of_lt hb, hshift]

/-- Reading octets into a word is reading them into a number, as long as the word has
room for all of them. -/
theorem toNat_foldl_push {W : Type} (toNat : W → Nat) (push : W → UInt8 → W) {size : Nat}
    (hpush : ∀ w b, 256 * (toNat w + 1) ≤ size → toNat (push w b) = 256 * toNat w + b.toNat)
    (octets : List UInt8) (word : W) (h : (toNat word + 1) * 256 ^ octets.length ≤ size) :
    toNat (octets.foldl push word) =
      octets.foldl (fun n b => 256 * n + b.toNat) (toNat word) := by
  induction octets generalizing word with
  | nil => rfl
  | cons b rest ih =>
    rw [List.length_cons, Nat.pow_succ] at h
    have hb : b.toNat < 256 := b.toNat_lt
    have hpos : 1 ≤ 256 ^ rest.length :=
      Nat.one_le_two_pow.trans (Nat.pow_le_pow_left (by decide) _)
    have hstep := hpush word b (by nlinarith)
    rw [List.foldl_cons, List.foldl_cons, ih, hstep]
    rw [hstep]
    nlinarith

theorem toNat_decode32 (octets : Vector UInt8 4) :
    (decode32 octets).toNat = value octets.toList := by
  have hpush : ∀ (w : UInt32) (b : UInt8), 256 * (w.toNat + 1) ≤ 2 ^ 32 →
      ((w <<< 8) ||| b.toUInt32).toNat = 256 * w.toNat + b.toNat := fun w b h => by
    rw [UInt32.toNat_or, UInt32.toNat_shiftLeft, UInt8.toNat_toUInt32]
    exact shiftLeft_mod_or b h
  rw [decode32, ← Vector.foldl_toList, toNat_foldl_push UInt32.toNat _ hpush]
  · rfl
  · rw [Vector.length_toList]; decide

theorem toNat_decode64 (octets : Vector UInt8 8) :
    (decode64 octets).toNat = value octets.toList := by
  have hpush : ∀ (w : UInt64) (b : UInt8), 256 * (w.toNat + 1) ≤ 2 ^ 64 →
      ((w <<< 8) ||| b.toUInt64).toNat = 256 * w.toNat + b.toNat := fun w b h => by
    rw [UInt64.toNat_or, UInt64.toNat_shiftLeft, UInt8.toNat_toUInt64]
    exact shiftLeft_mod_or b h
  rw [decode64, ← Vector.foldl_toList, toNat_foldl_push UInt64.toNat _ hpush]
  · rfl
  · rw [Vector.length_toList]; decide

theorem decode32_eq_wordOf (a b c d : UInt8) : decode32 #v[a, b, c, d] = wordOf a b c d := by
  apply UInt32.toNat_inj.mp
  have ha : a.toNat < 256 := a.toNat_lt
  have hb : b.toNat < 256 := b.toNat_lt
  have hc : c.toNat < 256 := c.toNat_lt
  have hd : d.toNat < 256 := d.toNat_lt
  rw [toNat_decode32, wordOf, UInt32.toNat_ofNat_of_lt' (by show _ < 2 ^ 32; omega)]
  show 256 * (256 * (256 * (256 * 0 + a.toNat) + b.toNat) + c.toNat) + d.toNat = _
  omega

/-- Octets cut out of a number by their places are its digits. -/
theorem toList_eq_digits256 {k n : Nat} {octets : Vector UInt8 k}
    (h : ∀ (i : Nat) (hi : i < k), octets[i].toNat = (n >>> (8 * (k - 1 - i))) % 256) :
    octets.toList = digits256 k n := by
  apply List.ext_getElem
  · simp
  · intro i hi _
    have hk : i < k := by simpa using hi
    have hpow : 256 ^ (k - 1 - i) = 2 ^ (8 * (k - 1 - i)) := by rw [Nat.pow_mul]
    apply UInt8.toNat_inj.mp
    rw [Vector.getElem_toList, h i hk, Nat.shiftRight_eq_div_pow]
    simp only [digits256, List.getElem_map, List.getElem_range, UInt8.toNat_ofNat', hpow]

theorem toList_encode32 (word : UInt32) : (encode32 word).toList = digits256 4 word.toNat := by
  apply toList_eq_digits256
  intro i hi
  have hshift : 8 * (3 - i) % 2 ^ 32 % 32 = 8 * (3 - i) := by omega
  simp only [encode32, write32, Vector.getElem_mapFinIdx, UInt32.toNat_toUInt8,
    UInt32.toNat_shiftRight, UInt32.toNat_ofNat', hshift]

theorem toList_encode64 (word : UInt64) : (encode64 word).toList = digits256 8 word.toNat := by
  apply toList_eq_digits256
  intro i hi
  have hshift : 8 * (7 - i) % 2 ^ 64 % 64 = 8 * (7 - i) := by omega
  simp only [encode64, write64, Vector.getElem_mapFinIdx, UInt64.toNat_toUInt8,
    UInt64.toNat_shiftRight, UInt64.toNat_ofNat', hshift]

/-! ## Sequences of words -/

theorem exists_four_octets {octets : List UInt8} (h : 4 ≤ octets.length) :
    ∃ a b c d rest, octets = a :: b :: c :: d :: rest := by
  match octets, h with
  | a :: b :: c :: d :: rest, _ => exact ⟨a, b, c, d, rest, rfl⟩

theorem getElem?_readOver {words : List UInt32} {octets : List UInt8}
    (h : octets.length = 4 * words.length) {t : Nat} (ht : t < words.length) :
    (readOver words octets)[t]? = some (wordOf (octets.getD (4 * t) 0) (octets.getD (4 * t + 1) 0)
      (octets.getD (4 * t + 2) 0) (octets.getD (4 * t + 3) 0)) := by
  induction words generalizing octets t with
  | nil => exact absurd ht (Nat.not_lt_zero t)
  | cons word words ih =>
    rw [List.length_cons] at h ht
    obtain ⟨a, b, c, d, rest, rfl⟩ := exists_four_octets (show 4 ≤ octets.length by omega)
    simp only [List.length_cons] at h
    rw [readOver]
    cases t with
    | zero => rw [decode32_eq_wordOf]; rfl
    | succ t =>
      rw [List.getElem?_cons_succ, ih (by omega) (by omega)]
      rfl

theorem writeOver_eq_flatMap {octets : List UInt8} {words : List UInt32}
    (h : octets.length = 4 * words.length) :
    writeOver octets words = words.flatMap fun word => digits256 4 word.toNat := by
  induction words generalizing octets with
  | nil =>
    rw [List.eq_nil_of_length_eq_zero h]
    rfl
  | cons word words ih =>
    rw [List.length_cons] at h
    obtain ⟨a, b, c, d, rest, rfl⟩ := exists_four_octets (show 4 ≤ octets.length by omega)
    simp only [List.length_cons] at h
    rw [writeOver, write32_eq_encode32, toList_encode32, ih (by omega), List.flatMap_cons]

/-- Reading a word back from its digits. -/
theorem decode32_of_digits {octets : Vector UInt8 4} {word : UInt32}
    (h : octets.toList = digits256 4 word.toNat) : decode32 octets = word := by
  have hlt : word.toNat < 256 ^ 4 := word.toNat_lt
  apply UInt32.toNat_inj.mp
  rw [toNat_decode32, h, value_digits256, Nat.mod_eq_of_lt hlt]

/-- Reading undoes writing, whatever the destination held. -/
theorem readOver_flatMap_digits256 {old words : List UInt32} (h : old.length = words.length) :
    readOver old (words.flatMap fun word => digits256 4 word.toNat) = words := by
  induction words generalizing old with
  | nil =>
    rw [List.eq_nil_of_length_eq_zero h]
    rfl
  | cons word words ih =>
    obtain ⟨first, rest, rfl⟩ := List.exists_cons_of_length_eq_add_one h
    have hrest : rest.length = words.length := Nat.succ.inj h
    have hlen := Standard.length_digits256 4 word.toNat
    obtain ⟨a, b, c, d, others, hdigits⟩ := exists_four_octets hlen.ge
    have hnone : others = [] := by
      rw [hdigits] at hlen
      simp only [List.length_cons] at hlen
      exact List.eq_nil_of_length_eq_zero (by omega)
    rw [hnone] at hdigits
    have hword : decode32 #v[a, b, c, d] = word := decode32_of_digits hdigits.symm
    rw [List.flatMap_cons, hdigits]
    simp only [List.cons_append, List.nil_append, readOver]
    rw [hword, ih hrest]

/-- The digits of a word that was read are the octets it was read from. -/
theorem digits256_decode32 (octets : Vector UInt8 4) :
    digits256 4 (decode32 octets).toNat = octets.toList := by
  have hdigits := digits256_value octets.toList
  rwa [Vector.length_toList, ← toNat_decode32] at hdigits

/-- Writing undoes reading, whatever the words were before. -/
theorem flatMap_digits256_readOver {old : List UInt32} {octets : List UInt8}
    (h : octets.length = 4 * old.length) :
    ((readOver old octets).flatMap fun word => digits256 4 word.toNat) = octets := by
  induction old generalizing octets with
  | nil =>
    rw [List.eq_nil_of_length_eq_zero h]
    rfl
  | cons word old ih =>
    rw [List.length_cons] at h
    obtain ⟨a, b, c, d, rest, rfl⟩ := exists_four_octets (show 4 ≤ octets.length by omega)
    simp only [List.length_cons] at h
    rw [readOver, List.flatMap_cons, digits256_decode32, ih (by omega)]
    rfl

end BigEndian

namespace Standard

/-- The octets of chaining words lose nothing. -/
theorem octetsOf_injective : Function.Injective octetsOf := by
  intro s t h
  have hread : ∀ state : ChainState,
      BigEndian.readOver ChainState.zero.toList (octetsOf state) = state.toList := fun state =>
    BigEndian.readOver_flatMap_digits256 (by simp)
  apply Vector.toList_inj.mp
  rw [← hread s, h, hread t]

end Standard
end SecureHash
