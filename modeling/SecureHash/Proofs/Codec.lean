import SecureHash.Proofs.Digits

/-!
Words and their octets, most significant first, are the same thing twice.

Both directions of every codec come down to one number: reading gives the value of the octets
and writing its digits.  From this a codec of single words has its two inverses and its order
(`orderedCodec_of_value`), and a sequence of words has one written form, of which each word
occupies four octets (`Written`).
-/

namespace SecureHash
open Standard (digits256)

namespace BigEndian

/-! ## Order -/

theorem mul_add_lt_mul_add_iff {c d x y p : Nat} (hx : x < p) (hy : y < p) :
    c * p + x < d * p + y ↔ c < d ∨ c = d ∧ x < y := by
  rcases Nat.lt_trichotomy c d with hlt | rfl | hgt
  · have hstep := Nat.mul_le_mul_right p (Nat.succ_le_of_lt hlt)
    rw [Nat.succ_mul] at hstep
    exact iff_of_true (by omega) (.inl hlt)
  · omega
  · have hstep := Nat.mul_le_mul_right p (Nat.succ_le_of_lt hgt)
    rw [Nat.succ_mul] at hstep
    exact iff_of_false (by omega) (by omega)

/-- Of as many octets, the earlier in the order of words is the less in value. -/
theorem value_lt_value_iff {a b : List UInt8} (h : a.length = b.length) :
    value a < value b ↔ a < b := by
  induction a generalizing b with
  | nil =>
    rw [List.eq_nil_of_length_eq_zero h.symm]
    exact iff_of_false (Nat.lt_irrefl _) (List.lt_irrefl _)
  | cons c a ih =>
    obtain ⟨d, b, rfl⟩ := List.exists_cons_of_length_eq_add_one h.symm
    have hlen : a.length = b.length := Nat.succ.inj h
    rw [value_cons, value_cons, hlen, mul_add_lt_mul_add_iff (hlen ▸ value_lt a) (value_lt b),
      List.cons_lt_cons_iff, ih hlen, UInt8.lt_iff_toNat_lt, UInt8.toNat_inj]

/-- Reading and writing words of `k` octets undo each other, whatever the destination held, and
words are in the order of their octets. -/
structure OrderedCodec {W : Type} [LT W] {k : Nat} (read : Vector UInt8 k → W)
    (write : W → Vector UInt8 k → Vector UInt8 k) : Prop where
  read_write : ∀ word old, read (write word old) = word
  write_read : ∀ octets old, write (read octets) old = octets
  lt_iff : ∀ v w old other, v < w ↔ (write v old).toList < (write w other).toList

theorem orderedCodec_of_value {W : Type} [LT W] {k : Nat} {read : Vector UInt8 k → W}
    {write : W → Vector UInt8 k → Vector UInt8 k} (toNat : W → Nat)
    (hinj : Function.Injective toNat) (horder : ∀ v w, v < w ↔ toNat v < toNat w)
    (hlt : ∀ w, toNat w < 256 ^ k) (hread : ∀ octets, toNat (read octets) = value octets.toList)
    (hwrite : ∀ w old, (write w old).toList = digits256 k (toNat w)) :
    OrderedCodec read write where
  read_write w old := by
    apply hinj
    rw [hread, hwrite, value_digits256, Nat.mod_eq_of_lt (hlt w)]
  write_read octets old := by
    have hdigits := digits256_value octets.toList
    rw [Vector.length_toList] at hdigits
    apply Vector.toList_inj.mp
    rw [hwrite, hread, hdigits]
  lt_iff v w old other := by
    have hlen : (digits256 k (toNat v)).length = (digits256 k (toNat w)).length := by simp
    rw [hwrite, hwrite, ← value_lt_value_iff hlen, value_digits256, value_digits256,
      Nat.mod_eq_of_lt (hlt v), Nat.mod_eq_of_lt (hlt w), horder]

theorem orderedCodec32 : OrderedCodec decode32 write32 :=
  orderedCodec_of_value UInt32.toNat (fun _ _ => UInt32.toNat_inj.mp)
    (fun _ _ => UInt32.lt_iff_toNat_lt) UInt32.toNat_lt toNat_decode32
    fun w old => by rw [write32_eq_encode32, toList_encode32]

theorem orderedCodec64 : OrderedCodec decode64 write64 :=
  orderedCodec_of_value UInt64.toNat (fun _ _ => UInt64.toNat_inj.mp)
    (fun _ _ => UInt64.lt_iff_toNat_lt) UInt64.toNat_lt toNat_decode64
    fun w old => by rw [write64_eq_encode64, toList_encode64]

/-! ## Sequences of words -/

variable {n : Nat} {words : Vector UInt32 n} {octets : Vector UInt8 (n * 4)}

/-- The octets are the digits of the words, four to each. -/
def Written (words : Vector UInt32 n) (octets : Vector UInt8 (n * 4)) : Prop :=
  octets.toList = words.toList.flatMap fun word => digits256 4 word.toNat

theorem exists_written (words : Vector UInt32 n) : ∃ octets, Written words octets := by
  have hlen : n * 4 = words.toList.length * 4 := by simp
  obtain ⟨octets, -, hoctets⟩ := BigEndian.run_encodeWords (Vector.replicate (n * 4) 0) hlen
  have hfit : (Vector.replicate (n * 4) (0 : UInt8)).toList.length = 4 * words.toList.length := by
    rw [Vector.length_toList, hlen, Nat.mul_comm]
  exact ⟨octets, by rw [Written, hoctets, writeOver_eq_flatMap hfit]⟩

theorem exists_written_of_octets (octets : Vector UInt8 (n * 4)) :
    ∃ words, Written words octets := by
  obtain ⟨words, -, hwords⟩ :=
    BigEndian.run_decodeWords (Vector.replicate n 0) octets.length_toList
  have hfit : octets.toList.length = 4 * (Vector.replicate n (0 : UInt32)).toList.length := by
    rw [Vector.length_toList, Vector.length_toList, Nat.mul_comm]
  exact ⟨words, by rw [Written, hwords, flatMap_digits256_readOver hfit]⟩

theorem Written.run_encodeWords (h : Written words octets) (old : Vector UInt8 (n * 4)) :
    (encodeWords words.toList).run old = .ok () octets := by
  have hlen : n * 4 = words.toList.length * 4 := by simp
  obtain ⟨new, hrun, hnew⟩ := BigEndian.run_encodeWords old hlen
  have hfit : old.toList.length = 4 * words.toList.length := by
    rw [Vector.length_toList, hlen, Nat.mul_comm]
  rw [writeOver_eq_flatMap hfit, ← h] at hnew
  rw [hrun, Vector.toList_inj.mp hnew]

theorem Written.run_decodeWords (h : Written words octets) (old : Vector UInt32 n) :
    (decodeWords octets.toList).run old = .ok () words := by
  obtain ⟨new, hrun, hnew⟩ := BigEndian.run_decodeWords old octets.length_toList
  have hfit : old.toList.length = words.toList.length := by
    rw [Vector.length_toList, Vector.length_toList]
  rw [h, readOver_flatMap_digits256 hfit] at hnew
  rw [hrun, Vector.toList_inj.mp hnew]

/-- The digits of the word at place `i` stand behind those of `i` words. -/
theorem take_drop_flatMap_digits256 (words : List UInt32) {i : Nat} (hi : i < words.length) :
    ((words.flatMap fun word => digits256 4 word.toNat).drop (4 * i)).take 4 =
      digits256 4 words[i].toNat := by
  have hlen : ∀ word : UInt32, (digits256 4 word.toNat).length = 4 := fun word =>
    Standard.length_digits256 4 word.toNat
  induction words generalizing i with
  | nil => exact absurd hi (Nat.not_lt_zero i)
  | cons word rest ih =>
    rw [List.flatMap_cons]
    cases i with
    | zero => rw [Nat.mul_zero, List.drop_zero, List.take_left' (hlen word)]; rfl
    | succ i =>
      have hplace : 4 * (i + 1) = (digits256 4 word.toNat).length + 4 * i := by rw [hlen]; omega
      rw [hplace, List.drop_length_add_append, ih (Nat.lt_of_succ_lt_succ hi)]
      rfl

theorem Written.toNat_get (h : Written words octets) (i : Fin n) :
    (words.get i).toNat = value ((octets.toList.drop (4 * i)).take 4) := by
  have hi : i.val < words.toList.length := by simp
  have hlt : (words.get i).toNat < 256 ^ 4 := (words.get i).toNat_lt
  rw [h, take_drop_flatMap_digits256 words.toList hi, value_digits256, Vector.getElem_toList]
  exact (Nat.mod_eq_of_lt hlt).symm

/-- Words written as octets read back as they were, and octets read as words write back as they
were, whatever the destinations held, and each word is the value of its four octets.  Where
there are not four octets to a word, both are refused with the two numbers of octets and leave
the destination as it was.  Single words of either size have the same two inverses, and are in
the order of their octets. -/
theorem codec_inverts :
    (∀ (n : Nat) (words : Vector UInt32 n), ∃ octets : Vector UInt8 (n * 4),
      (∀ old, (encodeWords words.toList).run old = .ok () octets) ∧
      (∀ old, (decodeWords octets.toList).run old = .ok () words) ∧
      ∀ i : Fin n, (words.get i).toNat = value ((octets.toList.drop (4 * i)).take 4)) ∧
    (∀ (n : Nat) (octets : Vector UInt8 (n * 4)), ∃ words : Vector UInt32 n,
      (∀ old, (decodeWords octets.toList).run old = .ok () words) ∧
      (∀ old, (encodeWords words.toList).run old = .ok () octets) ∧
      ∀ i : Fin n, (words.get i).toNat = value ((octets.toList.drop (4 * i)).take 4)) ∧
    (∀ (n : Nat) (old : Vector UInt32 n) (octets : List UInt8), octets.length ≠ n * 4 →
      (decodeWords octets).run old = .error (.unequal octets.length (n * 4)) old) ∧
    (∀ (n : Nat) (old : Vector UInt8 n) (words : List UInt32), n ≠ words.length * 4 →
      (encodeWords words).run old = .error (.unequal n (words.length * 4)) old) ∧
    (∀ left right, (Fault.unequal left right).message =
      "assertion `left == right` failed" ++
        ("\n  left: " ++ toString left ++ "\n right: " ++ toString right)) ∧
    OrderedCodec decode32 write32 ∧ OrderedCodec decode64 write64 := by
  refine ⟨fun n words => ?_, fun n octets => ?_, fun _ old _ => run_decodeWords_of_ne old,
    fun _ old _ => run_encodeWords_of_ne old, fun _ _ => rfl, orderedCodec32, orderedCodec64⟩
  · obtain ⟨octets, hwritten⟩ := exists_written words
    exact ⟨octets, hwritten.run_encodeWords, hwritten.run_decodeWords, hwritten.toNat_get⟩
  · obtain ⟨words, hwritten⟩ := exists_written_of_octets octets
    exact ⟨words, hwritten.run_decodeWords, hwritten.run_encodeWords, hwritten.toNat_get⟩

/-- Five octets for one word, and one word for five octets. -/
theorem codec_inverts_of_five_octets :
    let octets : List UInt8 := [1, 2, 3, 4, 5]
    let words : List UInt32 := [7]
    let oldWords : Vector UInt32 1 := Vector.ofFn fun _ => 9
    let oldOctets : Vector UInt8 5 := Vector.ofFn fun i => UInt8.ofNat i
    octets.length ≠ 1 * 4 ∧ (decodeWords octets).run oldWords = .error (.unequal 5 4) oldWords ∧
      5 ≠ words.length * 4 ∧
      (encodeWords words).run oldOctets = .error (.unequal 5 4) oldOctets := by
  intro octets words oldWords oldOctets
  have hoctets : octets.length ≠ 1 * 4 := by decide
  have hwords : 5 ≠ words.length * 4 := by decide
  obtain ⟨-, -, hdecode, hencode, -⟩ := codec_inverts
  exact ⟨hoctets, hdecode 1 oldWords octets hoctets, hwords, hencode 5 oldOctets words hwords⟩

end BigEndian
end SecureHash
