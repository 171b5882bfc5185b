import SecureHash.Proofs.HexDigits
import SecureHash.Proofs.Runs

/-!
What becomes of a text that is read as a digest.

A text is wrong in its length, or at some place, or it spells a digest (`Reads`).  Octets are
built one by one, and the first that cannot be ends the reading with its cause, so the place
that is named is the least at which no digit stands.
-/

namespace SecureHash

/-! ## Building a vector in order -/

section OfFnM

variable {ε α : Type}

theorem eq_ok_of_ofFnM {n : Nat} {f : Fin n → Except ε α} {v : Vector α n}
    (h : Vector.ofFnM f = .ok v) (i : Fin n) : f i = .ok v[i] := by
  induction n with
  | zero => exact i.elim0
  | succ n ih =>
    rw [Vector.ofFnM_succ, bind_eq_ok_iff] at h
    obtain ⟨front, hfront, h⟩ := h
    obtain ⟨a, hlast, h⟩ := bind_eq_ok_iff.mp h
    obtain rfl := Except.ok.inj h
    cases i using Fin.lastCases with
    | last => simpa using hlast
    | cast i => simpa [Vector.getElem_push_lt] using ih hfront i

/-- The first place that fails is the cause. -/
theorem exists_error_of_ofFnM {n : Nat} {f : Fin n → Except ε α} {e : ε}
    (h : Vector.ofFnM f = .error e) : ∃ i, f i = .error e ∧ ∀ j < i, ∃ a, f j = .ok a := by
  induction n with
  | zero =>
    rw [Vector.ofFnM_zero] at h
    cases h
  | succ n ih =>
    rw [Vector.ofFnM_succ, bind_eq_error_iff] at h
    obtain h | ⟨front, hfront, h⟩ := h
    · obtain ⟨i, hi, hbefore⟩ := ih h
      refine ⟨i.castSucc, hi, fun j hj => ?_⟩
      exact hbefore (j.castLT (Nat.lt_trans hj i.isLt)) hj
    · obtain h | ⟨a, -, h⟩ := bind_eq_error_iff.mp h
      · exact ⟨Fin.last n, h, fun j hj => ⟨_, eq_ok_of_ofFnM hfront (j.castLT hj)⟩⟩
      · cases h

end OfFnM

namespace Digest

/-- The digit `v` stands at place `p` of the octets `s`. -/
def HexDigitAt (s : List UInt8) (p v : Nat) : Prop := ∃ c, s[p]? = some c ∧ IsHexDigit c v

/-- There is an octet at place `p`, and it is no digit. -/
def BadAt (s : List UInt8) (p : Nat) : Prop := p < s.length ∧ ∀ v, ¬ HexDigitAt s p v

/-- The digits at places `2 * i` and `2 * i + 1` spell the octet `b`. -/
def Spells (s : List UInt8) (i : Nat) (b : UInt8) : Prop :=
  ∃ high low, HexDigitAt s (2 * i) high ∧ HexDigitAt s (2 * i + 1) low ∧
    b.toNat = 16 * high + low

/-- What octets read as.  A wrong length counts before a wrong digit, and of wrong digits the
first. -/
inductive Reads (s : List UInt8) : Except ParseError Digest → Prop
  | wrongLength (h : s.length ≠ 64) : Reads s (.error (.invalidLength 64 s.length))
  | badDigit {p : Nat} (h : s.length = 64) (hp : IsLeast {q | BadAt s q} p) :
    Reads s (.error (.invalidHex p))
  | digest {d : Digest} (h : s.length = 64) (hd : ∀ i : Fin 32, Spells s i d.octets[i]) :
    Reads s (.ok d)

theorem HexDigitAt.lt {s : List UInt8} {p v : Nat} (h : HexDigitAt s p v) : v < 16 := by
  obtain ⟨c, -, hdigit⟩ := h
  exact hdigit.lt

theorem HexDigitAt.unique {s : List UInt8} {p v w : Nat} (hv : HexDigitAt s p v)
    (hw : HexDigitAt s p w) : v = w := by
  obtain ⟨c, hc, hv⟩ := hv
  obtain ⟨d, hd, hw⟩ := hw
  obtain rfl : c = d := Option.some.inj (hc.symm.trans hd)
  exact hv.unique hw

theorem Spells.unique {s : List UInt8} {i : Nat} {b c : UInt8} (hb : Spells s i b)
    (hc : Spells s i c) : b = c := by
  obtain ⟨high, low, hhigh, hlow, hb⟩ := hb
  obtain ⟨high', low', hhigh', hlow', hc⟩ := hc
  rw [← hhigh.unique hhigh', ← hlow.unique hlow', ← hb] at hc
  exact UInt8.toNat_inj.mp hc.symm

/-- Where an octet is spelled, neither digit is wrong. -/
theorem Spells.not_badAt {s : List UInt8} {p : Nat} {b : UInt8} (h : Spells s (p / 2) b) :
    ¬ BadAt s p := by
  rintro ⟨-, hbad⟩
  obtain ⟨high, low, hhigh, hlow, -⟩ := h
  obtain heven | hodd := Nat.mod_two_eq_zero_or_one p
  · exact hbad high (by rwa [show p = 2 * (p / 2) by omega])
  · exact hbad low (by rwa [show p = 2 * (p / 2) + 1 by omega])

theorem not_badAt_of_spells {s : List UInt8} (hs : s.length = 64) {d : Digest}
    (hd : ∀ i : Fin 32, Spells s i d.octets[i]) (p : Nat) : ¬ BadAt s p := by
  intro hbad
  have hp := hbad.1
  exact (hd ⟨p / 2, by omega⟩).not_badAt hbad

/-- Octets read as one thing only. -/
theorem Reads.unique {s : List UInt8} {result other : Except ParseError Digest}
    (h : Reads s result) (hother : Reads s other) : result = other := by
  cases h with
  | wrongLength h =>
    cases hother with
    | wrongLength => rfl
    | badDigit h' => exact absurd h' h
    | digest h' => exact absurd h' h
  | badDigit h hp =>
    cases hother with
    | wrongLength h' => exact absurd h h'
    | badDigit _ hq => rw [hp.unique hq]
    | digest _ hd => exact absurd hp.1 (not_badAt_of_spells h hd _)
  | @digest d h hd =>
    cases hother with
    | wrongLength h' => exact absurd h h'
    | badDigit _ hq => exact absurd hq.1 (not_badAt_of_spells h hd _)
    | @digest d' _ hd' =>
      have hoctets : d.octets = d'.octets :=
        Vector.ext fun i hi => (hd ⟨i, hi⟩).unique (hd' ⟨i, hi⟩)
      exact congrArg (fun octets => Except.ok (Digest.mk octets)) hoctets

/-! ## Reading -/

theorem digitAt_eq_ok_iff {p : Nat} {c b : UInt8} :
    digitAt p c = .ok b ↔ IsHexDigit c b.toNat := by
  rw [← digitValue?_eq_some_iff, digitAt]
  cases digitValue? c <;> simp

theorem digitAt_eq_error_iff {p : Nat} {c : UInt8} {e : ParseError} :
    digitAt p c = .error e ↔ .invalidHex p = e ∧ ∀ v, ¬ IsHexDigit c v := by
  rw [← digitValue?_eq_none_iff, digitAt]
  cases digitValue? c <;> simp

section Octets

variable (text : Vector UInt8 64) (i : Fin 32) {p : Nat}

theorem hexDigitAt_toList (hp : p < 64) {v : Nat} :
    HexDigitAt text.toList p v ↔ IsHexDigit text[p] v := by
  have hc : text.toList[p]? = some text[p] := by simp
  simp [HexDigitAt, hc]

theorem badAt_toList (hp : p < 64) :
    BadAt text.toList p ↔ ∀ v, ¬ IsHexDigit text[p] v := by
  simp only [BadAt, Vector.length_toList, hp, true_and, hexDigitAt_toList]

variable {text i}

theorem spells_of_octetAt {b : UInt8} (h : octetAt text i = .ok b) : Spells text.toList i b := by
  rw [octetAt, bind_eq_ok_iff] at h
  obtain ⟨high, hhigh, h⟩ := h
  obtain ⟨low, hlow, h⟩ := bind_eq_ok_iff.mp h
  obtain rfl := Except.ok.inj h
  rw [digitAt_eq_ok_iff] at hhigh hlow
  exact ⟨_, _, (hexDigitAt_toList text (by omega)).mpr hhigh,
    (hexDigitAt_toList text (by omega)).mpr hlow, toNat_shiftLeft_or hhigh.lt hlow.lt⟩

/-- The high digit is looked at before the low one. -/
theorem badAt_of_octetAt {e : ParseError} (h : octetAt text i = .error e) :
    ∃ p, e = .invalidHex p ∧ BadAt text.toList p ∧ p / 2 = i.val ∧
      ∀ q < p, q / 2 = i.val → ¬ BadAt text.toList q := by
  rw [octetAt, bind_eq_error_iff] at h
  obtain h | ⟨high, hhigh, h⟩ := h
  · obtain ⟨rfl, hbad⟩ := digitAt_eq_error_iff.mp h
    exact ⟨2 * i.val, rfl, (badAt_toList text (by omega)).mpr hbad, by omega,
      fun q hq hplace => by omega⟩
  · obtain h | ⟨low, -, h⟩ := bind_eq_error_iff.mp h
    · obtain ⟨rfl, hbad⟩ := digitAt_eq_error_iff.mp h
      refine ⟨2 * i.val + 1, rfl, (badAt_toList text (by omega)).mpr hbad, by omega, ?_⟩
      intro q hq hplace
      obtain rfl : q = 2 * i.val := by omega
      rw [badAt_toList text (by omega)]
      exact fun hnone => hnone _ (digitAt_eq_ok_iff.mp hhigh)
    · cases h

end Octets

theorem ofHex_of_length {text : String} (h : (textOctets text).length = 64) :
    ofHex text = (do return ⟨← Vector.ofFnM (octetAt ⟨(textOctets text).toArray, h⟩)⟩) :=
  dif_pos h

theorem reads_ofHex (text : String) : Reads (textOctets text) (ofHex text) := by
  by_cases hlength : (textOctets text).length = 64
  · rw [ofHex_of_length hlength]
    cases hoctets : Vector.ofFnM (octetAt ⟨(textOctets text).toArray, hlength⟩) with
    | ok octets => exact .digest hlength fun i => spells_of_octetAt (eq_ok_of_ofFnM hoctets i)
    | error e =>
      obtain ⟨i, hi, hbefore⟩ := exists_error_of_ofFnM hoctets
      obtain ⟨p, rfl, hbad, hplace, hfirst⟩ := badAt_of_octetAt hi
      refine .badDigit hlength ⟨hbad, fun q hq => ?_⟩
      by_contra hlt
      -- A place before `p` belongs to the same octet, or to one that was built already.
      by_cases hsame : q / 2 = i.val
      · exact hfirst q (by omega) hsame hq
      · obtain ⟨b, hb⟩ := hbefore ⟨q / 2, by omega⟩ (Fin.mk_lt_of_lt_val (by omega))
        exact (spells_of_octetAt hb).not_badAt hq
  · have hrefused : ofHex text = .error (.invalidLength 64 (textOctets text).length) :=
      dif_neg hlength
    rw [hrefused]
    exact .wrongLength hlength

theorem ofHex_eq_iff {text : String} {result : Except ParseError Digest} :
    ofHex text = result ↔ Reads (textOctets text) result :=
  ⟨fun h => h ▸ reads_ofHex text, fun h => (reads_ofHex text).unique h⟩

/-- Every text reads as what its octets say, and as nothing else: it is refused for its length
whatever its characters are, or for the first octet that is no digit, also one in the middle
of a character, or it is the digest that the digits spell.  Parsing is the same reading. -/
theorem ofHex_eq_iff_reads (text : String) (result : Except ParseError Digest) :
    (ofHex text = result ↔ Reads (textOctets text) result) ∧
    (parse text = result ↔ Reads (textOctets text) result) :=
  ⟨ofHex_eq_iff, ofHex_eq_iff⟩

/-- The character after the first digit takes two octets, and neither is a digit. -/
example : ofHex (String.ofList ('0' :: 'é' :: List.replicate 61 '0')) = .error (.invalidHex 1) := by
  cbv

end Digest
end SecureHash
