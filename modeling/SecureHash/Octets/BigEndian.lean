import SecureHash.Checked

/-!
Words as octets, most significant octet first.

Reading accumulates from the left.  Writing cuts each octet out of the word by
its position, in the place of what the destination held.  A sequence of words is
written and read in a run whose store is the destination: the lengths are
compared before the first write, so a refused run leaves the destination alone.
-/

namespace SecureHash
namespace BigEndian

/-- The number that octets denote in base 256. -/
def value (octets : List UInt8) : Nat :=
  octets.foldl (fun n b => 256 * n + b.toNat) 0

def decode32 (octets : Vector UInt8 4) : UInt32 :=
  octets.foldl (fun word b => (word <<< 8) ||| b.toUInt32) 0

def decode64 (octets : Vector UInt8 8) : UInt64 :=
  octets.foldl (fun word b => (word <<< 8) ||| b.toUInt64) 0

def write32 (word : UInt32) (old : Vector UInt8 4) : Vector UInt8 4 :=
  old.mapFinIdx fun i _ _ => (word >>> UInt32.ofNat (8 * (3 - i))).toUInt8

def write64 (word : UInt64) (old : Vector UInt8 8) : Vector UInt8 8 :=
  old.mapFinIdx fun i _ _ => (word >>> UInt64.ofNat (8 * (7 - i))).toUInt8

def encode32 (word : UInt32) : Vector UInt8 4 := write32 word (Vector.replicate 4 0)

def encode64 (word : UInt64) : Vector UInt8 8 := write64 word (Vector.replicate 8 0)

/-- Every octet is written, so nothing of the destination remains. -/
theorem write32_eq_encode32 (word : UInt32) (old : Vector UInt8 4) :
    write32 word old = encode32 word := by
  ext i hi
  simp only [encode32, write32, Vector.getElem_mapFinIdx]

theorem write64_eq_encode64 (word : UInt64) (old : Vector UInt8 8) :
    write64 word old = encode64 word := by
  ext i hi
  simp only [encode64, write64, Vector.getElem_mapFinIdx]

/-! ## Sequences of words

The two lists advance together and the shorter one ends the walk; what is left of
the destination stays. -/

def readOver : List UInt32 → List UInt8 → List UInt32
  | _ :: words, a :: b :: c :: d :: octets => decode32 #v[a, b, c, d] :: readOver words octets
  | words, _ => words

def writeOver : List UInt8 → List UInt32 → List UInt8
  | a :: b :: c :: d :: octets, word :: words =>
    (write32 word #v[a, b, c, d]).toList ++ writeOver octets words
  | octets, _ => octets

@[simp] theorem length_readOver (words : List UInt32) (octets : List UInt8) :
    (readOver words octets).length = words.length := by
  induction words, octets using readOver.induct with
  | case1 _ words a b c d octets ih => simp only [readOver, List.length_cons, ih]
  | case2 words octets h => rw [readOver.eq_2 words octets h]

@[simp] theorem length_writeOver (octets : List UInt8) (words : List UInt32) :
    (writeOver octets words).length = octets.length := by
  induction octets, words using writeOver.induct with
  | case1 a b c d octets word words ih =>
    simp only [writeOver, List.length_append, Vector.length_toList, List.length_cons, ih]
    omega
  | case2 octets words h => rw [writeOver.eq_2 octets words h]

/-- Read the words that `octets` spell into the store. -/
def decodeWords {n : Nat} (octets : List UInt8) : EStateM Fault (Vector UInt32 n) Unit := do
  Checked.equal octets.length (n * 4)
  modify fun words =>
    ⟨(readOver words.toList octets).toArray, by
      simp only [List.size_toArray, length_readOver, Vector.length_toList]⟩

/-- Spell `words` out into the store. -/
def encodeWords {n : Nat} (words : List UInt32) : EStateM Fault (Vector UInt8 n) Unit := do
  Checked.equal n (words.length * 4)
  modify fun octets =>
    ⟨(writeOver octets.toList words).toArray, by
      simp only [List.size_toArray, length_writeOver, Vector.length_toList]⟩

theorem run_decodeWords {n : Nat} {octets : List UInt8} (old : Vector UInt32 n)
    (h : octets.length = n * 4) :
    ∃ new, (decodeWords octets).run old = .ok () new ∧ new.toList = readOver old.toList octets := by
  rw [decodeWords, Checked.equal_eq_ok h]
  exact ⟨_, rfl, rfl⟩

theorem run_decodeWords_of_ne {n : Nat} {octets : List UInt8} (old : Vector UInt32 n)
    (h : octets.length ≠ n * 4) :
    (decodeWords octets).run old = .error (.unequal octets.length (n * 4)) old := by
  rw [decodeWords, Checked.equal, if_neg h]
  rfl

theorem run_encodeWords {n : Nat} {words : List UInt32} (old : Vector UInt8 n)
    (h : n = words.length * 4) :
    ∃ new, (encodeWords words).run old = .ok () new ∧ new.toList = writeOver old.toList words := by
  rw [encodeWords, Checked.equal_eq_ok h]
  exact ⟨_, rfl, rfl⟩

theorem run_encodeWords_of_ne {n : Nat} {words : List UInt32} (old : Vector UInt8 n)
    (h : n ≠ words.length * 4) :
    (encodeWords words).run old = .error (.unequal n (words.length * 4)) old := by
  rw [encodeWords, Checked.equal, if_neg h]
  rfl

end BigEndian
end SecureHash
