import SecureHash.Digest.Basic
import SecureHash.Octets.Hexadecimal

/-!
Digests as text: 64 hexadecimal digits, written in lower case and read in either.

Reading refuses a wrong length before it looks at any digit, and else names the
first octet of the text that is no digit.
-/

namespace SecureHash
namespace Digest

/-- The value of the ASCII character `c` as a digit: `0` to `9`, `a` to `f`, `A` to `F`. -/
def digitValue? (c : UInt8) : Option UInt8 :=
  if 48 ≤ c ∧ c ≤ 57 then some (c - 48)
  else if 97 ≤ c ∧ c ≤ 102 then some (c - 97 + 10)
  else if 65 ≤ c ∧ c ≤ 70 then some (c - 65 + 10)
  else none

/-- The value of the digit `c`, which stands at `position`. -/
def digitAt (position : Nat) (c : UInt8) : Except ParseError UInt8 :=
  match digitValue? c with
  | some v => .ok v
  | none => .error (.invalidHex position)

/-- The octet that the digits at places `2 * i` and `2 * i + 1` spell. -/
def octetAt (text : Vector UInt8 64) (i : Fin 32) : Except ParseError UInt8 := do
  let high ← digitAt (2 * i) text[2 * i.val]
  let low ← digitAt (2 * i + 1) text[2 * i.val + 1]
  return (high <<< 4) ||| low

def ofHex (text : String) : Except ParseError Digest := do
  let octets := (textOctets text).toArray
  if h : octets.size = 64 then
    return ⟨← Vector.ofFnM (octetAt ⟨octets, h⟩)⟩
  else
    throw (.invalidLength 64 octets.size)

/-- The reading of digests for callers that name no notation. -/
def parse (text : String) : Except ParseError Digest := ofHex text

/-! ## Writing -/

/-- What a reader may ask of the text of a value: a least width, and the longer of
two forms. -/
structure Layout where
  width : Nat := 0
  alternate : Bool := false

def toHex (d : Digest) : String := Hexadecimal.encode d.octets.toList

/-- The text of a digest, which has one form and one width whatever the layout. -/
def display (_ : Layout) (d : Digest) : String := d.toHex

def lowerHex (_ : Layout) (d : Digest) : String := d.toHex

/-- The text of a digest under its name, for diagnosis. -/
def debug (layout : Layout) (d : Digest) : String :=
  "Digest(" ++ lowerHex layout d ++ ")"

instance : ToString Digest := ⟨display {}⟩

end Digest
end SecureHash
