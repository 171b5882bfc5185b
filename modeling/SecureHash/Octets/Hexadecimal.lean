import SecureHash.Fault

/-!
Octets as hexadecimal text.

Writing gives two lower case digits per octet.  Reading takes either case and
works on the octets of the text, each as the character of that number, so that a
character outside ASCII shows as octets from `0x80` on and none of them is a
digit.  A text of odd length is refused before its digits are looked at.
-/

namespace SecureHash

/-- The octets of a text.  Lengths and positions in a text count these. -/
def textOctets (text : String) : List UInt8 := text.toUTF8.data.toList

namespace Hexadecimal

def digit (n : Nat) : Char :=
  if n < 10 then Char.ofNat ('0'.toNat + n) else Char.ofNat ('a'.toNat + (n - 10))

def digits (b : UInt8) : List Char := [digit (b.toNat / 16), digit (b.toNat % 16)]

def encode (octets : List UInt8) : String := String.ofList (octets.flatMap digits)

def digitValue? (c : Char) : Option Nat :=
  if c.isDigit then some (c.toNat - '0'.toNat)
  else
    let l := c.toLower
    if 'a' ≤ l ∧ l ≤ 'f' then some (l.toNat - 'a'.toNat + 10) else none

def octetValue (b : UInt8) : Except Fault UInt8 :=
  match digitValue? (Char.ofNat b.toNat) with
  | some n => .ok n.toUInt8
  | none => .error .badHexDigit

def decodePairs : List UInt8 → Except Fault (List UInt8)
  | high :: low :: rest => do
    let h ← octetValue high
    let l ← octetValue low
    let octets ← decodePairs rest
    pure (((h <<< 4) ||| l) :: octets)
  | _ => pure []

def decode (text : String) : Except Fault (List UInt8) :=
  let octets := textOctets text
  if octets.length % 2 = 0 then decodePairs octets else .error .oddHexLength

end Hexadecimal
end SecureHash
