/-!
Digests of 32 octets, and their comparison.

Two digests are compared without stopping at the first difference: all octets are
looked at, and their differences are gathered in one octet.
-/

namespace SecureHash

structure Digest where
  octets : Vector UInt8 32
deriving DecidableEq

namespace Digest

/-- The number of octets that the type fixes. -/
def length : Nat := 32

/-- Why octets or a text are not a digest. -/
inductive ParseError where
  | invalidLength (expected actual : Nat)
  /-- The octet at `position` of the text is no hexadecimal digit. -/
  | invalidHex (position : Nat)
deriving DecidableEq

namespace ParseError

def message : ParseError → String
  | invalidLength expected actual =>
    "invalid digest length: expected " ++ toString expected ++ ", got " ++ toString actual
  | invalidHex position => "invalid hex character at position " ++ toString position

/-- The error with the names of its parts, for diagnosis. -/
def debug : ParseError → String
  | invalidLength expected actual =>
    "InvalidLength \x7b expected: " ++ toString expected ++ ", actual: " ++ toString actual ++
      " \x7d"
  | invalidHex position => "InvalidHex \x7b position: " ++ toString position ++ " \x7d"

end ParseError

def ofOctets (octets : List UInt8) : Except ParseError Digest :=
  if h : octets.toArray.size = 32 then .ok ⟨⟨octets.toArray, h⟩⟩
  else .error (.invalidLength 32 octets.length)

/-- All differences between two digests, gathered in one octet. -/
def difference (a b : Digest) : UInt8 :=
  (a.octets.zipWith (· ^^^ ·) b.octets).foldl (· ||| ·) 0

instance : BEq Digest where
  beq a b := difference a b == 0

end Digest
end SecureHash
