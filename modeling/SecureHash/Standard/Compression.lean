import SecureHash.Standard.Constants
import SecureHash.Compression.Rounds
import SecureHash.Octets.Block

/-!
The compression function of SHA-256 as FIPS 180-4 words it: the logical functions
in their exclusive-or form, the schedule by its recurrence, and rounds over eight
named working variables.
-/

namespace SecureHash
namespace Standard

/-! ## Functions on words -/

def rotr (n : Nat) (x : UInt32) : UInt32 := ⟨x.toBitVec.rotateRight n⟩

def shr (n : Nat) (x : UInt32) : UInt32 := ⟨x.toBitVec >>> n⟩

def ch (x y z : UInt32) : UInt32 := (x &&& y) ^^^ (~~~x &&& z)

def maj (x y z : UInt32) : UInt32 := (x &&& y) ^^^ (x &&& z) ^^^ (y &&& z)

def upperSigma0 (x : UInt32) : UInt32 := rotr 2 x ^^^ rotr 13 x ^^^ rotr 22 x

def upperSigma1 (x : UInt32) : UInt32 := rotr 6 x ^^^ rotr 11 x ^^^ rotr 25 x

def lowerSigma0 (x : UInt32) : UInt32 := rotr 7 x ^^^ rotr 18 x ^^^ shr 3 x

def lowerSigma1 (x : UInt32) : UInt32 := rotr 17 x ^^^ rotr 19 x ^^^ shr 10 x

/-! ## Schedule -/

/-- The word that four octets denote, the first of them the most significant. -/
def wordOf (a b c d : UInt8) : UInt32 :=
  UInt32.ofNat (a.toNat * 2 ^ 24 + b.toNat * 2 ^ 16 + c.toNat * 2 ^ 8 + d.toNat)

/-- Word `t` of a block, for `t < 16`. -/
def blockWord (block : Block) (t : Nat) : UInt32 :=
  let octet (i : Nat) : UInt8 := block.toList.getD (4 * t + i) 0
  wordOf (octet 0) (octet 1) (octet 2) (octet 3)

def scheduleWord (block : Block) (t : Nat) : UInt32 :=
  if t < 16 then blockWord block t
  else
    lowerSigma1 (scheduleWord block (t - 2)) + scheduleWord block (t - 7) +
      lowerSigma0 (scheduleWord block (t - 15)) + scheduleWord block (t - 16)
termination_by t

/-! ## Rounds -/

structure Working where
  a : UInt32
  b : UInt32
  c : UInt32
  d : UInt32
  e : UInt32
  f : UInt32
  g : UInt32
  h : UInt32

def Working.ofState (s : ChainState) : Working :=
  let word (i : Nat) : UInt32 := s.toList.getD i 0
  { a := word 0, b := word 1, c := word 2, d := word 3
    e := word 4, f := word 5, g := word 6, h := word 7 }

def Working.toState (v : Working) : ChainState := #v[v.a, v.b, v.c, v.d, v.e, v.f, v.g, v.h]

def Working.round (k w : UInt32) (v : Working) : Working :=
  let t1 := v.h + upperSigma1 v.e + ch v.e v.f v.g + k + w
  let t2 := upperSigma0 v.a + maj v.a v.b v.c
  { a := t1 + t2, b := v.a, c := v.b, d := v.c, e := v.d + t1, f := v.e, g := v.f, h := v.g }

def compress (state : ChainState) (block : Block) : ChainState :=
  let start := Working.ofState state
  let final := (List.range 64).foldl
    (fun v t => v.round (constant t) (scheduleWord block t)) start
  state.zipWith (· + ·) final.toState

end Standard
end SecureHash
