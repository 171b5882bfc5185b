import SecureHash.Compression.Schedule

/-!
The sixty-four rounds of a compression and the addition that closes them.

A round can be carried out in two ways.  `shift` moves the eight working variables
one place on and writes all of them.  `turn` leaves them where they are and moves
the roles instead: the variable that plays `a` sits at `base`, the next one plays
`b`, and only the slots of `d` and `h` are written.  With each round the base goes
back by one, so after any multiple of eight rounds every role is at its own slot
again and the closing addition can go slot by slot.
-/

namespace SecureHash

/-- The eight chaining words, or the eight working variables made from them. -/
abbrev ChainState := Vector UInt32 8

namespace ChainState

def zero : ChainState := Vector.replicate 8 0

/-- The chaining words before the first block: thirty-two bits each from the fractional
parts of the square roots of the first eight primes. -/
def initial : ChainState :=
  #v[0x6a09e667, 0xbb67ae85, 0x3c6ef372, 0xa54ff53a, 0x510e527f, 0x9b05688c, 0x1f83d9ab, 0x5be0cd19]

end ChainState

namespace Rounds

/-- One word per round: thirty-two bits each from the fractional parts of the cube roots
of the first sixty-four primes. -/
def constants : Vector UInt32 64 := #v[
  0x428a2f98, 0x71374491, 0xb5c0fbcf, 0xe9b5dba5, 0x3956c25b, 0x59f111f1, 0x923f82a4, 0xab1c5ed5,
  0xd807aa98, 0x12835b01, 0x243185be, 0x550c7dc3, 0x72be5d74, 0x80deb1fe, 0x9bdc06a7, 0xc19bf174,
  0xe49b69c1, 0xefbe4786, 0x0fc19dc6, 0x240ca1cc, 0x2de92c6f, 0x4a7484aa, 0x5cb0a9dc, 0x76f988da,
  0x983e5152, 0xa831c66d, 0xb00327c8, 0xbf597fc7, 0xc6e00bf3, 0xd5a79147, 0x06ca6351, 0x14292967,
  0x27b70a85, 0x2e1b2138, 0x4d2c6dfc, 0x53380d13, 0x650a7354, 0x766a0abb, 0x81c2c92e, 0x92722c85,
  0xa2bfe8a1, 0xa81a664b, 0xc24b8b70, 0xc76c51a3, 0xd192e819, 0xd6990624, 0xf40e3585, 0x106aa070,
  0x19a4c116, 0x1e376c08, 0x2748774c, 0x34b0bcb5, 0x391c0cb3, 0x4ed8aa4a, 0x5b9cca4f, 0x682e6ff3,
  0x748f82ee, 0x78a5636f, 0x84c87814, 0x8cc70208, 0x90befffa, 0xa4506ceb, 0xbef9a3f7, 0xc67178f2]

/-- One round in the shifting form, with the constant and the schedule word of the
round. -/
def shift (s : ChainState) (k w : UInt32) : ChainState :=
  let t1 := s[7] + bigSigma1 s[4] + choose s[4] s[5] s[6] + k + w
  let t2 := bigSigma0 s[0] + majority s[0] s[1] s[2]
  #v[t1 + t2, s[0], s[1], s[2], s[3] + t1, s[4], s[5], s[6]]

/-- One round in the rotating form.  The constant and the schedule word come added. -/
def turn (base : Fin 8) (kw : UInt32) (s : ChainState) : ChainState :=
  let (a, b, c, d) := (base, base + 1, base + 2, base + 3)
  let (e, f, g, h) := (base + 4, base + 5, base + 6, base + 7)
  let s := s.set h (s[h] + bigSigma1 s[e] + choose s[e] s[f] s[g] + kw)
  let s := s.set d (s[d] + s[h])
  s.set h (s[h] + bigSigma0 s[a] + majority s[a] s[b] s[c])

/-- Rotating rounds in a row, the first of them at `base`. -/
def turnsFrom : Fin 8 → List UInt32 → ChainState → ChainState
  | _, [], s => s
  | base, kw :: rest, s => turnsFrom (base - 1) rest (turn base kw s)

def mixLoop (w : Schedule) (s : ChainState) : ChainState :=
  (constants.zip w).foldl (fun s (k, w) => shift s k w) s

def mixStraight (w : Schedule) (s : ChainState) : ChainState :=
  let kw (t : Fin 64) : UInt32 := constants[t] + w[t]
  s |> turn 0 (kw 0) |> turn 7 (kw 1) |> turn 6 (kw 2) |> turn 5 (kw 3)
    |> turn 4 (kw 4) |> turn 3 (kw 5) |> turn 2 (kw 6) |> turn 1 (kw 7)
    |> turn 0 (kw 8) |> turn 7 (kw 9) |> turn 6 (kw 10) |> turn 5 (kw 11)
    |> turn 4 (kw 12) |> turn 3 (kw 13) |> turn 2 (kw 14) |> turn 1 (kw 15)
    |> turn 0 (kw 16) |> turn 7 (kw 17) |> turn 6 (kw 18) |> turn 5 (kw 19)
    |> turn 4 (kw 20) |> turn 3 (kw 21) |> turn 2 (kw 22) |> turn 1 (kw 23)
    |> turn 0 (kw 24) |> turn 7 (kw 25) |> turn 6 (kw 26) |> turn 5 (kw 27)
    |> turn 4 (kw 28) |> turn 3 (kw 29) |> turn 2 (kw 30) |> turn 1 (kw 31)
    |> turn 0 (kw 32) |> turn 7 (kw 33) |> turn 6 (kw 34) |> turn 5 (kw 35)
    |> turn 4 (kw 36) |> turn 3 (kw 37) |> turn 2 (kw 38) |> turn 1 (kw 39)
    |> turn 0 (kw 40) |> turn 7 (kw 41) |> turn 6 (kw 42) |> turn 5 (kw 43)
    |> turn 4 (kw 44) |> turn 3 (kw 45) |> turn 2 (kw 46) |> turn 1 (kw 47)
    |> turn 0 (kw 48) |> turn 7 (kw 49) |> turn 6 (kw 50) |> turn 5 (kw 51)
    |> turn 4 (kw 52) |> turn 3 (kw 53) |> turn 2 (kw 54) |> turn 1 (kw 55)
    |> turn 0 (kw 56) |> turn 7 (kw 57) |> turn 6 (kw 58) |> turn 5 (kw 59)
    |> turn 4 (kw 60) |> turn 3 (kw 61) |> turn 2 (kw 62) |> turn 1 (kw 63)

/-- The working variables after all rounds. -/
def mix : Variant → Schedule → ChainState → ChainState
  | .rolled => mixLoop
  | .unrolled => mixStraight

/-- The chaining words with the working variables added to them, and the working
variables wiped. -/
def feedForward (state working : ChainState) : ChainState × ChainState :=
  (state.zipWith (· + ·) working, ChainState.zero)

/-- What a schedule makes of the chaining words. -/
def apply (v : Variant) (w : Schedule) (state : ChainState) : ChainState :=
  (feedForward state (mix v w state)).1

end Rounds
end SecureHash
