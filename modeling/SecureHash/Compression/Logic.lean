/-!
The six functions on words that the compression of a block is made of.

`choose` takes each bit from `y` where `x` has a one and from `z` elsewhere, and
`majority` takes the bit that two of its arguments share.  Both are written with
fewer operations than their usual definitions, and neither branches.
-/

namespace SecureHash

def rotateRight (x : UInt32) (n : UInt32) : UInt32 := (x >>> n) ||| (x <<< (32 - n))

def choose (x y z : UInt32) : UInt32 := (x &&& (y ^^^ z)) ^^^ z

def majority (x y z : UInt32) : UInt32 := (x &&& (y ||| z)) ||| (y &&& z)

def bigSigma0 (x : UInt32) : UInt32 := rotateRight x 2 ^^^ rotateRight x 13 ^^^ rotateRight x 22

def bigSigma1 (x : UInt32) : UInt32 := rotateRight x 6 ^^^ rotateRight x 11 ^^^ rotateRight x 25

def smallSigma0 (x : UInt32) : UInt32 := rotateRight x 7 ^^^ rotateRight x 18 ^^^ (x >>> 3)

def smallSigma1 (x : UInt32) : UInt32 := rotateRight x 17 ^^^ rotateRight x 19 ^^^ (x >>> 10)

end SecureHash
