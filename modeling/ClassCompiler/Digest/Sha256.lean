import ClassCompiler.Text.Quoted

namespace ClassCompiler.Sha256

structure State where
  a : UInt32
  b : UInt32
  c : UInt32
  d : UInt32
  e : UInt32
  f : UInt32
  g : UInt32
  h : UInt32
  deriving Repr, DecidableEq

def State.words (s : State) : List UInt32 := [s.a, s.b, s.c, s.d, s.e, s.f, s.g, s.h]

def State.add (s t : State) : State :=
  ⟨s.a + t.a, s.b + t.b, s.c + t.c, s.d + t.d, s.e + t.e, s.f + t.f, s.g + t.g, s.h + t.h⟩

/-- The fractions of the square roots of the first eight primes. -/
def initial : State :=
  ⟨0x6a09e667, 0xbb67ae85, 0x3c6ef372, 0xa54ff53a,
    0x510e527f, 0x9b05688c, 0x1f83d9ab, 0x5be0cd19⟩

/-- The fractions of the cube roots of the first 64 primes. -/
def roundConstants : List UInt32 := [
  0x428a2f98, 0x71374491, 0xb5c0fbcf, 0xe9b5dba5, 0x3956c25b, 0x59f111f1, 0x923f82a4, 0xab1c5ed5,
  0xd807aa98, 0x12835b01, 0x243185be, 0x550c7dc3, 0x72be5d74, 0x80deb1fe, 0x9bdc06a7, 0xc19bf174,
  0xe49b69c1, 0xefbe4786, 0x0fc19dc6, 0x240ca1cc, 0x2de92c6f, 0x4a7484aa, 0x5cb0a9dc, 0x76f988da,
  0x983e5152, 0xa831c66d, 0xb00327c8, 0xbf597fc7, 0xc6e00bf3, 0xd5a79147, 0x06ca6351, 0x14292967,
  0x27b70a85, 0x2e1b2138, 0x4d2c6dfc, 0x53380d13, 0x650a7354, 0x766a0abb, 0x81c2c92e, 0x92722c85,
  0xa2bfe8a1, 0xa81a664b, 0xc24b8b70, 0xc76c51a3, 0xd192e819, 0xd6990624, 0xf40e3585, 0x106aa070,
  0x19a4c116, 0x1e376c08, 0x2748774c, 0x34b0bcb5, 0x391c0cb3, 0x4ed8aa4a, 0x5b9cca4f, 0x682e6ff3,
  0x748f82ee, 0x78a5636f, 0x84c87814, 0x8cc70208, 0x90befffa, 0xa4506ceb, 0xbef9a3f7, 0xc67178f2]

def rotateRight (x n : UInt32) : UInt32 := (x >>> n) ||| (x <<< (32 - n))

def choose (x y z : UInt32) : UInt32 := (x &&& y) ^^^ (~~~x &&& z)

def majority (x y z : UInt32) : UInt32 := (x &&& y) ^^^ (x &&& z) ^^^ (y &&& z)

def bigSigma0 (x : UInt32) : UInt32 := rotateRight x 2 ^^^ rotateRight x 13 ^^^ rotateRight x 22

def bigSigma1 (x : UInt32) : UInt32 := rotateRight x 6 ^^^ rotateRight x 11 ^^^ rotateRight x 25

def smallSigma0 (x : UInt32) : UInt32 := rotateRight x 7 ^^^ rotateRight x 18 ^^^ (x >>> 3)

def smallSigma1 (x : UInt32) : UInt32 := rotateRight x 17 ^^^ rotateRight x 19 ^^^ (x >>> 10)

def wordOf : List UInt8 → UInt32
  | os => os.foldl (fun w o => (w <<< 8) ||| o.toUInt32) 0

def octetsOf (w : UInt32) : List UInt8 :=
  [(w >>> 24).toUInt8, (w >>> 16).toUInt8, (w >>> 8).toUInt8, w.toUInt8]

/-- The message, a one bit, zeros, and the length in bits in eight octets. -/
def padded (message : List UInt8) : List UInt8 :=
  let n := message.length
  let zeros := (55 + 64 - n % 64) % 64
  let bits := 8 * n
  message ++ 0x80 :: List.replicate zeros 0 ++
    (List.range 8).map fun i => (bits / Nat.pow 2 (8 * (7 - i))).toUInt8

def pieces (size : Nat) : (count : Nat) → List UInt8 → List (List UInt8)
  | 0, _ => []
  | count + 1, os => os.take size :: pieces size count (os.drop size)

/-- Adds `count` words to a schedule, each made of four before it. -/
def extend : (count : Nat) → Array UInt32 → Array UInt32
  | 0, w => w
  | count + 1, w =>
    let at' (back : Nat) : UInt32 := w[w.size - back]?.getD 0
    extend count (w.push (smallSigma1 (at' 2) + at' 7 + smallSigma0 (at' 15) + at' 16))

def schedule (block : List UInt8) : Array UInt32 :=
  extend 48 ((pieces 4 16 block).map wordOf).toArray

def mix (s : State) (k w : UInt32) : State :=
  let t := s.h + bigSigma1 s.e + choose s.e s.f s.g + k + w
  let u := bigSigma0 s.a + majority s.a s.b s.c
  ⟨t + u, s.a, s.b, s.c, s.d + t, s.e, s.f, s.g⟩

def compress (s : State) (block : List UInt8) : State :=
  s.add ((roundConstants.zip (schedule block).toList).foldl (fun s (k, w) => mix s k w) s)

def digest (message : List UInt8) : List UInt8 :=
  let p := padded message
  ((pieces 64 (p.length / 64) p).foldl compress initial).words.flatMap octetsOf

def hexDigest (message : List UInt8) : String :=
  String.ofList ((digest message).flatMap fun o => Text.hex 2 o.toNat)

end ClassCompiler.Sha256
