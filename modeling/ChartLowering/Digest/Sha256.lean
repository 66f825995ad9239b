import ChartLowering.Text.Basic

/-!
# SHA-256

The digest of FIPS 180-4 over the UTF-8 bytes of a text, in lower case hexadecimal digits.
-/

namespace ChartLowering.Sha256

/-- The eight words that run through the rounds. -/
structure State where
  a : UInt32
  b : UInt32
  c : UInt32
  d : UInt32
  e : UInt32
  f : UInt32
  g : UInt32
  h : UInt32

def initial : State :=
  ⟨0x6a09e667, 0xbb67ae85, 0x3c6ef372, 0xa54ff53a,
   0x510e527f, 0x9b05688c, 0x1f83d9ab, 0x5be0cd19⟩

def roundConstants : List UInt32 :=
  [0x428a2f98, 0x71374491, 0xb5c0fbcf, 0xe9b5dba5, 0x3956c25b, 0x59f111f1,
   0x923f82a4, 0xab1c5ed5, 0xd807aa98, 0x12835b01, 0x243185be, 0x550c7dc3,
   0x72be5d74, 0x80deb1fe, 0x9bdc06a7, 0xc19bf174, 0xe49b69c1, 0xefbe4786,
   0x0fc19dc6, 0x240ca1cc, 0x2de92c6f, 0x4a7484aa, 0x5cb0a9dc, 0x76f988da,
   0x983e5152, 0xa831c66d, 0xb00327c8, 0xbf597fc7, 0xc6e00bf3, 0xd5a79147,
   0x06ca6351, 0x14292967, 0x27b70a85, 0x2e1b2138, 0x4d2c6dfc, 0x53380d13,
   0x650a7354, 0x766a0abb, 0x81c2c92e, 0x92722c85, 0xa2bfe8a1, 0xa81a664b,
   0xc24b8b70, 0xc76c51a3, 0xd192e819, 0xd6990624, 0xf40e3585, 0x106aa070,
   0x19a4c116, 0x1e376c08, 0x2748774c, 0x34b0bcb5, 0x391c0cb3, 0x4ed8aa4a,
   0x5b9cca4f, 0x682e6ff3, 0x748f82ee, 0x78a5636f, 0x84c87814, 0x8cc70208,
   0x90befffa, 0xa4506ceb, 0xbef9a3f7, 0xc67178f2]

def rotateRight (x n : UInt32) : UInt32 := (x >>> n) ||| (x <<< (32 - n))

def choose (x y z : UInt32) : UInt32 := (x &&& y) ^^^ (~~~x &&& z)

def majority (x y z : UInt32) : UInt32 := (x &&& y) ^^^ (x &&& z) ^^^ (y &&& z)

def bigSigma₀ (x : UInt32) : UInt32 :=
  rotateRight x 2 ^^^ rotateRight x 13 ^^^ rotateRight x 22

def bigSigma₁ (x : UInt32) : UInt32 :=
  rotateRight x 6 ^^^ rotateRight x 11 ^^^ rotateRight x 25

def smallSigma₀ (x : UInt32) : UInt32 := rotateRight x 7 ^^^ rotateRight x 18 ^^^ (x >>> 3)

def smallSigma₁ (x : UInt32) : UInt32 := rotateRight x 17 ^^^ rotateRight x 19 ^^^ (x >>> 10)

def round (s : State) (constant word : UInt32) : State :=
  let t₁ := s.h + bigSigma₁ s.e + choose s.e s.f s.g + constant + word
  let t₂ := bigSigma₀ s.a + majority s.a s.b s.c
  ⟨t₁ + t₂, s.a, s.b, s.c, s.d + t₁, s.e, s.f, s.g⟩

/-- The sixteen words of a block and the forty-eight that follow from them. -/
def schedule (block : List UInt32) : List UInt32 :=
  ((List.range 48).foldl (fun (w : Array UInt32) i ↦
    w.push (w.getD i 0 + smallSigma₀ (w.getD (i + 1) 0) + w.getD (i + 9) 0 +
      smallSigma₁ (w.getD (i + 14) 0))) block.toArray).toList

def compress (s : State) (block : List UInt32) : State :=
  let t := (roundConstants.zip (schedule block)).foldl (fun t (k, w) ↦ round t k w) s
  ⟨s.a + t.a, s.b + t.b, s.c + t.c, s.d + t.d, s.e + t.e, s.f + t.f, s.g + t.g, s.h + t.h⟩

/-- The last eight bytes, which hold the length of the message in bits. -/
def lengthBytes (size : Nat) : List UInt8 :=
  (List.range 8).map fun i ↦ UInt8.ofNat (size * 8 / Nat.pow 256 (7 - i))

/-- A message with a mark at its end, up to a whole number of blocks. -/
def pad (bytes : List UInt8) : List UInt8 :=
  let zeros := (119 - bytes.length % 64) % 64
  bytes ++ 0x80 :: List.replicate zeros 0 ++ lengthBytes bytes.length

def word (bytes : List UInt8) : UInt32 := bytes.foldl (fun w b ↦ (w <<< 8) ||| b.toUInt32) 0

def chunks {α : Type} (size : Nat) : Nat → List α → List (List α)
  | 0, _ => []
  | count + 1, xs => xs.take size :: chunks size count (xs.drop size)

def blocks (bytes : List UInt8) : List (List UInt32) :=
  (chunks 64 (bytes.length / 64) bytes).map fun block ↦ (chunks 4 16 block).map word

def digest (bytes : List UInt8) : List UInt32 :=
  let s := (blocks (pad bytes)).foldl compress initial
  [s.a, s.b, s.c, s.d, s.e, s.f, s.g, s.h]

def hexDigest (s : String) : String :=
  String.ofList ((digest s.toUTF8.toList).flatMap fun w ↦ Text.hex 8 w.toNat)

end ChartLowering.Sha256
