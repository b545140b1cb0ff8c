import Moon.Hasher.TargetHasher

/-! # The SHA-256 digest

The digest function of `sha2::Sha256`, after FIPS 180-4: padding (5.1.1), parsing into 512-bit
blocks (5.2.1), the message schedule and the sixty-four compression rounds (6.2.2), on 32-bit
words as the crate computes them.

`to_hash` is modelled over any digest function, and what it feeds is stated for all of them; this
one is evaluated where a statement needs two digests that differ. With it, `to_hash` of a fresh
hasher is the digest the source's test `returns_default_hash` expects.
-/

namespace Moon.Fips180

/-- The eight working variables `a`, ..., `h`; also the layout of a hash value `H`. -/
structure Working where
  a : UInt32
  b : UInt32
  c : UInt32
  d : UInt32
  e : UInt32
  f : UInt32
  g : UInt32
  h : UInt32

/-- The initial hash value `H⁽⁰⁾` (5.3.3). -/
def initialHash : Working :=
  ⟨0x6a09e667, 0xbb67ae85, 0x3c6ef372, 0xa54ff53a, 0x510e527f, 0x9b05688c, 0x1f83d9ab, 0x5be0cd19⟩

/-- The round constants `K₀, ..., K₆₃` (4.2.2). -/
def roundConstants : List UInt32 :=
  [0x428a2f98, 0x71374491, 0xb5c0fbcf, 0xe9b5dba5, 0x3956c25b, 0x59f111f1, 0x923f82a4, 0xab1c5ed5,
   0xd807aa98, 0x12835b01, 0x243185be, 0x550c7dc3, 0x72be5d74, 0x80deb1fe, 0x9bdc06a7, 0xc19bf174,
   0xe49b69c1, 0xefbe4786, 0x0fc19dc6, 0x240ca1cc, 0x2de92c6f, 0x4a7484aa, 0x5cb0a9dc, 0x76f988da,
   0x983e5152, 0xa831c66d, 0xb00327c8, 0xbf597fc7, 0xc6e00bf3, 0xd5a79147, 0x06ca6351, 0x14292967,
   0x27b70a85, 0x2e1b2138, 0x4d2c6dfc, 0x53380d13, 0x650a7354, 0x766a0abb, 0x81c2c92e, 0x92722c85,
   0xa2bfe8a1, 0xa81a664b, 0xc24b8b70, 0xc76c51a3, 0xd192e819, 0xd6990624, 0xf40e3585, 0x106aa070,
   0x19a4c116, 0x1e376c08, 0x2748774c, 0x34b0bcb5, 0x391c0cb3, 0x4ed8aa4a, 0x5b9cca4f, 0x682e6ff3,
   0x748f82ee, 0x78a5636f, 0x84c87814, 0x8cc70208, 0x90befffa, 0xa4506ceb, 0xbef9a3f7, 0xc67178f2]

/-! ## The functions of 4.1.2 -/

/-- Rotation right by `n < 32` places, `ROTRⁿ`. -/
def rotr (x n : UInt32) : UInt32 := x >>> n ||| x <<< (32 - n)

def bigSigma0 (x : UInt32) : UInt32 := rotr x 2 ^^^ rotr x 13 ^^^ rotr x 22

def bigSigma1 (x : UInt32) : UInt32 := rotr x 6 ^^^ rotr x 11 ^^^ rotr x 25

def smallSigma0 (x : UInt32) : UInt32 := rotr x 7 ^^^ rotr x 18 ^^^ x >>> 3

def smallSigma1 (x : UInt32) : UInt32 := rotr x 17 ^^^ rotr x 19 ^^^ x >>> 10

def ch (x y z : UInt32) : UInt32 := x &&& y ^^^ ~~~x &&& z

def maj (x y z : UInt32) : UInt32 := x &&& y ^^^ x &&& z ^^^ y &&& z

/-! ## Preprocessing -/

/-- Padding (5.1.1): a `1` bit, zero bits up to 448 modulo 512, and the message length in bits
as a 64-bit big-endian integer. -/
def pad (message : List UInt8) : List UInt8 :=
  let zeros := (119 - message.length % 64) % 64
  message ++ (0x80 : UInt8) :: List.replicate zeros 0 ++
    (List.range 8).reverse.map fun i => ((message.length * 8) >>> (8 * i)).toUInt8

/-- The big-endian 32-bit words of a block (5.2.1). -/
def words : List UInt8 → List UInt32
  | b0 :: b1 :: b2 :: b3 :: rest =>
    (b0.toUInt32 <<< 24 ||| b1.toUInt32 <<< 16 ||| b2.toUInt32 <<< 8 ||| b3.toUInt32) :: words rest
  | _ => []

/-! ## The hash computation (6.2.2) -/

/-- Extending the schedule by `n` words, newest first:
`W t = σ₁ (W (t-2)) + W (t-7) + σ₀ (W (t-15)) + W (t-16)`. -/
def extendSchedule : Nat → List UInt32 → List UInt32
  | 0, w => w
  | n + 1, w =>
    extendSchedule n
      ((smallSigma1 (w.getD 1 0) + w.getD 6 0 + smallSigma0 (w.getD 14 0) + w.getD 15 0) :: w)

/-- The message schedule `W₀, ..., W₆₃` of a block (step 1). -/
def schedule (block : List UInt8) : List UInt32 :=
  (extendSchedule 48 (words block).reverse).reverse

/-- One round with constant `K t` and word `W t` (step 3). -/
def round (v : Working) (kw : UInt32 × UInt32) : Working :=
  let t1 := v.h + bigSigma1 v.e + ch v.e v.f v.g + kw.1 + kw.2
  let t2 := bigSigma0 v.a + maj v.a v.b v.c
  ⟨t1 + t2, v.a, v.b, v.c, v.d + t1, v.e, v.f, v.g⟩

/-- One block: the sixty-four rounds from the current hash value, added back into it (steps 2
to 4). -/
def compress (hash : Working) (block : List UInt8) : Working :=
  let v := (roundConstants.zip (schedule block)).foldl round hash
  ⟨hash.a + v.a, hash.b + v.b, hash.c + v.c, hash.d + v.d, hash.e + v.e, hash.f + v.f,
   hash.g + v.g, hash.h + v.h⟩

/-- Compressing the padded message block by block: `block` collects the bytes of the block being
read. -/
def absorb (hash : Working) (block : List UInt8) : List UInt8 → Working
  | [] => hash
  | byte :: rest =>
    let block := block ++ [byte]
    if block.length = 64 then absorb (compress hash block) [] rest else absorb hash block rest

/-- The final hash value as bytes, each word big-endian. -/
def Working.bytes (v : Working) : List UInt8 :=
  [v.a, v.b, v.c, v.d, v.e, v.f, v.g, v.h].flatMap fun w =>
    [(w >>> 24).toUInt8, (w >>> 16).toUInt8, (w >>> 8).toUInt8, w.toUInt8]

/-- The SHA-256 digest of a message. -/
def sha256 (message : List UInt8) : List UInt8 :=
  (absorb initialHash [] (pad message)).bytes

end Moon.Fips180

namespace Moon.Hasher

set_option maxRecDepth 20000 in
/-- The source's test `returns_default_hash`. -/
example : (TargetHasher.new "0.0.0").toHash Fips180.sha256 =
    "ae2cf745a63ca5f47a7218ae5b4a8267295305591457a33a79c46754c1dcce0b" := by
  decide

end Moon.Hasher
