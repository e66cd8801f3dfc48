import Averin.Core.Framing

/-!
# SHA-256

The digest of FIPS 180-4, over words kept as numbers below `2 ^ 32`. The development takes
the digest as a parameter throughout; this is the function it stands for.
-/

namespace Averin

namespace Sha256

/-- Words have 32 bits. -/
def wordSize : Nat := 2 ^ 32

/-- Rotate a word to the right. -/
def rotr (k x : Nat) : Nat := (x >>> k) ||| ((x <<< (32 - k)) % wordSize)

/-- The constants of the rounds. -/
def roundConstants : List Nat :=
  [0x428a2f98, 0x71374491, 0xb5c0fbcf, 0xe9b5dba5, 0x3956c25b, 0x59f111f1, 0x923f82a4,
    0xab1c5ed5, 0xd807aa98, 0x12835b01, 0x243185be, 0x550c7dc3, 0x72be5d74, 0x80deb1fe,
    0x9bdc06a7, 0xc19bf174, 0xe49b69c1, 0xefbe4786, 0x0fc19dc6, 0x240ca1cc, 0x2de92c6f,
    0x4a7484aa, 0x5cb0a9dc, 0x76f988da, 0x983e5152, 0xa831c66d, 0xb00327c8, 0xbf597fc7,
    0xc6e00bf3, 0xd5a79147, 0x06ca6351, 0x14292967, 0x27b70a85, 0x2e1b2138, 0x4d2c6dfc,
    0x53380d13, 0x650a7354, 0x766a0abb, 0x81c2c92e, 0x92722c85, 0xa2bfe8a1, 0xa81a664b,
    0xc24b8b70, 0xc76c51a3, 0xd192e819, 0xd6990624, 0xf40e3585, 0x106aa070, 0x19a4c116,
    0x1e376c08, 0x2748774c, 0x34b0bcb5, 0x391c0cb3, 0x4ed8aa4a, 0x5b9cca4f, 0x682e6ff3,
    0x748f82ee, 0x78a5636f, 0x84c87814, 0x8cc70208, 0x90befffa, 0xa4506ceb, 0xbef9a3f7,
    0xc67178f2]

/-- The state before the first block. -/
def initialState : List Nat :=
  [0x6a09e667, 0xbb67ae85, 0x3c6ef372, 0xa54ff53a, 0x510e527f, 0x9b05688c, 0x1f83d9ab,
    0x5be0cd19]

/-- The message schedule, from a window of the next sixteen words. -/
def schedule : (n : Nat) → (window : List Nat) → List Nat
  | n + 1, w0 :: w1 :: rest =>
    let w9 := rest.getD 7 0
    let w14 := rest.getD 12 0
    let s0 := rotr 7 w1 ^^^ rotr 18 w1 ^^^ (w1 >>> 3)
    let s1 := rotr 17 w14 ^^^ rotr 19 w14 ^^^ (w14 >>> 10)
    w0 :: schedule n (w1 :: rest ++ [(w0 + s0 + w9 + s1) % wordSize])
  | _, _ => []

/-- One round, with its constant and word added. -/
def round (state : List Nat) (kw : Nat × Nat) : List Nat :=
  match state with
  | [a, b, c, d, e, f, g, h] =>
    let s1 := rotr 6 e ^^^ rotr 11 e ^^^ rotr 25 e
    let ch := (e &&& f) ^^^ ((wordSize - 1 - e) &&& g)
    let t1 := (h + s1 + ch + kw.1 + kw.2) % wordSize
    let s0 := rotr 2 a ^^^ rotr 13 a ^^^ rotr 22 a
    let maj := (a &&& b) ^^^ (a &&& c) ^^^ (b &&& c)
    [(t1 + s0 + maj) % wordSize, a, b, c, (d + t1) % wordSize, e, f, g]
  | _ => state

/-- One block. -/
def compress (state block : List Nat) : List Nat :=
  let out := (roundConstants.zip (schedule 64 block)).foldl round state
  (state.zip out).map fun (x, y) => (x + y) % wordSize

/-- The bytes as words. -/
def words : List UInt8 → List Nat
  | a :: b :: c :: d :: rest =>
    (((a.toNat * 256 + b.toNat) * 256 + c.toNat) * 256 + d.toNat) :: words rest
  | _ => []

/-- The words in blocks of sixteen. -/
def blocks : (n : Nat) → List Nat → List (List Nat)
  | 0, _ => []
  | n + 1, ws => ws.take 16 :: blocks n (ws.drop 16)

/-- A one bit, zeros, and the bit length, up to a multiple of 64 bytes. -/
def pad (data : List UInt8) : List UInt8 :=
  data ++ [0x80] ++ .replicate ((119 - data.length % 64) % 64) 0 ++ beBytes 8 (data.length * 8)

/-- The hash of some bytes. -/
def digest (data : List UInt8) : Vector UInt8 32 :=
  let padded := pad data
  let state := (blocks (padded.length / 64) (words padded)).foldl compress initialState
  .ofFn fun i => (beBytes 4 (state.getD (i.val / 4) 0)).getD (i.val % 4) 0

/-- The digest of "abc" from the standard. -/
example : (digest [0x61, 0x62, 0x63]).toList =
    [0xba, 0x78, 0x16, 0xbf, 0x8f, 0x01, 0xcf, 0xea, 0x41, 0x41, 0x40, 0xde, 0x5d, 0xae, 0x22,
      0x23, 0xb0, 0x03, 0x61, 0xa3, 0x96, 0x17, 0x7a, 0x9c, 0xb4, 0x10, 0xff, 0x61, 0xf2, 0x00,
      0x15, 0xad] := by decide +kernel

end Sha256

end Averin
