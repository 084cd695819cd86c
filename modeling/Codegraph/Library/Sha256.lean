import Mathlib.Data.List.Basic
import Mathlib.Algebra.Group.Nat.Defs

/- This file computes SHA-256 over lists of bytes. -/

namespace Sha256

/-- The round constants are the fractional parts of the cube roots of the first primes. -/
def roundConstants : List UInt32 :=
  [0x428a2f98, 0x71374491, 0xb5c0fbcf, 0xe9b5dba5, 0x3956c25b, 0x59f111f1, 0x923f82a4, 0xab1c5ed5,
    0xd807aa98, 0x12835b01, 0x243185be, 0x550c7dc3, 0x72be5d74, 0x80deb1fe, 0x9bdc06a7, 0xc19bf174,
    0xe49b69c1, 0xefbe4786, 0x0fc19dc6, 0x240ca1cc, 0x2de92c6f, 0x4a7484aa, 0x5cb0a9dc, 0x76f988da,
    0x983e5152, 0xa831c66d, 0xb00327c8, 0xbf597fc7, 0xc6e00bf3, 0xd5a79147, 0x06ca6351, 0x14292967,
    0x27b70a85, 0x2e1b2138, 0x4d2c6dfc, 0x53380d13, 0x650a7354, 0x766a0abb, 0x81c2c92e, 0x92722c85,
    0xa2bfe8a1, 0xa81a664b, 0xc24b8b70, 0xc76c51a3, 0xd192e819, 0xd6990624, 0xf40e3585, 0x106aa070,
    0x19a4c116, 0x1e376c08, 0x2748774c, 0x34b0bcb5, 0x391c0cb3, 0x4ed8aa4a, 0x5b9cca4f, 0x682e6ff3,
    0x748f82ee, 0x78a5636f, 0x84c87814, 0x8cc70208, 0x90befffa, 0xa4506ceb, 0xbef9a3f7, 0xc67178f2]

/-- The eight working words of a compression. -/
structure Words where
  a : UInt32
  b : UInt32
  c : UInt32
  d : UInt32
  e : UInt32
  f : UInt32
  g : UInt32
  h : UInt32

def Words.initial : Words :=
  ⟨0x6a09e667, 0xbb67ae85, 0x3c6ef372, 0xa54ff53a, 0x510e527f, 0x9b05688c, 0x1f83d9ab, 0x5be0cd19⟩

def rotateRight (word : UInt32) (count : UInt32) : UInt32 :=
  (word >>> count) ||| (word <<< (32 - count))

def smallSigma0 (word : UInt32) : UInt32 := rotateRight word 7 ^^^ rotateRight word 18 ^^^ (word >>> 3)

def smallSigma1 (word : UInt32) : UInt32 := rotateRight word 17 ^^^ rotateRight word 19 ^^^ (word >>> 10)

def bigSigma0 (word : UInt32) : UInt32 :=
  rotateRight word 2 ^^^ rotateRight word 13 ^^^ rotateRight word 22

def bigSigma1 (word : UInt32) : UInt32 :=
  rotateRight word 6 ^^^ rotateRight word 11 ^^^ rotateRight word 25

def bigEndian (bytes : List UInt8) : UInt32 :=
  bytes.foldl (fun word byte => (word <<< 8) ||| byte.toUInt32) 0

/-- The padded message ends with its length in bits and fills whole blocks. -/
def pad (message : List UInt8) : List UInt8 :=
  let bits := 8 * message.length
  message ++ 0x80 :: List.replicate ((119 - message.length % 64) % 64) 0 ++
    (List.range 8).map fun index => UInt8.ofNat (bits / 256 ^ (7 - index) % 256)

/-- The schedule keeps its newest word first. -/
def extend (newestFirst : List UInt32) : List UInt32 :=
  (smallSigma1 (newestFirst.getD 1 0) + newestFirst.getD 6 0 +
    smallSigma0 (newestFirst.getD 14 0) + newestFirst.getD 15 0) :: newestFirst

def schedule (block : List UInt8) : List UInt32 :=
  let words := (List.range 16).map fun index => bigEndian ((block.drop (4 * index)).take 4)
  (Nat.repeat extend 48 words.reverse).reverse

def round (state : Words) (input : UInt32 × UInt32) : Words :=
  let choice := (state.e &&& state.f) ^^^ ((~~~ state.e) &&& state.g)
  let majority := (state.a &&& state.b) ^^^ (state.a &&& state.c) ^^^ (state.b &&& state.c)
  let first := state.h + bigSigma1 state.e + choice + input.1 + input.2
  let second := bigSigma0 state.a + majority
  ⟨first + second, state.a, state.b, state.c, state.d + first, state.e, state.f, state.g⟩

def compress (state : Words) (block : List UInt8) : Words :=
  let mixed := (roundConstants.zip (schedule block)).foldl round state
  ⟨state.a + mixed.a, state.b + mixed.b, state.c + mixed.c, state.d + mixed.d,
    state.e + mixed.e, state.f + mixed.f, state.g + mixed.g, state.h + mixed.h⟩

def wordBytes (word : UInt32) : List UInt8 :=
  [(word >>> 24).toUInt8, (word >>> 16).toUInt8, (word >>> 8).toUInt8, word.toUInt8]

def Words.bytes (state : Words) : List UInt8 :=
  [state.a, state.b, state.c, state.d, state.e, state.f, state.g, state.h].flatMap wordBytes

def digest (message : List UInt8) : List UInt8 :=
  let padded := pad message
  let blocks := (List.range (padded.length / 64)).map fun index => (padded.drop (64 * index)).take 64
  (blocks.foldl compress .initial).bytes

@[simp] theorem digest_length (message : List UInt8) : (digest message).length = 32 := rfl

end Sha256
