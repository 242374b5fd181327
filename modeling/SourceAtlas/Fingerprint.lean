import SourceAtlas.Text.Hex
import Std.Data.ExtTreeMap
/-!
Fingerprints of text: the first sixteen hexadecimal digits of the SHA-256 digest of its UTF-8 bytes.
Nothing is normalised, so every change of the text is a change of what is hashed.
-/

namespace SourceAtlas.Fingerprint

/-- The digest's running value: eight words. -/
structure Chain where
  a : UInt32
  b : UInt32
  c : UInt32
  d : UInt32
  e : UInt32
  f : UInt32
  g : UInt32
  h : UInt32
  deriving Repr, DecidableEq

namespace Chain

def start : Chain :=
  ⟨0x6a09e667, 0xbb67ae85, 0x3c6ef372, 0xa54ff53a, 0x510e527f, 0x9b05688c, 0x1f83d9ab, 0x5be0cd19⟩

def add (x y : Chain) : Chain :=
  ⟨x.a + y.a, x.b + y.b, x.c + y.c, x.d + y.d, x.e + y.e, x.f + y.f, x.g + y.g, x.h + y.h⟩

def words (x : Chain) : List UInt32 := [x.a, x.b, x.c, x.d, x.e, x.f, x.g, x.h]

end Chain

def roundConstants : List UInt32 := [
  0x428a2f98, 0x71374491, 0xb5c0fbcf, 0xe9b5dba5, 0x3956c25b, 0x59f111f1,
  0x923f82a4, 0xab1c5ed5, 0xd807aa98, 0x12835b01, 0x243185be, 0x550c7dc3,
  0x72be5d74, 0x80deb1fe, 0x9bdc06a7, 0xc19bf174, 0xe49b69c1, 0xefbe4786,
  0x0fc19dc6, 0x240ca1cc, 0x2de92c6f, 0x4a7484aa, 0x5cb0a9dc, 0x76f988da,
  0x983e5152, 0xa831c66d, 0xb00327c8, 0xbf597fc7, 0xc6e00bf3, 0xd5a79147,
  0x06ca6351, 0x14292967, 0x27b70a85, 0x2e1b2138, 0x4d2c6dfc, 0x53380d13,
  0x650a7354, 0x766a0abb, 0x81c2c92e, 0x92722c85, 0xa2bfe8a1, 0xa81a664b,
  0xc24b8b70, 0xc76c51a3, 0xd192e819, 0xd6990624, 0xf40e3585, 0x106aa070,
  0x19a4c116, 0x1e376c08, 0x2748774c, 0x34b0bcb5, 0x391c0cb3, 0x4ed8aa4a,
  0x5b9cca4f, 0x682e6ff3, 0x748f82ee, 0x78a5636f, 0x84c87814, 0x8cc70208,
  0x90befffa, 0xa4506ceb, 0xbef9a3f7, 0xc67178f2]

def rotateRight (word amount : UInt32) : UInt32 := (word >>> amount) ||| (word <<< (32 - amount))

/-- One round of the compression, on a constant and a word of the schedule. -/
def step (x : Chain) (input : UInt32 × UInt32) : Chain :=
  let s1 := rotateRight x.e 6 ^^^ rotateRight x.e 11 ^^^ rotateRight x.e 25
  let choice := (x.e &&& x.f) ^^^ (~~~x.e &&& x.g)
  let t1 := x.h + s1 + choice + input.1 + input.2
  let s0 := rotateRight x.a 2 ^^^ rotateRight x.a 13 ^^^ rotateRight x.a 22
  let majority := (x.a &&& x.b) ^^^ (x.a &&& x.c) ^^^ (x.b &&& x.c)
  ⟨t1 + (s0 + majority), x.a, x.b, x.c, x.d + t1, x.e, x.f, x.g⟩

/-- Extends the last sixteen words of a schedule, oldest first, by as many words as are wanted. -/
def extend : Nat → List UInt32 → List UInt32
  | 0, _ => []
  | n + 1, window =>
      let w15 := window.getD 1 0
      let w2 := window.getD 14 0
      let s0 := rotateRight w15 7 ^^^ rotateRight w15 18 ^^^ (w15 >>> 3)
      let s1 := rotateRight w2 17 ^^^ rotateRight w2 19 ^^^ (w2 >>> 10)
      let next := window.getD 0 0 + s0 + window.getD 9 0 + s1
      next :: extend n (window.drop 1 ++ [next])

/-- Takes a block of sixteen words into the running value. -/
def compress (x : Chain) (block : List UInt32) : Chain :=
  x.add ((roundConstants.zip (block ++ extend 48 block)).foldl step x)

/-- The big-endian bytes of a number, in a field of the given width. -/
def bigEndian : Nat → Nat → List UInt8
  | 0, _ => []
  | width + 1, n => bigEndian width (n / 256) ++ [UInt8.ofNat n]

/-- The message with its end mark, zeros up to a whole number of blocks, and its length in bits. -/
def pad (message : List UInt8) : List UInt8 :=
  message ++ 0x80 :: List.replicate ((119 - message.length % 64) % 64) 0 ++
    bigEndian 8 (8 * message.length)

/-- Words of four bytes each; what does not fill a word is left out. -/
def toWords : List UInt8 → List UInt32
  | a :: b :: c :: d :: rest =>
      ((a.toUInt32 <<< 24) ||| (b.toUInt32 <<< 16) ||| (c.toUInt32 <<< 8) ||| d.toUInt32) :: toWords rest
  | _ => []

def absorb : Nat → Chain → List UInt32 → Chain
  | 0, x, _ => x
  | blocks + 1, x, words => absorb blocks (compress x (words.take 16)) (words.drop 16)

/-- The SHA-256 digest of a message, as eight words. -/
def digest (message : List UInt8) : List UInt32 :=
  let words := toWords (pad message)
  (absorb (words.length / 16) Chain.start words).words

def hex : Nat → Nat → List Char
  | 0, _ => []
  | width + 1, n => hex width (n / 16) ++ [Hex.digit (n % 16)]

/-- How many hexadecimal digits of the digest a fingerprint keeps. -/
def length : Nat := 16

def ofText (text : String) : String :=
  String.ofList (((digest text.toUTF8.toList).flatMap fun word => hex 8 word.toNat).take length)

end SourceAtlas.Fingerprint

namespace SourceAtlas

/-- The fingerprints of a run's files, by path. -/
abbrev FileHashes := Std.ExtTreeMap String String

end SourceAtlas
