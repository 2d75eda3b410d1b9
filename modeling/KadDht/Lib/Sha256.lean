import Mathlib.Algebra.Order.Ring.Nat
import Mathlib.Data.List.Basic

/-!
# Lib — SHA-256

The 256-bit member of the SHA-2 family on byte strings, written on natural numbers below
`2 ^ 32` so that it evaluates. Nothing in the development depends on how the digest is computed; the
definition is there for the concrete identifiers of concrete inputs.
-/

namespace KadDht.Sha256

def roundConstants : List Nat :=
  [0x428a2f98, 0x71374491, 0xb5c0fbcf, 0xe9b5dba5, 0x3956c25b, 0x59f111f1, 0x923f82a4, 0xab1c5ed5,
   0xd807aa98, 0x12835b01, 0x243185be, 0x550c7dc3, 0x72be5d74, 0x80deb1fe, 0x9bdc06a7, 0xc19bf174,
   0xe49b69c1, 0xefbe4786, 0x0fc19dc6, 0x240ca1cc, 0x2de92c6f, 0x4a7484aa, 0x5cb0a9dc, 0x76f988da,
   0x983e5152, 0xa831c66d, 0xb00327c8, 0xbf597fc7, 0xc6e00bf3, 0xd5a79147, 0x06ca6351, 0x14292967,
   0x27b70a85, 0x2e1b2138, 0x4d2c6dfc, 0x53380d13, 0x650a7354, 0x766a0abb, 0x81c2c92e, 0x92722c85,
   0xa2bfe8a1, 0xa81a664b, 0xc24b8b70, 0xc76c51a3, 0xd192e819, 0xd6990624, 0xf40e3585, 0x106aa070,
   0x19a4c116, 0x1e376c08, 0x2748774c, 0x34b0bcb5, 0x391c0cb3, 0x4ed8aa4a, 0x5b9cca4f, 0x682e6ff3,
   0x748f82ee, 0x78a5636f, 0x84c87814, 0x8cc70208, 0x90befffa, 0xa4506ceb, 0xbef9a3f7, 0xc67178f2]

structure Words where
  a : Nat
  b : Nat
  c : Nat
  d : Nat
  e : Nat
  f : Nat
  g : Nat
  h : Nat

def initialHash : Words :=
  ⟨0x6a09e667, 0xbb67ae85, 0x3c6ef372, 0xa54ff53a, 0x510e527f, 0x9b05688c, 0x1f83d9ab, 0x5be0cd19⟩

def add32 (x y : Nat) : Nat := (x + y) % 2 ^ 32

def rotr (n x : Nat) : Nat := (x >>> n ||| x <<< (32 - n)) % 2 ^ 32

/-- The message followed by a one bit, zeros up to a whole number of blocks, and the message
length in bits as a 64-bit number. -/
def padding (msg : List UInt8) : List Nat :=
  let zeros := (64 - (msg.length + 9) % 64) % 64
  let lengthBytes := (List.range 8).map fun i => msg.length * 8 / 256 ^ (7 - i) % 256
  msg.map (·.toNat) ++ 0x80 :: List.replicate zeros 0 ++ lengthBytes

def toWords : List Nat → List Nat
  | a :: b :: c :: d :: rest => (((a * 256 + b) * 256 + c) * 256 + d) :: toWords rest
  | _ => []

/-- Extend the message schedule by `n` words. The schedule is kept with its newest word first,
so that the words 2, 7, 15 and 16 positions back are at the indices 1, 6, 14 and 15. -/
def extendSchedule : Nat → List Nat → List Nat
  | 0, w => w
  | n + 1, w =>
    let x := w.getD 1 0
    let y := w.getD 14 0
    let s1 := Nat.xor (Nat.xor (rotr 17 x) (rotr 19 x)) (x >>> 10)
    let s0 := Nat.xor (Nat.xor (rotr 7 y) (rotr 18 y)) (y >>> 3)
    extendSchedule n (add32 (add32 s1 (w.getD 6 0)) (add32 s0 (w.getD 15 0)) :: w)

def round (s : Words) (kw : Nat × Nat) : Words :=
  let sum1 := Nat.xor (Nat.xor (rotr 6 s.e) (rotr 11 s.e)) (rotr 25 s.e)
  let ch := Nat.xor (Nat.land s.e s.f) (Nat.land (2 ^ 32 - 1 - s.e) s.g)
  let t1 := add32 (add32 (add32 s.h sum1) (add32 ch kw.1)) kw.2
  let sum0 := Nat.xor (Nat.xor (rotr 2 s.a) (rotr 13 s.a)) (rotr 22 s.a)
  let maj := Nat.xor (Nat.xor (Nat.land s.a s.b) (Nat.land s.a s.c)) (Nat.land s.b s.c)
  let t2 := add32 sum0 maj
  ⟨add32 t1 t2, s.a, s.b, s.c, add32 s.d t1, s.e, s.f, s.g⟩

def compress (v : Words) (block : List Nat) : Words :=
  let schedule := (extendSchedule 48 block.reverse).reverse
  let s := (roundConstants.zip schedule).foldl round v
  ⟨add32 v.a s.a, add32 v.b s.b, add32 v.c s.c, add32 v.d s.d,
    add32 v.e s.e, add32 v.f s.f, add32 v.g s.g, add32 v.h s.h⟩

def absorb : Nat → Words → List Nat → Words
  | 0, v, _ => v
  | n + 1, v, words => absorb n (compress v (words.take 16)) (words.drop 16)

def hash (msg : List UInt8) : Words :=
  let padded := padding msg
  absorb (padded.length / 64) initialHash (toWords padded)

def wordBits (x : Nat) : List Bool := (List.range 32).map fun i => x.testBit (31 - i)

def digestBits (msg : List UInt8) : List Bool :=
  let v := hash msg
  [v.a, v.b, v.c, v.d, v.e, v.f, v.g, v.h].flatMap wordBits

theorem length_digestBits (msg : List UInt8) : (digestBits msg).length = 256 := by
  simp [digestBits, wordBits]

-- The published digest of the message "abc" starts with this word.
example : (hash [97, 98, 99]).a = 0xba7816bf := by decide +kernel

end KadDht.Sha256
