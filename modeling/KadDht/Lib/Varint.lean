import Mathlib.Algebra.Order.Ring.Int
import Mathlib.Tactic.Ring

/-!
# Lib — variable-length integers

A 64-bit number is written seven bits a byte, the lowest ones first, with the high bit set in every
byte but the last. Signed numbers are mapped to unsigned ones by turns.

* **`uvarint_putUvarint`**, **`varint_putVarint`** — what was written is read back.
-/

namespace KadDht.Varint

/-- The loop of `binary.PutUvarint`, with at most this many bytes before the last one. -/
def putUvarintLoop : Nat → Nat → List UInt8
  | 0, x => [.ofNat x]
  | n + 1, x =>
    if x < 128 then [.ofNat x] else .ofNat (x % 128 + 128) :: putUvarintLoop n (x / 128)

/-- `binary.PutUvarint`: a 64-bit number takes at most ten bytes. -/
def putUvarint (x : Nat) : List UInt8 := putUvarintLoop 9 x

/-- The loop of `binary.Uvarint`, at the index `i`. -/
def uvarintLoop : List UInt8 → Nat → Nat → Option Nat
  | [], _, _ => none
  | b :: buf, i, x =>
    if i = 10 then none
    else if b < 128 then
      -- a tenth byte has one bit left
      if i = 9 ∧ b > 1 then none else some (x + b.toNat * 2 ^ (7 * i))
    else uvarintLoop buf (i + 1) (x + b.toNat % 128 * 2 ^ (7 * i))

/-- `binary.Uvarint`, or `none` when the buffer is too small or the number too large. -/
def uvarint (buf : List UInt8) : Option Nat := uvarintLoop buf 0 0

/-- A signed number as an unsigned one: the sign goes to the lowest bit. -/
def zigzag (x : Int) : Nat := if x < 0 then (-2 * x - 1).toNat else (2 * x).toNat

def unzigzag (ux : Nat) : Int :=
  if ux % 2 = 0 then ((ux / 2 : Nat) : Int) else -((ux / 2 : Nat) : Int) - 1

def putVarint (x : Int) : List UInt8 := putUvarint (zigzag x)

def varint (buf : List UInt8) : Option Int := (uvarint buf).map unzigzag

/-! ## Reading back -/

theorem uvarintLoop_putUvarintLoop {n x i : Nat} (acc : Nat) (hi : i + n = 9)
    (hx : x * 2 ^ (7 * i) < 2 ^ 64) :
    uvarintLoop (putUvarintLoop n x) i acc = some (acc + x * 2 ^ (7 * i)) := by
  induction n generalizing x i acc with
  | zero =>
    -- nine bytes have taken all bits but one
    obtain rfl : i = 9 := by omega
    have hlast : x ≤ 1 := by omega
    obtain rfl | rfl : x = 0 ∨ x = 1 := by omega
    · rfl
    · rfl
  | succ n ih =>
    rw [putUvarintLoop]
    split
    · next hsmall =>
      have hbyte : (UInt8.ofNat x).toNat = x := by
        rw [UInt8.toNat_ofNat']
        omega
      have hlt : UInt8.ofNat x < 128 := by
        rw [UInt8.lt_iff_toNat_lt, hbyte]
        exact hsmall
      rw [uvarintLoop, if_neg (by omega), if_pos hlt, if_neg (by omega), hbyte]
    · next hlarge =>
      have hbyte : (UInt8.ofNat (x % 128 + 128)).toNat = x % 128 + 128 := by
        rw [UInt8.toNat_ofNat']
        omega
      have hge : ¬ UInt8.ofNat (x % 128 + 128) < 128 := by
        rw [UInt8.lt_iff_toNat_lt, hbyte]
        show ¬ x % 128 + 128 < 128
        omega
      have hsplit : x % 128 * 2 ^ (7 * i) + x / 128 * 2 ^ (7 * (i + 1)) = x * 2 ^ (7 * i) := by
        have hpow : 2 ^ (7 * (i + 1)) = 128 * 2 ^ (7 * i) := by
          rw [show 7 * (i + 1) = 7 * i + 7 by omega, Nat.pow_add]
          ring
        rw [hpow, ← Nat.mul_assoc, ← Nat.add_mul]
        congr 1
        omega
      rw [uvarintLoop, if_neg (by omega), if_neg hge, hbyte,
        ih (acc + (x % 128 + 128) % 128 * 2 ^ (7 * i)) (by omega) (by omega),
        show (x % 128 + 128) % 128 = x % 128 by omega, Nat.add_assoc, hsplit]

theorem uvarint_putUvarint {x : Nat} (hx : x < 2 ^ 64) : uvarint (putUvarint x) = some x := by
  have hloop := @uvarintLoop_putUvarintLoop 9 x 0 0 rfl (by omega)
  rwa [Nat.zero_add, Nat.mul_zero, Nat.pow_zero, Nat.mul_one] at hloop

theorem unzigzag_zigzag (x : Int) : unzigzag (zigzag x) = x := by
  rw [unzigzag, zigzag]
  split
  · next hneg =>
    rw [if_neg (by omega)]
    omega
  · next hpos =>
    rw [if_pos (by omega)]
    omega

/-- **Reading back**, for numbers of 64 bits. -/
theorem varint_putVarint {x : Int} (hlo : -2 ^ 63 ≤ x) (hhi : x < 2 ^ 63) :
    varint (putVarint x) = some x := by
  have hlt : zigzag x < 2 ^ 64 := by
    rw [zigzag]
    split
    · omega
    · omega
  rw [varint, putVarint, uvarint_putUvarint hlt, Option.map_some, unzigzag_zigzag]

end KadDht.Varint
