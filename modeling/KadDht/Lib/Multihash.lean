import Mathlib.Algebra.Order.Ring.Nat
import Mathlib.Data.List.Basic

/-!
# Lib — self-delimiting hashes

A multihash starts with two variable-length integers, the code of the hash function and the
length of the digest, so that a parser that is handed a buffer knows where it ends.
`MultihashLib` is what programs use of a multihash library: a parser that takes one well-formed
multihash off the front of a buffer, and takes a whole buffer only if it is well-formed.
`multihashFormat` is the wire format.
-/

namespace KadDht

class MultihashLib where
  wellFormed : List UInt8 → Prop
  mhFromBytes : List UInt8 → Except String (Nat × List UInt8)
  ne_nil {m : List UInt8} : wellFormed m → m ≠ []
  mhFromBytes_append {m : List UInt8} (rest : List UInt8) :
    wellFormed m → mhFromBytes (m ++ rest) = .ok (m.length, m)
  /-- A buffer that is taken as a whole is well-formed. -/
  wellFormed_of_mhFromBytes {buf m : List UInt8} :
    mhFromBytes buf = .ok (buf.length, m) → wellFormed buf

namespace MultihashFormat

/-- An unsigned variable-length integer: seven bits a byte, the last byte below `0x80`. Returns
the value and the rest of the buffer. -/
def uvarint : List UInt8 → Nat → Nat → Except String (Nat × List UInt8)
  | [], _, _ => .error "varints malformed, could not reach the end"
  | b :: rest, i, x =>
    if (i = 8 ∧ b ≥ 0x80) ∨ i ≥ 9 then .error "varints larger than uint63 not supported"
    else if b < 0x80 then
      if b = 0 ∧ i > 0 then .error "varint not minimally encoded"
      else .ok (x + b.toNat * 2 ^ (7 * i), rest)
    else uvarint rest (i + 1) (x + b.toNat % 128 * 2 ^ (7 * i))

/-- `MHFromBytes`: how many bytes the first multihash takes, and these bytes. -/
def mhFromBytes (buf : List UInt8) : Except String (Nat × List UInt8) :=
  if buf.length < 2 then .error "multihash too short. must be >= 2 bytes"
  else match uvarint buf 0 0 with
    | .error e => .error e
    | .ok (_, rest) => match uvarint rest 0 0 with
      | .error e => .error e
      | .ok (length, digest) =>
        if length > 2 ^ 31 - 1 then .error "digest too long, supporting only <= 2^31-1"
        else if length > digest.length then
          .error "length greater than remaining number of bytes in buffer"
        else
          let consumed := buf.length - digest.length + length
          .ok (consumed, buf.take consumed)

theorem uvarint_append (buf t : List UInt8) (i x : Nat) {v : Nat} {rest : List UInt8}
    (h : uvarint buf i x = .ok (v, rest)) :
    uvarint (buf ++ t) i x = .ok (v, rest ++ t) ∧ rest.length ≤ buf.length := by
  induction buf generalizing i x with
  | nil => simp [uvarint] at h
  | cons b buf ih =>
    rw [List.cons_append, uvarint]
    rw [uvarint] at h
    split at h
    · simp at h
    · next hlong =>
      rw [if_neg hlong]
      split at h
      · next hlast =>
        rw [if_pos hlast]
        split at h
        · simp at h
        · next hmin =>
          rw [if_neg hmin]
          simp only [Except.ok.injEq, Prod.mk.injEq] at h ⊢
          obtain ⟨rfl, rfl⟩ := h
          simp
      · next hlast =>
        rw [if_neg hlast]
        obtain ⟨heq, hle⟩ := ih _ _ h
        exact ⟨heq, by rw [List.length_cons]; omega⟩

theorem mhFromBytes_append {m : List UInt8} (t : List UInt8)
    (h : mhFromBytes m = .ok (m.length, m)) : mhFromBytes (m ++ t) = .ok (m.length, m) := by
  unfold mhFromBytes at h ⊢
  split at h
  · simp at h
  · next hlen =>
    rw [if_neg (by rw [List.length_append]; omega)]
    split at h
    · simp at h
    · next code rest hcode =>
      obtain ⟨hcode', hle1⟩ := uvarint_append m t 0 0 hcode
      rw [hcode']
      simp only []
      split at h
      · simp at h
      · next length digest hlength =>
        obtain ⟨hlength', hle2⟩ := uvarint_append rest t 0 0 hlength
        rw [hlength']
        simp only []
        split at h
        · simp at h
        · next hmax =>
          rw [if_neg hmax]
          split at h
          · simp at h
          · next hfits =>
            -- both buffers are longer by the same bytes, so the same number is consumed
            simp only [Except.ok.injEq, Prod.mk.injEq] at h
            have hsame : (m ++ t).length - (digest ++ t).length + length = m.length := by
              rw [List.length_append, List.length_append]
              omega
            rw [if_neg (by rw [List.length_append]; omega)]
            simp only [hsame, List.take_left']

theorem take_of_mhFromBytes {buf m : List UInt8} {n : Nat} (h : mhFromBytes buf = .ok (n, m)) :
    m = buf.take n := by
  unfold mhFromBytes at h
  split at h
  · cases h
  split at h
  · cases h
  split at h
  · cases h
  split at h
  · cases h
  split at h
  · cases h
  · cases h
    rfl

end MultihashFormat

@[reducible] def multihashFormat : MultihashLib where
  wellFormed m := MultihashFormat.mhFromBytes m = .ok (m.length, m)
  mhFromBytes := MultihashFormat.mhFromBytes
  ne_nil h hnil := by simp [hnil, MultihashFormat.mhFromBytes] at h
  mhFromBytes_append rest h := MultihashFormat.mhFromBytes_append rest h
  wellFormed_of_mhFromBytes {buf m} h := by
    have htake := MultihashFormat.take_of_mhFromBytes h
    rw [List.take_length] at htake
    rwa [htake] at h

end KadDht
