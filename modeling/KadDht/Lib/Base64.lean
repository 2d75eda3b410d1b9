import Mathlib.Data.List.Basic

/-!
# Lib — base64 with the URL alphabet

Three bytes are written as four characters of six bits each; a last group of one or two bytes is
filled up with `=`. The decoder skips line breaks, takes padding only at the end, and does not look
at the bits that the padding cuts off.
-/

namespace KadDht.Base64

/-! ## Characters -/

def alphabet : List Char :=
  ['A', 'B', 'C', 'D', 'E', 'F', 'G', 'H', 'I', 'J', 'K', 'L', 'M', 'N', 'O', 'P', 'Q', 'R', 'S',
   'T', 'U', 'V', 'W', 'X', 'Y', 'Z', 'a', 'b', 'c', 'd', 'e', 'f', 'g', 'h', 'i', 'j', 'k', 'l',
   'm', 'n', 'o', 'p', 'q', 'r', 's', 't', 'u', 'v', 'w', 'x', 'y', 'z', '0', '1', '2', '3', '4',
   '5', '6', '7', '8', '9', '-', '_']

def digit (n : Nat) : Char := alphabet.getD n '='

def value (c : Char) : Option Nat := alphabet.findIdx? (· == c)

theorem value_digit {n : Nat} (h : n < 64) : value (digit n) = some n := by
  revert n
  decide

theorem digit_mem {n : Nat} (h : n < 64) : digit n ∈ alphabet := by
  revert n
  decide

theorem digit_ne_pad {n : Nat} (h : n < 64) : digit n ≠ '=' := by
  revert n
  decide

/-! ## Encoding and decoding -/

def encode : List UInt8 → List Char
  | [] => []
  | [a] => [digit (a.toNat / 4), digit (a.toNat % 4 * 16), '=', '=']
  | [a, b] =>
    [digit (a.toNat / 4), digit (a.toNat % 4 * 16 + b.toNat / 16), digit (b.toNat % 16 * 4), '=']
  | a :: b :: c :: rest =>
    digit (a.toNat / 4) :: digit (a.toNat % 4 * 16 + b.toNat / 16) ::
      digit (b.toNat % 16 * 4 + c.toNat / 64) :: digit (c.toNat % 64) :: encode rest

def firstByte (x y : Nat) : UInt8 := .ofNat (x * 4 + y / 16)

def secondByte (y z : Nat) : UInt8 := .ofNat (y % 16 * 16 + z / 4)

def thirdByte (z w : Nat) : UInt8 := .ofNat (z % 4 * 64 + w)

def decodeGroups : List Char → Option (List UInt8)
  | [] => some []
  | a :: b :: c :: d :: rest => do
    let x ← value a
    let y ← value b
    if c = '=' then
      if d = '=' ∧ rest = [] then some [firstByte x y] else none
    else
      let z ← value c
      if d = '=' then
        if rest = [] then some [firstByte x y, secondByte y z] else none
      else
        let w ← value d
        let bytes ← decodeGroups rest
        some (firstByte x y :: secondByte y z :: thirdByte z w :: bytes)
  | _ => none

def decode (s : List Char) : Option (List UInt8) :=
  decodeGroups (s.filter fun c => c ≠ '\n' ∧ c ≠ '\r')

/-! ## Reading back -/

theorem firstByte_eq (a : UInt8) {r : Nat} (h : r < 16) :
    firstByte (a.toNat / 4) (a.toNat % 4 * 16 + r) = a := by
  have ha := a.toNat_lt
  refine (congrArg UInt8.ofNat ?_).trans a.ofNat_toNat
  omega

theorem secondByte_eq (b : UInt8) {q r : Nat} (h : r < 4) :
    secondByte (q * 16 + b.toNat / 16) (b.toNat % 16 * 4 + r) = b := by
  have hb := b.toNat_lt
  refine (congrArg UInt8.ofNat ?_).trans b.ofNat_toNat
  omega

theorem thirdByte_eq (c : UInt8) {q : Nat} :
    thirdByte (q * 4 + c.toNat / 64) (c.toNat % 64) = c := by
  have hc := c.toNat_lt
  refine (congrArg UInt8.ofNat ?_).trans c.ofNat_toNat
  omega

theorem decodeGroups_encode (bs : List UInt8) : decodeGroups (encode bs) = some bs := by
  match bs with
  | [] => rfl
  | [a] =>
    have ha := a.toNat_lt
    have hfirst := firstByte_eq a (r := 0) (by omega)
    simp only [Nat.add_zero] at hfirst
    simp [encode, decodeGroups, value_digit (show a.toNat / 4 < 64 by omega),
      value_digit (show a.toNat % 4 * 16 < 64 by omega), hfirst]
  | [a, b] =>
    have ha := a.toNat_lt
    have hb := b.toNat_lt
    have hz : b.toNat % 16 * 4 < 64 := by omega
    have hsecond := secondByte_eq b (q := a.toNat % 4) (r := 0) (by omega)
    simp only [Nat.add_zero] at hsecond
    simp [encode, decodeGroups, value_digit (show a.toNat / 4 < 64 by omega),
      value_digit (show a.toNat % 4 * 16 + b.toNat / 16 < 64 by omega), value_digit hz,
      digit_ne_pad hz, firstByte_eq a (show b.toNat / 16 < 16 by omega), hsecond]
  | a :: b :: c :: rest =>
    have ha := a.toNat_lt
    have hb := b.toNat_lt
    have hc := c.toNat_lt
    have hz : b.toNat % 16 * 4 + c.toNat / 64 < 64 := by omega
    have hw : c.toNat % 64 < 64 := by omega
    have ih := decodeGroups_encode rest
    simp [encode, decodeGroups, value_digit (show a.toNat / 4 < 64 by omega),
      value_digit (show a.toNat % 4 * 16 + b.toNat / 16 < 64 by omega), value_digit hz,
      value_digit hw, digit_ne_pad hz, digit_ne_pad hw, ih,
      firstByte_eq a (show b.toNat / 16 < 16 by omega),
      secondByte_eq b (show c.toNat / 64 < 4 by omega), thirdByte_eq c]

theorem encode_chars (bs : List UInt8) : ∀ c ∈ encode bs, c ∈ alphabet ∨ c = '=' := by
  match bs with
  | [] => simp [encode]
  | [a] =>
    have ha := a.toNat_lt
    simp [encode, digit_mem (show a.toNat / 4 < 64 by omega),
      digit_mem (show a.toNat % 4 * 16 < 64 by omega)]
  | [a, b] =>
    have ha := a.toNat_lt
    have hb := b.toNat_lt
    simp [encode, digit_mem (show a.toNat / 4 < 64 by omega),
      digit_mem (show a.toNat % 4 * 16 + b.toNat / 16 < 64 by omega),
      digit_mem (show b.toNat % 16 * 4 < 64 by omega)]
  | a :: b :: c :: rest =>
    have ha := a.toNat_lt
    have hb := b.toNat_lt
    have hc := c.toNat_lt
    have ih := encode_chars rest
    simpa [encode, digit_mem (show a.toNat / 4 < 64 by omega),
      digit_mem (show a.toNat % 4 * 16 + b.toNat / 16 < 64 by omega),
      digit_mem (show b.toNat % 16 * 4 + c.toNat / 64 < 64 by omega),
      digit_mem (show c.toNat % 64 < 64 by omega)] using ih

theorem not_mem_encode (bs : List UInt8) {c : Char} (hc : c ∉ alphabet) (hpad : c ≠ '=') :
    c ∉ encode bs := fun hmem =>
  (encode_chars bs c hmem).elim hc hpad

/-- **Reading back.** -/
theorem decode_encode (bs : List UInt8) : decode (encode bs) = some bs := by
  have hclean : (encode bs).filter (fun c => c ≠ '\n' ∧ c ≠ '\r') = encode bs := by
    refine List.filter_eq_self.mpr fun c hc => decide_eq_true ⟨?_, ?_⟩
    · rintro rfl
      exact not_mem_encode bs (by decide) (by decide) hc
    · rintro rfl
      exact not_mem_encode bs (by decide) (by decide) hc
  rw [decode, hclean, decodeGroups_encode]

theorem encode_eq_nil {bs : List UInt8} : encode bs = [] ↔ bs = [] := by
  match bs with
  | [] => simp [encode]
  | [a] => simp [encode]
  | [a, b] => simp [encode]
  | a :: b :: c :: rest => simp [encode]

end KadDht.Base64
