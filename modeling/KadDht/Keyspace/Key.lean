import KadDht.Lib.TrieLib
import KadDht.Lib.Sha256
import KadDht.Lib.XorOrder

/-!
# Keyspace — keys and prefixes (`provider/internal/keyspace/key.go`)

A multihash or a peer identifier is located in the keyspace by the 256 bits of its SHA-256
digest (`Bit256`). A prefix of such an identifier is a `Bitstr`. Keys of the trie library are
only used through their bits, so both are instances of `BitKey`.

`kb.SortClosestPeers` belongs to the routing-table package. It is a parameter of
`shortestCoveredPrefix`: the caller hands in the function that sorts peers by their distance
to a target.
-/

namespace KadDht

open BitKey List

/-- `bitstr.Key`: a bit string, used as a keyspace prefix. -/
abbrev Bitstr := List Bool

structure Bit256 where
  bits : List Bool
  length_bits : bits.length = 256
deriving DecidableEq

instance : BitKey Bit256 where
  bits := Bit256.bits
  bits_injective := fun a b h => by
    cases a
    cases b
    simpa using h

@[simp] theorem bits_bit256 (k : Bit256) : BitKey.bits k = k.bits := rfl

theorem Bit256.eq_of_overlap {a b : Bit256} (h : Overlap (bits a) (bits b)) : a = b :=
  bits_injective (h.eq_of_length (a.length_bits.trans b.length_bits.symm))

theorem accepts_bit256 {D : Type} (t : Trie Bit256 D) (k : Bit256) : t.Accepts k :=
  Trie.accepts_of_bitLen fun k' _ => k'.length_bits.trans k.length_bits.symm

theorem acceptsAll_bit256 {D : Type} (t : Trie Bit256 D) (es : List (Bit256 × D)) :
    t.AcceptsAll es :=
  ⟨fun e _ => accepts_bit256 t e.1, fun _ _ _ _ hov => Bit256.eq_of_overlap hov⟩

def keyLen : Nat := 256

/-- `bit256.ZeroKey()`: the identifier whose bits are all zero. -/
def zeroKey : Bit256 := ⟨List.replicate 256 false, List.length_replicate⟩

/-- `mh.Multihash`: a self-describing hash, as bytes. -/
abbrev Multihash := List UInt8

abbrev PeerId := List UInt8

def mhToBit256 (h : Multihash) : Bit256 := ⟨Sha256.digestBits h, Sha256.length_digestBits h⟩

def peerIDToBit256 (id : PeerId) : Bit256 := ⟨Sha256.digestBits id, Sha256.length_digestBits id⟩

def keyEntry (h : Multihash) : Bit256 × Multihash := (mhToBit256 h, h)

def peerEntry (id : PeerId) : Bit256 × PeerId := (peerIDToBit256 id, id)

/-- The order in which a `range` over a Go map visits its keys: any order, possibly another one
each time. -/
structure MapOrder (α : Type) where
  visit : List α → List α
  perm : ∀ l, (visit l).Perm l

/-- Flip the last bit of a prefix; the empty prefix has none. -/
def flipLastBit (k : Bitstr) : Bitstr :=
  match k.getLast? with
  | none => k
  | some b => k.dropLast ++ [!b]

/-- The closest full key to `order` that starts with `k`. -/
def firstFullKeyWithPrefix (k : Bitstr) (order : Bit256) : Bitstr :=
  if k.length > keyLen then k.take keyLen
  else k ++ order.bits.drop k.length

theorem length_firstFullKeyWithPrefix (k : Bitstr) (order : Bit256) :
    (firstFullKeyWithPrefix k order).length = 256 := by
  unfold firstFullKeyWithPrefix keyLen
  split
  · rw [length_take]
    omega
  · rw [length_append, length_drop, order.length_bits]
    omega

def isBitstrPrefix (k0 k1 : Bitstr) : Bool :=
  k0.length ≤ k1.length && k0 == k1.take k0.length

/-- `IsPrefix` on two keys: `k0` is not longer than `k1` and agrees with it on its bits. -/
def isPrefix {K0 K1 : Type} [BitKey K0] [BitKey K1] (k0 : K0) (k1 : K1) : Bool :=
  if bitLen k0 > bitLen k1 then false
  else (List.range (bitLen k0)).all fun i => bit k0 i == bit k1 i

/-- `initMask`: the most significant bit of a byte. -/
def initMask : UInt8 := 0x80

/-- The loop of `KeyToBytes`: `mask` is the position of the next bit in the byte `cur` under
construction. A last incomplete byte keeps zero bits on its right. -/
def keyToBytesLoop : List Bool → UInt8 → UInt8 → List UInt8
  | [], mask, cur => if mask ≠ initMask then [cur] else []
  | b :: rest, mask, cur =>
    let cur := if b then cur ||| mask else cur
    let mask := mask >>> 1
    if mask = 0 then cur :: keyToBytesLoop rest initMask 0
    else keyToBytesLoop rest mask cur

def keyToBytes (k : Bitstr) : List UInt8 := keyToBytesLoop k initMask 0

/-- The state of the loop of `ShortestCoveredPrefix`: the smallest common prefix length seen,
the length of the covered prefix, and the index of the peer that set it. -/
structure CoveredLoop where
  minCpl : Nat
  coveredCpl : Nat
  lastCoveredPeerIndex : Nat

def CoveredLoop.visit (target : Bitstr) (s : CoveredLoop) (peer : PeerId × Nat) : CoveredLoop :=
  let cpl := commonPrefixLength target (peerIDToBit256 peer.1).bits
  if cpl < s.minCpl then ⟨cpl, cpl + 1, peer.2⟩ else s

/-- The prefix of `target` that its closest peers cover, with the peers matching it. -/
def shortestCoveredPrefix (sortClosestPeers : List PeerId → List UInt8 → List PeerId)
    (target : Bitstr) (peers : List PeerId) : Bitstr × List PeerId :=
  if peers.isEmpty then (target, peers)
  else
    let sorted := sortClosestPeers peers (keyToBytes target)
    let s := sorted.zipIdx.foldl (CoveredLoop.visit target) ⟨target.length, 0, 0⟩
    (target.take s.coveredCpl, sorted.take s.lastCoveredPeerIndex)

/-- The prefixes of the sibling subtrees along the path to a key. -/
def siblingPrefixes (key : Bitstr) : List Bitstr :=
  (List.range key.length).map fun i => flipLastBit (key.take (i + 1))

/-- The loop of `ExtendBinaryPrefix`: both bits are appended to each prefix, `n` times. -/
def extendLoop : Nat → List Bitstr → List Bitstr
  | 0, wr => wr
  | n + 1, rd => extendLoop n (rd.flatMap fun s => [s ++ [false], s ++ [true]])

/-- `ExtendBinaryPrefix`: all bit strings of length `n` that start with a prefix. A slice of strings
with the capacity `1 << extraBits` takes `16 * 2 ^ extraBits` bytes, and making one of more than
`2 ^ 48` bytes panics. -/
def extendBinaryPrefix (pfx : Bitstr) (n : Int) : Option (List Bitstr) :=
  let extraBits := n - pfx.length
  if n < 0 ∨ extraBits < 0 then some []
  else if extraBits ≥ 45 then none
  else some (extendLoop extraBits.toNat [pfx])

/-! ## What the comparisons decide -/

theorem isBitstrPrefix_iff (k0 k1 : Bitstr) : isBitstrPrefix k0 k1 = true ↔ k0 <+: k1 := by
  unfold isBitstrPrefix
  rw [Bool.and_eq_true, decide_eq_true_iff, beq_iff_eq, prefix_iff_eq_take]
  refine ⟨And.right, fun h => ⟨?_, h⟩⟩
  rw [h, length_take]
  exact Nat.min_le_right _ _

theorem isPrefix_iff {K0 K1 : Type} [BitKey K0] [BitKey K1] (k0 : K0) (k1 : K1) :
    isPrefix k0 k1 = true ↔ bits k0 <+: bits k1 := by
  unfold isPrefix
  split
  · next hlong =>
    simp only [Bool.false_eq_true, false_iff]
    intro hpre
    have hle := hpre.length_le
    unfold bitLen at hlong
    omega
  · next hshort =>
    unfold bitLen at hshort
    have hle : (bits k0).length ≤ (bits k1).length := by omega
    rw [all_eq_true, prefix_iff_getElem?]
    constructor
    · intro hall i hi
      have hbit := hall i (mem_range.mpr hi)
      rw [beq_iff_eq] at hbit
      have h1 : i < (bits k1).length := by omega
      rw [getElem?_bits k1 i h1, ← hbit]
      simp [bit, getElem?_eq_getElem hi]
    · intro hget i hi
      have hi' : i < (bits k0).length := mem_range.mp hi
      have hbit := hget i hi'
      rw [beq_iff_eq]
      simp [bit, hbit, getElem?_eq_getElem hi']

theorem shortestCoveredPrefix_isPrefix
    (sortClosestPeers : List PeerId → List UInt8 → List PeerId) (target : Bitstr)
    (peers : List PeerId) : (shortestCoveredPrefix sortClosestPeers target peers).1 <+: target := by
  unfold shortestCoveredPrefix
  split
  · exact prefix_rfl
  · exact take_prefix _ _

/-! ## The bytes of a key -/

/-- **Bytes of a key.** What holds of a key of whole bytes and its bytes, one byte at a time. -/
theorem keyToBytes_induction {motive : Bitstr → List UInt8 → Prop} (nil : motive [] [])
    (byte : ∀ b0 b1 b2 b3 b4 b5 b6 b7 rest bytes, motive rest bytes →
      motive (b0 :: b1 :: b2 :: b3 :: b4 :: b5 :: b6 :: b7 :: rest)
        (UInt8.ofNat (bitsValue [b0, b1, b2, b3, b4, b5, b6, b7]) :: bytes))
    {n : Nat} {k : Bitstr} (hlen : k.length = 8 * n) : motive k (keyToBytes k) := by
  have hbyte : ∀ b0 b1 b2 b3 b4 b5 b6 b7 : Bool, ∃ b, (∀ rest,
      keyToBytes (b0 :: b1 :: b2 :: b3 :: b4 :: b5 :: b6 :: b7 :: rest) = b :: keyToBytes rest) ∧
      b = UInt8.ofNat (bitsValue [b0, b1, b2, b3, b4, b5, b6, b7]) := by
    intro b0 b1 b2 b3 b4 b5 b6 b7
    refine ⟨_, fun rest => rfl, ?_⟩
    revert b0 b1 b2 b3 b4 b5 b6 b7
    decide +kernel
  induction n generalizing k with
  | zero =>
    rw [eq_nil_of_length_eq_zero hlen]
    exact nil
  | succ n ih =>
    match k, hlen with
    | b0 :: b1 :: b2 :: b3 :: b4 :: b5 :: b6 :: b7 :: rest, hlen =>
      obtain ⟨b, hbytes, hb⟩ := hbyte b0 b1 b2 b3 b4 b5 b6 b7
      have hrest : rest.length = 8 * n := by
        simp only [length_cons] at hlen
        omega
      rw [hbytes, hb]
      exact byte b0 b1 b2 b3 b4 b5 b6 b7 rest _ (ih hrest)

end KadDht
