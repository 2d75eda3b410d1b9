import KadDht.Keyspace.Key
import KadDht.Lib.Base64
import KadDht.Lib.Query
import Mathlib.Data.List.Flatten

/-!
# Keystore — the layout of the datastore (`provider/keystore/keystore.go`)

A multihash is stored under a key that spells out its kademlia identifier: the first `prefixBits`
bits are path components, the bytes after them are one more component in base64. The keys below a
prefix of the identifier are then found with a datastore query, and a prefix that is longer than
`prefixBits` is compared with the identifiers decoded from the keys.

* **`decodeKey_iff`** — when an identifier is read back from its key.
* **`exact_iff`** — when the two queries are exact.
-/

namespace KadDht.Keystore

open BitKey List DsM

/-! ## Options -/

def withPrefixBits (prefixBits : Int) : Except String Nat :=
  if prefixBits < 0 ∨ prefixBits > 256 ∨ prefixBits % 8 ≠ 0 then
    .error ("invalid prefix bits " ++ toString prefixBits ++
      ", must be a non-negative multiple of 8 less or equal to 256")
  else .ok prefixBits.toNat

variable {prefixBits i : Nat} {k pfx : Bitstr} {d : Datastore} {stored : List Multihash}

theorem withPrefixBits_ok {n : Int} (h : withPrefixBits n = .ok prefixBits) :
    prefixBits ≤ 256 ∧ prefixBits % 8 = 0 := by
  unfold withPrefixBits at h
  split at h
  · cases h
  · cases h
    omega

/-! ## Keys -/

def bitChar (b : Bool) : Char := if b then '1' else '0'

/-- The bytes of a full key that do not become path components. -/
def suffixBytes (k : Bitstr) (prefixBits : Nat) : List UInt8 :=
  (keyToBytes k).drop (prefixBits / 8)

def dsKey {K : Type} [BitKey K] (k : K) (prefixBits : Nat) : DsKey :=
  DsKey.new ((((bits k).take prefixBits).flatMap fun b => [bitChar b, '/']) ++
    if bitLen k = keyLen then Base64.encode (suffixBytes (bits k) prefixBits) else [])

def setBit (bs : List UInt8) (i : Nat) : List UInt8 :=
  bs.modify (i / 8) (· ||| (1 <<< UInt8.ofNat (7 - i % 8)))

/-- The loop of `decodeKey`, after `i` bits. An index outside of the string is a panic. -/
def decodeBits (dsk : List Char) : Nat → Except Failure (List UInt8)
  | 0 => .ok (List.replicate 32 0)
  | i + 1 => do
    let bs ← decodeBits dsk i
    match dsk[2 * i + 1]? with
    | none => .error .panic
    | some c => .ok (if c = '1' then setBit bs i else bs)

def byteBits (b : UInt8) : List Bool := (List.range 8).map fun i => b.toNat.testBit (7 - i)

def bytesBits (bs : List UInt8) : List Bool := bs.flatMap byteBits

def newKeyFromArray (bs : List UInt8) : Except Failure Bit256 :=
  if h : (bytesBits bs).length = 256 then .ok ⟨bytesBits bs, h⟩ else .error .panic

def decodeKey (prefixBits : Nat) (dsk : List Char) : Except Failure Bit256 := do
  let bs ← decodeBits dsk prefixBits
  if dsk.length < 2 * prefixBits + 1 then .error .panic
  else
    match Base64.decode (dsk.drop (2 * prefixBits + 1)) with
    | none => .error (.error "illegal base64 data")
    | some decoded =>
      if decoded.length ≠ 32 - prefixBits / 8 then
        .error (.error ("invalid decoded length: expected " ++ toString (keyLen - prefixBits / 8)
          ++ ", got " ++ toString decoded.length))
      else newKeyFromArray (bs.take (prefixBits / 8) ++ decoded)

/-! ## Queries -/

def getStep (prefixBits : Nat) (pfx : Bitstr) (out : List Multihash) (r : DsKey × Bytes) :
    Except Failure (List Multihash) :=
  if pfx.length > prefixBits then do
    let k ← decodeKey prefixBits r.1.path
    .ok (if isPrefix pfx k then out ++ [r.2] else out)
  else .ok (out ++ [r.2])

def get {σ : Type} (prefixBits : Nat) (pfx : Bitstr) : DsM σ (List Multihash) := do
  let results ← DsM.query (dsKey pfx prefixBits)
  DsM.ofExcept (results.foldlM (getStep prefixBits pfx) [])

def containsLoop (prefixBits : Nat) (pfx : Bitstr) : List (DsKey × Bytes) → Except Failure Bool
  | [] => .ok false
  | r :: results =>
    if pfx.length > prefixBits then do
      let k ← decodeKey prefixBits r.1.path
      if isPrefix pfx k then .ok true else containsLoop prefixBits pfx results
    else .ok true

/-- `containsPrefix`. A prefix that is not longer than `prefixBits` is queried with a limit of one
result. -/
def containsPrefix {σ : Type} (prefixBits : Nat) (pfx : Bitstr) : DsM σ Bool := do
  let results ← DsM.query (dsKey pfx prefixBits)
  DsM.ofExcept (containsLoop prefixBits pfx
    (if pfx.length > prefixBits then results else results.take 1))

/-! ## Bits and bytes -/

theorem length_byteBits (b : UInt8) : (byteBits b).length = 8 := by simp [byteBits]

@[simp] theorem bytesBits_nil : bytesBits [] = [] := rfl

@[simp] theorem bytesBits_cons (b : UInt8) (bs : List UInt8) :
    bytesBits (b :: bs) = byteBits b ++ bytesBits bs := rfl

theorem bytesBits_append (bs bs' : List UInt8) :
    bytesBits (bs ++ bs') = bytesBits bs ++ bytesBits bs' := flatMap_append

theorem length_bytesBits (bs : List UInt8) : (bytesBits bs).length = 8 * bs.length := by
  induction bs with
  | nil => rfl
  | cons b bs ih =>
    rw [bytesBits_cons, length_append, length_byteBits, ih, length_cons]
    omega

theorem bytesBits_take (bs : List UInt8) (n : Nat) :
    bytesBits (bs.take n) = (bytesBits bs).take (8 * n) := by
  induction bs generalizing n with
  | nil => simp
  | cons b bs ih =>
    cases n with
    | zero => simp
    | succ n =>
      have hbyte : (byteBits b).length ≤ 8 * (n + 1) := by
        rw [length_byteBits]
        omega
      rw [take_succ_cons, bytesBits_cons, bytesBits_cons, ih, take_append,
        take_of_length_le hbyte, length_byteBits, show 8 * (n + 1) - 8 = 8 * n by omega]

theorem bytesBits_drop (bs : List UInt8) (n : Nat) :
    bytesBits (bs.drop n) = (bytesBits bs).drop (8 * n) := by
  rw [← append_right_inj (bytesBits (bs.take n)), ← bytesBits_append, take_append_drop,
    bytesBits_take, take_append_drop]

/-- Setting a bit of a byte. -/
theorem byteBits_or (b : UInt8) {j : Nat} (hj : j < 8) :
    byteBits (b ||| (1 <<< UInt8.ofNat (7 - j))) = (byteBits b).set j true := by
  have hmask : ∀ j < 8, (1 <<< UInt8.ofNat (7 - j) : UInt8).toNat = 2 ^ (7 - j) := by decide
  refine ext_getElem (by simp [byteBits]) fun i hi _ => ?_
  rw [length_byteBits] at hi
  simp only [byteBits, getElem_map, getElem_range, getElem_set, UInt8.toNat_or,
    hmask j hj, Nat.testBit_or, Nat.testBit_two_pow]
  by_cases hij : j = i
  · simp [hij]
  · rw [if_neg hij, decide_eq_false (by omega), Bool.or_false]

theorem bytesBits_setBit {bs : List UInt8} (hi : i < 8 * bs.length) :
    bytesBits (setBit bs i) = (bytesBits bs).set i true := by
  have hmodify : ∀ (bs : List UInt8) (n j : Nat), n < bs.length → j < 8 →
      bytesBits (bs.modify n (· ||| (1 <<< UInt8.ofNat (7 - j)))) =
        (bytesBits bs).set (8 * n + j) true := by
    intro bs n j hn hj
    induction bs generalizing n with
    | nil => simp at hn
    | cons b bs ih =>
      cases n with
      | zero =>
        rw [modify_zero_cons, bytesBits_cons, bytesBits_cons, byteBits_or b hj, Nat.mul_zero,
          Nat.zero_add, set_append_left _ _ (by rwa [length_byteBits])]
      | succ n =>
        rw [modify_succ_cons, bytesBits_cons, bytesBits_cons,
          ih n (by simpa using hn), set_append_right _ _ (by rw [length_byteBits]; omega),
          length_byteBits]
        congr 2
        omega
  have hspec := hmodify bs (i / 8) (i % 8) (by omega) (Nat.mod_lt _ (by omega))
  rwa [Nat.div_add_mod] at hspec

theorem bytesBits_keyToBytes {n : Nat} (hlen : k.length = 8 * n) :
    bytesBits (keyToBytes k) = k := by
  have hbyte : ∀ b0 b1 b2 b3 b4 b5 b6 b7 : Bool,
      byteBits (UInt8.ofNat (bitsValue [b0, b1, b2, b3, b4, b5, b6, b7])) =
        [b0, b1, b2, b3, b4, b5, b6, b7] := by
    decide +kernel
  apply keyToBytes_induction (motive := fun k bytes => bytesBits bytes = k) rfl ?_ hlen
  intro b0 b1 b2 b3 b4 b5 b6 b7 rest bytes ih
  rw [bytesBits_cons, hbyte, ih]
  rfl

theorem length_keyToBytes (k : Bit256) : (keyToBytes k.bits).length = 32 := by
  have hbits := congrArg length (bytesBits_keyToBytes (n := 32) (k := k.bits) k.length_bits)
  rw [length_bytesBits, k.length_bits] at hbits
  omega

/-! ## The components of a key -/

def bitComponents (k : Bitstr) : List (List Char) := k.map fun b => [bitChar b]

theorem bitComponents_prefix_iff {k' : Bitstr} :
    bitComponents k <+: bitComponents k' ↔ k <+: k' := by
  refine prefix_map_iff_of_injective fun a b => ?_
  revert a b
  decide

theorem bitComponents_plain (k : Bitstr) : ∀ w ∈ bitComponents k, PlainComponent w := by
  intro w hw
  obtain ⟨b, -, rfl⟩ := mem_map.mp hw
  cases b with
  | false | true => exact ⟨by decide, by decide, by decide, by decide⟩

def suffixComponents (bs : List UInt8) : List (List Char) :=
  if Base64.encode bs = [] then [] else [Base64.encode bs]

theorem encode_plain (bs : List UInt8) :
    Base64.encode bs = [] ∨ PlainComponent (Base64.encode bs) := by
  by_cases hnil : Base64.encode bs = []
  · exact .inl hnil
  · have hdot : '.' ∉ Base64.encode bs := Base64.not_mem_encode bs (by decide) (by decide)
    refine .inr ⟨hnil, fun heq => ?_, fun heq => ?_,
      Base64.not_mem_encode bs (by decide) (by decide)⟩
    · rw [heq] at hdot
      simp at hdot
    · rw [heq] at hdot
      simp at hdot

theorem suffixComponents_plain (bs : List UInt8) : ∀ w ∈ suffixComponents bs, PlainComponent w := by
  intro w hw
  unfold suffixComponents at hw
  split at hw
  · simp at hw
  · next hne =>
    rw [mem_singleton.mp hw]
    exact (encode_plain bs).resolve_left hne

theorem flatMap_bits (k : Bitstr) :
    (k.flatMap fun b => [bitChar b, '/']) = (bitComponents k).flatMap fun w => w ++ ['/'] := by
  rw [bitComponents, flatMap_map]
  rfl

theorem path_dsKey_short (h : pfx.length < 256) (prefixBits : Nat) :
    (dsKey pfx prefixBits).path =
      '/' :: ['/'].intercalate (bitComponents (pfx.take prefixBits)) := by
  have hshort : ¬ bitLen pfx = keyLen := by
    show ¬ pfx.length = 256
    omega
  rw [dsKey, if_neg hshort, bits_list, flatMap_bits,
    DsKey.path_new_joined (bitComponents_plain _) (.inl rfl), if_pos rfl, append_nil]

def fullComponents (k : Bitstr) (prefixBits : Nat) : List (List Char) :=
  bitComponents (k.take prefixBits) ++ suffixComponents (suffixBytes k prefixBits)

theorem path_dsKey_full {K : Type} [BitKey K] {k : K} (h : bitLen k = keyLen) (prefixBits : Nat) :
    (dsKey k prefixBits).path = '/' :: ['/'].intercalate (fullComponents (bits k) prefixBits) := by
  rw [dsKey, if_pos h, flatMap_bits, DsKey.path_new_joined (bitComponents_plain _) (encode_plain _)]
  rfl

theorem fullComponents_plain (k : Bitstr) (prefixBits : Nat) :
    ∀ w ∈ fullComponents k prefixBits, PlainComponent w := by
  intro w hw
  rcases mem_append.mp hw with hw | hw
  · exact bitComponents_plain _ w hw
  · exact suffixComponents_plain _ w hw

theorem suffixComponents_eq {k : Bit256} (h : prefixBits < 256) :
    suffixComponents (suffixBytes k.bits prefixBits) =
      [Base64.encode (suffixBytes k.bits prefixBits)] := by
  refine if_neg fun hnil => ?_
  have hlen := congrArg length (Base64.encode_eq_nil.mp hnil)
  rw [suffixBytes, length_drop, length_keyToBytes, length_nil] at hlen
  omega

theorem length_fullComponents (k : Bit256) (h : prefixBits ≤ 256) :
    (fullComponents k.bits prefixBits).length =
      if prefixBits = 256 then 256 else prefixBits + 1 := by
  have hbits : (bitComponents (k.bits.take prefixBits)).length = prefixBits := by
    rw [bitComponents, length_map, length_take, k.length_bits]
    omega
  rw [fullComponents, length_append, hbits]
  split
  · next heq =>
    have hnil : suffixBytes k.bits prefixBits = [] := by
      rw [suffixBytes, heq]
      exact drop_eq_nil_of_le (by rw [length_keyToBytes])
    rw [hnil]
    exact heq
  · rw [suffixComponents_eq (by omega)]
    rfl

theorem path_dsKey_id (k : Bit256) (h : prefixBits ≤ 256) :
    (dsKey k prefixBits).path = joined (fullComponents k.bits prefixBits) := by
  have hne : fullComponents k.bits prefixBits ≠ [] := by
    intro hnil
    have hlen := length_fullComponents k h
    rw [hnil, length_nil] at hlen
    split at hlen
    · omega
    · omega
  rw [path_dsKey_full (show bitLen k = keyLen from k.length_bits), joined_eq_intercalate hne]
  rfl

/-! ## Decoding -/

theorem getElem?_joined_bits (k : Bitstr) (rest : List (List Char)) {b : Bool}
    (h : k[i]? = some b) : (joined (bitComponents k ++ rest))[2 * i + 1]? = some (bitChar b) := by
  induction k generalizing i with
  | nil => simp at h
  | cons a k ih =>
    cases i with
    | zero =>
      obtain rfl : a = b := by simpa using h
      rfl
    | succ i =>
      have htail := ih (i := i) (by simpa using h)
      show ('/' :: bitChar a :: joined (bitComponents k ++ rest))[2 * (i + 1) + 1]? = _
      rw [show 2 * (i + 1) + 1 = 2 * i + 1 + 1 + 1 by omega, getElem?_cons_succ,
        getElem?_cons_succ, htail]

theorem drop_joined_bits (k : Bitstr) (rest : List (List Char)) :
    (joined (bitComponents k ++ rest)).drop (2 * k.length) = joined rest := by
  induction k with
  | nil => rfl
  | cons a k ih =>
    show ('/' :: bitChar a :: joined (bitComponents k ++ rest)).drop (2 * (k.length + 1)) = _
    rw [show 2 * (k.length + 1) = 2 * k.length + 1 + 1 by omega, drop_succ_cons, drop_succ_cons, ih]

theorem length_setBit (bs : List UInt8) (i : Nat) : (setBit bs i).length = bs.length := by
  simp [setBit]

theorem bytesBits_zero (n : Nat) :
    bytesBits (List.replicate n 0) = List.replicate (8 * n) false := by
  induction n with
  | zero => rfl
  | succ n ih =>
    rw [replicate_succ, bytesBits_cons, ih, show byteBits 0 = replicate 8 false from rfl,
      replicate_append_replicate]
    congr 1
    omega

/-- **The loop of `decodeKey`** sets the bits that the components say. -/
theorem decodeBits_spec (hlen : k.length ≤ 256) (rest : List (List Char)) (hi : i ≤ k.length) :
    ∃ bs, decodeBits (joined (bitComponents k ++ rest)) i = .ok bs ∧ bs.length = 32 ∧
      bytesBits bs = k.take i ++ List.replicate (256 - i) false := by
  induction i with
  | zero => exact ⟨replicate 32 0, rfl, by simp, bytesBits_zero 32⟩
  | succ i ih =>
    obtain ⟨bs, hbs, hlen1, hbits⟩ := ih (by omega)
    obtain ⟨b, hb⟩ : ∃ b, k[i]? = some b := ⟨k[i], getElem?_eq_getElem hi⟩
    have hchar := getElem?_joined_bits k rest hb
    have htake : k.take (i + 1) = k.take i ++ [b] := by
      rw [take_add_one, hb]
      rfl
    have hzero : replicate (256 - i) false =
        false :: replicate (256 - (i + 1)) false := by
      rw [← replicate_succ]
      congr 1
      omega
    have hstep : decodeBits (joined (bitComponents k ++ rest)) (i + 1) =
        .ok (if bitChar b = '1' then setBit bs i else bs) := by
      show (decodeBits (joined (bitComponents k ++ rest)) i).bind _ = _
      rw [hbs]
      show (match (joined (bitComponents k ++ rest))[2 * i + 1]? with
        | none => _
        | some c => _) = _
      rw [hchar]
    refine ⟨_, hstep, ?_, ?_⟩
    · split
      · rw [length_setBit, hlen1]
      · exact hlen1
    · have hpos : (k.take i).length = i := length_take_of_le (by omega)
      cases b with
      | false =>
        rw [if_neg (by decide), hbits, hzero, htake, append_assoc]
        rfl
      | true =>
        rw [if_pos (by decide), bytesBits_setBit (by omega), hbits, hzero, htake,
          set_append_right _ _ (by omega), hpos, Nat.sub_self, append_assoc]
        rfl

/-- **`decodeKey` reads back the identifier** of a stored key. -/
theorem decodeKey_dsKey (k : Bit256) (hlt : prefixBits < 256) (hmod : prefixBits % 8 = 0) :
    decodeKey prefixBits (dsKey k prefixBits).path = .ok k := by
  have htake : (k.bits.take prefixBits).length = prefixBits :=
    length_take_of_le (by rw [k.length_bits]; omega)
  have hpath : (dsKey k prefixBits).path = joined (bitComponents (k.bits.take prefixBits) ++
      [Base64.encode (suffixBytes k.bits prefixBits)]) := by
    rw [path_dsKey_id k (by omega), fullComponents, suffixComponents_eq hlt]
  obtain ⟨bs, hbs, hlen, hbits⟩ := decodeBits_spec (k := k.bits.take prefixBits) (by omega)
    [Base64.encode (suffixBytes k.bits prefixBits)] (i := prefixBits) (by omega)
  have hdrop := drop_joined_bits (k.bits.take prefixBits)
    [Base64.encode (suffixBytes k.bits prefixBits)]
  rw [htake] at hdrop
  have hsuffix : (dsKey k prefixBits).path.drop (2 * prefixBits + 1) =
      Base64.encode (suffixBytes k.bits prefixBits) := by
    rw [hpath, ← drop_drop, hdrop]
    simp
  have hlong : ¬ (dsKey k prefixBits).path.length < 2 * prefixBits + 1 := by
    intro hshort
    have hnil := drop_eq_nil_of_le (Nat.le_of_lt_succ hshort)
    rw [hpath, hdrop] at hnil
    simp at hnil
  have hdecoded : (suffixBytes k.bits prefixBits).length = 32 - prefixBits / 8 := by
    rw [suffixBytes, length_drop, length_keyToBytes]
  -- the bytes before the suffix hold the first bits, the suffix holds the others
  have hall : bytesBits (bs.take (prefixBits / 8) ++ suffixBytes k.bits prefixBits) = k.bits := by
    have haligned : 8 * (prefixBits / 8) = prefixBits := by omega
    rw [bytesBits_append, bytesBits_take, haligned, hbits, suffixBytes, bytesBits_drop, haligned,
      bytesBits_keyToBytes (n := 32) k.length_bits, take_append_of_le_length (by
        rw [take_take, Nat.min_self, htake]), take_take, Nat.min_self, take_take,
      Nat.min_self, take_append_drop]
  unfold decodeKey
  rw [show decodeBits (dsKey k prefixBits).path prefixBits = .ok bs from hpath ▸ hbs]
  show (if (dsKey k prefixBits).path.length < 2 * prefixBits + 1 then _ else _) = _
  rw [if_neg hlong, hsuffix, Base64.decode_encode]
  show (if (suffixBytes k.bits prefixBits).length ≠ 32 - prefixBits / 8 then _ else _) = _
  rw [if_neg (not_not.mpr hdecoded), newKeyFromArray, dif_pos (by rw [hall]; exact k.length_bits)]
  congr 1
  exact bits_injective hall

/-! ## Distinct keys -/

theorem cleanComponents_dsKey (k : Bit256) (prefixBits : Nat) :
    cleanComponents (dsKey k prefixBits).path = fullComponents k.bits prefixBits := by
  rw [path_dsKey_full (show bitLen k = keyLen from k.length_bits)]
  exact (cleanComponents_intercalate _ (fullComponents_plain _ _)).2

/-- **Distinct identifiers have distinct keys.** -/
theorem dsKey_injective (hmod : prefixBits % 8 = 0) :
    Function.Injective fun k : Bit256 => dsKey k prefixBits := by
  intro k k' heq
  have heq : dsKey k prefixBits = dsKey k' prefixBits := heq
  by_cases hlt : prefixBits < 256
  · have hread := decodeKey_dsKey k hlt hmod
    rw [heq, decodeKey_dsKey k' hlt hmod] at hread
    exact (Except.ok.inj hread).symm
  -- all bits are components
  · have hcomponents := cleanComponents_dsKey k prefixBits
    rw [heq, cleanComponents_dsKey, fullComponents, fullComponents,
      take_of_length_le (k'.length_bits.le.trans (not_lt.mp hlt)),
      take_of_length_le (k.length_bits.le.trans (not_lt.mp hlt))] at hcomponents
    have hlen : k'.bits.length = k.bits.length := k'.length_bits.trans k.length_bits.symm
    have hfirst := append_inj_left hcomponents (by simpa [bitComponents] using hlen)
    have hpre : k'.bits <+: k.bits := bitComponents_prefix_iff.mp (by rw [hfirst])
    exact (bits_injective (hpre.eq_of_length hlen)).symm

/-- When all bits are path components there is no suffix, and no slash in front of it. -/
theorem decodeKey_panics (k : Bit256) : decodeKey 256 (dsKey k 256).path = .error .panic := by
  have hpath : (dsKey k 256).path = joined (bitComponents k.bits ++ []) := by
    rw [path_dsKey_id k (le_refl _), fullComponents, take_of_length_le k.length_bits.le,
      suffixBytes, drop_eq_nil_of_le (length_keyToBytes k).le]
    rfl
  obtain ⟨bs, hbs, -⟩ := decodeBits_spec (k := k.bits) k.length_bits.le [] (i := 256)
    k.length_bits.ge
  have hdrop := drop_joined_bits k.bits []
  rw [k.length_bits] at hdrop
  unfold decodeKey
  rw [hpath, hbs]
  exact if_pos (Nat.lt_succ_of_le (drop_eq_nil_iff.mp hdrop))

/-- **Keys that can be read back.** For every accepted `prefixBits` distinct identifiers have
distinct keys, and an identifier is read back from its key unless all its bits are components. -/
theorem decodeKey_iff {n : Int} {prefixBits : Nat} (haccepted : withPrefixBits n = .ok prefixBits) :
    (∀ k : Bit256, decodeKey prefixBits (dsKey k prefixBits).path = .ok k ↔ prefixBits ≠ 256) ∧
      Function.Injective fun k : Bit256 => dsKey k prefixBits := by
  obtain ⟨hbits, hmod⟩ := withPrefixBits_ok haccepted
  refine ⟨fun k => ⟨?_, fun hne => ?_⟩, dsKey_injective hmod⟩
  · rintro hok rfl
    cases (decodeKey_panics k).symm.trans hok
  · exact decodeKey_dsKey k (lt_of_le_of_ne hbits hne) hmod

theorem decodeKey_sixteen :
    withPrefixBits 16 = .ok 16 ∧ decodeKey 16 (dsKey zeroKey 16).path = .ok zeroKey :=
  ⟨rfl, ((decodeKey_iff (n := 16) rfl).1 zeroKey).mpr (by decide)⟩

theorem decodeKey_allBits :
    withPrefixBits 256 = .ok 256 ∧ decodeKey 256 (dsKey zeroKey 256).path = .error .panic :=
  ⟨rfl, decodeKey_panics zeroKey⟩

def sizeKey : DsKey := DsKey.new ['s', 'i', 'z', 'e']

theorem dsKey_ne_sizeKey (k : Bit256) (hbits : prefixBits ≤ 256) :
    dsKey k prefixBits ≠ sizeKey := by
  intro heq
  have hcomponents : fullComponents k.bits prefixBits = [['s', 'i', 'z', 'e']] := by
    rw [← cleanComponents_dsKey, heq]
    rfl
  have hlen := length_fullComponents k hbits
  rw [hcomponents, length_singleton] at hlen
  -- it would be the only component, and a suffix of 32 bytes is longer
  have hzero : prefixBits = 0 := by
    split at hlen
    · omega
    · omega
  subst hzero
  rw [fullComponents, take_zero, suffixComponents_eq (by omega)] at hcomponents
  have hdecoded := congrArg Base64.decode (head_eq_of_cons_eq hcomponents)
  rw [Base64.decode_encode] at hdecoded
  have hlength := congrArg (Option.map length) hdecoded
  rw [Option.map_some, suffixBytes, length_drop, length_keyToBytes] at hlength
  revert hlength
  decide

/-! ## Exact queries -/

def entryOf (prefixBits : Nat) (h : Multihash) : DsKey × Bytes :=
  (dsKey (mhToBit256 h) prefixBits, h)

/-- The datastore holds the given multihashes. Its keys are distinct, so their identifiers are. -/
def Stores (prefixBits : Nat) (d : Datastore) (stored : List Multihash) : Prop :=
  d.entries.Perm (stored.map (entryOf prefixBits))

def below (stored : List Multihash) (pfx : Bitstr) : List Multihash :=
  stored.filter fun h => decide (pfx <+: (mhToBit256 h).bits)

/-- `Get` returns exactly the multihashes below the prefix, each once, and `ContainsPrefix` tells
whether there are any. -/
def Exact (prefixBits : Nat) (d : Datastore) (stored : List Multihash) (pfx : Bitstr) : Prop :=
  (∃ out, DsM.Returns (get prefixBits pfx) () d out () d ∧ out.Perm (below stored pfx)) ∧
    DsM.Returns (containsPrefix prefixBits pfx) () d
      (decide (∃ h ∈ stored, pfx <+: (mhToBit256 h).bits)) () d

/-- A prefix that is not a full identifier is queried by its first bits. -/
theorem query_iff (hlen : pfx.length < 256) (hbits : prefixBits ≤ 256) (k : Bit256) :
    ((dsKey pfx prefixBits).path = ['/'] ∨
        (dsKey pfx prefixBits).path ++ ['/'] <+: (dsKey k prefixBits).path) ↔
      pfx.take prefixBits <+: k.bits := by
  rw [path_dsKey_short hlen]
  have hle : (pfx.take prefixBits).length ≤ prefixBits := by
    rw [length_take]
    omega
  have hlt : (pfx.take prefixBits).length < 256 := by
    rw [length_take]
    omega
  generalize pfx.take prefixBits = q at hle hlt
  cases hq : q with
  | nil => exact ⟨fun _ => nil_prefix, fun _ => .inl rfl⟩
  | cons b q' =>
    rw [← hq]
    have hne : bitComponents q ≠ [] := by
      rw [hq]
      exact cons_ne_nil _ _
    have hroot : joined (bitComponents q) ≠ ['/'] :=
      joined_ne_root fun w hw => (bitComponents_plain q w hw).ne_nil
    rw [← joined_eq_intercalate hne, path_dsKey_id k hbits,
      joined_prefix_iff (fun w hw => (bitComponents_plain q w hw).no_slash)
        (fun w hw => (fullComponents_plain k.bits prefixBits w hw).no_slash), or_iff_right hroot]
    constructor
    · rintro ⟨v, rest, heq⟩
      have hfull : bitComponents q <+: fullComponents k.bits prefixBits := ⟨v :: rest, heq.symm⟩
      have hpre : bitComponents q <+: bitComponents (k.bits.take prefixBits) := by
        apply prefix_of_prefix_length_le hfull (prefix_append _ _)
        rw [bitComponents, length_map, bitComponents, length_map, length_take, k.length_bits]
        omega
      exact (bitComponents_prefix_iff.mp hpre).trans (List.take_prefix _ _)
    · intro hpre
      have htake : q <+: k.bits.take prefixBits := by
        apply prefix_of_prefix_length_le hpre (List.take_prefix _ _)
        rw [length_take, k.length_bits]
        omega
      have hfull : bitComponents q <+: fullComponents k.bits prefixBits :=
        (bitComponents_prefix_iff.mpr htake).trans (prefix_append _ _)
      obtain ⟨rest, hrest⟩ := hfull
      -- a full identifier has more components than its part
      cases rest with
      | nil =>
        have hlength := congrArg length hrest
        rw [append_nil, bitComponents, length_map, length_fullComponents k hbits] at hlength
        split at hlength
        · omega
        · omega
      | cons v rest => exact ⟨v, rest, hrest.symm⟩

/-- Nothing is below a full identifier. -/
theorem query_full (hlen : pfx.length = 256) (hbits : prefixBits ≤ 256) (k : Bit256) :
    ¬ ((dsKey pfx prefixBits).path = ['/'] ∨
        (dsKey pfx prefixBits).path ++ ['/'] <+: (dsKey k prefixBits).path) := by
  -- the key of the prefix is the key of the identifier that it is
  have hkey : dsKey pfx prefixBits = dsKey (⟨pfx, hlen⟩ : Bit256) prefixBits := rfl
  rw [hkey, path_dsKey_id _ hbits, path_dsKey_id k hbits,
    joined_prefix_iff (fun w hw => (fullComponents_plain pfx prefixBits w hw).no_slash)
      (fun w hw => (fullComponents_plain k.bits prefixBits w hw).no_slash)]
  have hlength := length_fullComponents ⟨pfx, hlen⟩ hbits
  rintro (hroot | ⟨v, rest, heq⟩)
  · exact joined_ne_root (fun w hw => (fullComponents_plain pfx prefixBits w hw).ne_nil) hroot
  · have hlength' := congrArg length heq
    rw [length_fullComponents k hbits, length_append, hlength, length_cons] at hlength'
    omega

/-- What a query returns. -/
theorem query_perm {prefixBits : Nat} {d : Datastore} {stored : List Multihash}
    (hstores : Stores prefixBits d stored) (pfx : DsKey) (wanted : Bit256 → Prop)
    [DecidablePred wanted]
    (hwanted : ∀ k : Bit256, (pfx.path = ['/'] ∨
      pfx.path ++ ['/'] <+: (dsKey k prefixBits).path) ↔ wanted k) :
    (d.query pfx).Perm ((stored.filter fun h => decide (wanted (mhToBit256 h))).map
      (entryOf prefixBits)) := by
  have hquery : d.query pfx = d.entries.filter fun e =>
      decide (pfx.path = ['/'] ∨ pfx.path ++ ['/'] <+: e.1.path) := by
    unfold Datastore.query
    split
    · next hroot => simp [hroot]
    · next hroot => simp [hroot, ← isPrefixOf_iff_prefix]
  rw [hquery]
  refine (hstores.filter _).trans (List.Perm.of_eq ?_)
  rw [filter_map]
  congr 1
  refine filter_congr fun h _ => ?_
  exact decide_eq_decide.mpr (hwanted (mhToBit256 h))

def Result (prefixBits : Nat) (pfx : Bitstr) (r : DsKey × Bytes) : Prop :=
  r.1 = dsKey (mhToBit256 r.2) prefixBits ∧ pfx.take prefixBits <+: (mhToBit256 r.2).bits

/-- A prefix that is not longer than `prefixBits` matches every result; a longer one is compared
with the decoded identifier. -/
theorem Result.long_or {r : DsKey × Bytes} (h : Result prefixBits pfx r) (hlen : pfx.length < 256)
    (hmod : prefixBits % 8 = 0) :
    if pfx.length > prefixBits then decodeKey prefixBits r.1.path = .ok (mhToBit256 r.2)
    else pfx <+: (mhToBit256 r.2).bits := by
  split
  · next hlong =>
    rw [h.1]
    exact decodeKey_dsKey _ (by omega) hmod
  · next hshort =>
    have hpre := h.2
    rwa [take_of_length_le (by omega)] at hpre

theorem foldlM_getStep (hlen : pfx.length < 256) (hmod : prefixBits % 8 = 0)
    (results : List (DsKey × Bytes)) (h : ∀ r ∈ results, Result prefixBits pfx r)
    (out : List Multihash) :
    results.foldlM (getStep prefixBits pfx) out =
      .ok (out ++ below (results.map Prod.snd) pfx) := by
  induction results generalizing out with
  | nil =>
    rw [map_nil, below, filter_nil, append_nil]
    rfl
  | cons r results ih =>
    have hr := (h r mem_cons_self).long_or hlen hmod
    have hstep : getStep prefixBits pfx out r = .ok (out ++ below [r.2] pfx) := by
      unfold getStep
      split at hr
      · next hlong =>
        rw [if_pos hlong, hr]
        show Except.ok (if isPrefix pfx (mhToBit256 r.2) then _ else _) = _
        have hiff := isPrefix_iff pfx (mhToBit256 r.2)
        by_cases hpre : pfx <+: (mhToBit256 r.2).bits
        · simp [below, hpre, hiff.mpr hpre]
        · simp [below, hpre, mt hiff.mp hpre]
      · next hshort =>
        rw [if_neg hshort]
        simp [below, hr]
    have hrest := ih (fun r' hr' => h r' (mem_cons_of_mem r hr')) (out ++ below [r.2] pfx)
    rw [foldlM_cons, hstep]
    refine hrest.trans ?_
    rw [append_assoc, below, below, ← filter_append]
    rfl

theorem containsLoop_eq (hlen : pfx.length < 256) (hmod : prefixBits % 8 = 0)
    (results : List (DsKey × Bytes)) (h : ∀ r ∈ results, Result prefixBits pfx r) :
    containsLoop prefixBits pfx results =
      .ok (results.any fun r => decide (pfx <+: (mhToBit256 r.2).bits)) := by
  induction results with
  | nil => rfl
  | cons r results ih =>
    have hr := (h r mem_cons_self).long_or hlen hmod
    have hrest := ih fun r' hr' => h r' (mem_cons_of_mem r hr')
    unfold containsLoop
    split at hr
    · next hlong =>
      rw [if_pos hlong, hr, any_cons]
      show (if isPrefix pfx (mhToBit256 r.2) then _ else _) = _
      have hiff := isPrefix_iff pfx (mhToBit256 r.2)
      by_cases hpre : pfx <+: (mhToBit256 r.2).bits
      · simp [hpre, hiff.mpr hpre]
      · simp [hpre, mt hiff.mp hpre, hrest]
    · next hshort =>
      rw [if_neg hshort]
      simp [hr]

/-- The results of the query for a prefix of fewer than 256 bits: of their values, those that match
the prefix are those that match it of all that are stored. -/
theorem query_short (hbits : prefixBits ≤ 256) (hstores : Stores prefixBits d stored)
    (hlen : pfx.length < 256) :
    (∀ r ∈ d.query (dsKey pfx prefixBits), Result prefixBits pfx r) ∧
      (below ((d.query (dsKey pfx prefixBits)).map Prod.snd) pfx).Perm (below stored pfx) := by
  have hperm := query_perm hstores (dsKey pfx prefixBits)
    (fun k => pfx.take prefixBits <+: k.bits) (query_iff hlen hbits)
  constructor
  · intro r hr
    obtain ⟨h, hh, rfl⟩ := mem_map.mp (hperm.mem_iff.mp hr)
    exact ⟨rfl, of_decide_eq_true (mem_filter.mp hh).2⟩
  · -- the values are the multihashes that match the first bits
    have hvalues : ((d.query (dsKey pfx prefixBits)).map Prod.snd).Perm
        (below stored (pfx.take prefixBits)) := by
      have hmap := hperm.map Prod.snd
      rw [map_map] at hmap
      exact hmap.trans (List.Perm.of_eq (map_id _))
    have hbelow : below (below stored (pfx.take prefixBits)) pfx = below stored pfx := by
      rw [below, below, below, filter_filter]
      refine filter_congr fun h _ => ?_
      by_cases hpre : pfx <+: (mhToBit256 h).bits
      · simp [hpre, (List.take_prefix prefixBits pfx).trans hpre]
      · simp [hpre]
    rw [← hbelow]
    exact hvalues.filter _

/-- Any result matches a prefix that is not longer than `prefixBits`: the first one will do. -/
theorem any_take_one (hmod : prefixBits % 8 = 0) (hlen : pfx.length < 256)
    {results : List (DsKey × Bytes)} (hresult : ∀ r ∈ results, Result prefixBits pfx r)
    (hshort : ¬ pfx.length > prefixBits) :
    ((results.take 1).any fun r => decide (pfx <+: (mhToBit256 r.2).bits)) =
      results.any fun r => decide (pfx <+: (mhToBit256 r.2).bits) := by
  cases results with
  | nil => rfl
  | cons r rest =>
    have hr := (hresult r mem_cons_self).long_or hlen hmod
    rw [if_neg hshort] at hr
    simp [hr]

/-- **Prefixes of fewer than 256 bits.** The queries are exact. -/
theorem exact_of_short (hbits : prefixBits ≤ 256) (hmod : prefixBits % 8 = 0)
    (hstores : Stores prefixBits d stored) (hlen : pfx.length < 256) :
    Exact prefixBits d stored pfx := by
  obtain ⟨hresult, hout⟩ := query_short hbits hstores hlen
  refine ⟨⟨_, (returns_query _).bind (returns_ofExcept
    (foldlM_getStep hlen hmod _ hresult [])), hout⟩, ?_⟩
  refine (returns_query _).bind (returns_ofExcept ?_)
  have hany : ((d.query (dsKey pfx prefixBits)).any fun r =>
      decide (pfx <+: (mhToBit256 r.2).bits)) =
        decide (∃ h ∈ stored, pfx <+: (mhToBit256 h).bits) := by
    have hmem : ∀ h, (h ∈ (d.query (dsKey pfx prefixBits)).map Prod.snd ∧
        pfx <+: (mhToBit256 h).bits) ↔ h ∈ stored ∧ pfx <+: (mhToBit256 h).bits := by
      intro h
      simpa only [below, mem_filter, decide_eq_true_iff] using hout.mem_iff (a := h)
    rw [Bool.eq_iff_iff, any_eq_true, decide_eq_true_iff]
    simp only [decide_eq_true_iff, ← hmem, mem_map, exists_exists_and_eq_and]
  rw [← hany]
  split
  · exact containsLoop_eq hlen hmod _ hresult
  · next hshort =>
    rw [containsLoop_eq hlen hmod _ fun r hr => hresult r (mem_of_mem_take hr),
      any_take_one hmod hlen hresult hshort]

/-- **Prefixes of 256 bits.** The queries find nothing. -/
theorem returns_of_full (hbits : prefixBits ≤ 256) (hstores : Stores prefixBits d stored)
    (hlen : pfx.length = 256) :
    DsM.Returns (get prefixBits pfx) () d [] () d ∧
      DsM.Returns (containsPrefix prefixBits pfx) () d false () d := by
  have hperm := query_perm hstores (dsKey pfx prefixBits) (fun _ => False)
    fun k => iff_false_intro (query_full hlen hbits k)
  have hnil : d.query (dsKey pfx prefixBits) = [] := by
    refine List.Perm.eq_nil (hperm.trans (List.Perm.of_eq ?_))
    simp
  have hquery : DsM.Returns (query (dsKey pfx prefixBits) : DsM Unit _) () d [] () d := by
    have hreturns := returns_query (c := ()) (d := d) (dsKey pfx prefixBits)
    rwa [hnil] at hreturns
  refine ⟨hquery.bind (returns_ofExcept rfl), hquery.bind (returns_ofExcept ?_)⟩
  rw [take_nil, ite_self]
  rfl

/-- **Exact queries.** For every accepted `prefixBits`, `Get` and `ContainsPrefix` are exact on the
prefixes of fewer than 256 bits, and on the full identifiers that are not stored. -/
theorem exact_iff {n : Int} {prefixBits : Nat} (haccepted : withPrefixBits n = .ok prefixBits)
    {d : Datastore} {stored : List Multihash} (hstores : Stores prefixBits d stored)
    {pfx : Bitstr} (hlen : pfx.length ≤ 256) :
    Exact prefixBits d stored pfx ↔
      pfx.length < 256 ∨ ∀ h ∈ stored, (mhToBit256 h).bits ≠ pfx := by
  obtain ⟨hbits, hmod⟩ := withPrefixBits_ok haccepted
  by_cases hshort : pfx.length < 256
  · exact ⟨fun _ => .inl hshort, fun _ => exact_of_short hbits hmod hstores hshort⟩
  · have hfull : pfx.length = 256 := by omega
    -- an identifier starts with a full identifier only when it is this one
    have hsame : ∀ h : Multihash, pfx <+: (mhToBit256 h).bits ↔ (mhToBit256 h).bits = pfx := by
      intro h
      constructor
      · intro hpre
        exact (hpre.eq_of_length (hfull.trans (mhToBit256 h).length_bits.symm)).symm
      · intro heq
        rw [heq]
    obtain ⟨hget, hcontains⟩ := returns_of_full hbits hstores hfull
    rw [or_iff_right hshort]
    constructor
    · intro hexact h hh heq
      have hfound := hexact.2.result_eq hcontains
      exact of_decide_eq_false hfound ⟨h, hh, (hsame h).mpr heq⟩
    · intro hnone
      have hno : ¬ ∃ h ∈ stored, pfx <+: (mhToBit256 h).bits := by
        rintro ⟨h, hh, hpre⟩
        exact hnone h hh ((hsame h).mp hpre)
      refine ⟨⟨[], hget, List.Perm.of_eq (Eq.symm ?_)⟩, ?_⟩
      · refine filter_eq_nil_iff.mpr fun h hh hpre => hno ⟨h, hh, of_decide_eq_true hpre⟩
      · rw [decide_eq_false hno]
        exact hcontains

def oneStored : Datastore := ⟨[entryOf 16 [0, 1, 2]], List.nodup_singleton _⟩

theorem oneStored_stores : Stores 16 oneStored [[0, 1, 2]] := List.Perm.refl _

/-- A stored multihash is not found by its full identifier. -/
theorem full_identifier_not_found :
    Stores 16 oneStored [[0, 1, 2]] ∧
      ¬ Exact 16 oneStored [[0, 1, 2]] (mhToBit256 [0, 1, 2]).bits := by
  refine ⟨oneStored_stores, fun hexact => ?_⟩
  have hfound := hexact.2.result_eq
    (returns_of_full (by decide) oneStored_stores (mhToBit256 [0, 1, 2]).length_bits).2
  exact of_decide_eq_false hfound ⟨[0, 1, 2], mem_singleton_self _, prefix_rfl⟩

/-- It is found by a prefix that is longer than `prefixBits`. -/
theorem exact_oneStored :
    withPrefixBits 16 = .ok 16 ∧ Stores 16 oneStored [[0, 1, 2]] ∧
      Exact 16 oneStored [[0, 1, 2]] ((mhToBit256 [0, 1, 2]).bits.take 20) := by
  have hlen : ((mhToBit256 [0, 1, 2]).bits.take 20).length ≤ 20 := length_take_le _ _
  exact ⟨rfl, oneStored_stores, (exact_iff (n := 16) rfl oneStored_stores (by omega)).mpr
    (.inl (by omega))⟩

end KadDht.Keystore
