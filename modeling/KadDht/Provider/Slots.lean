import KadDht.Lib.Int64
import KadDht.Provider.Schedule

/-!
# Provider — the time slot of a prefix (`reprovideTimeForPrefix`)

A prefix of `n` bits gets one of `2 ^ n` slots of the reprovide cycle: the interval times its index
in the order around `order`, divided by `2 ^ n`. The product is taken first, in 64 bits, and wraps
around when the interval is long.

* **`slotsCorrect_iff`** — when the slots are correct.
-/

namespace KadDht

open BitKey List

namespace SweepingProvider

/-- The slots of all prefixes of up to `keyLen` bits lie in the reprovide cycle, and are ordered
as the prefixes are. -/
structure SlotsCorrect (config : Config) : Prop where
  range : ∀ p : Bitstr, p.length ≤ keyLen → 0 ≤ reprovideTimeForPrefix config p ∧
    reprovideTimeForPrefix config p < config.reprovideInterval
  mono : ∀ p q : Bitstr, p.length ≤ keyLen → q.length ≤ keyLen → XorBefore config.order.bits p q →
    reprovideTimeForPrefix config p ≤ reprovideTimeForPrefix config q

/-! ## The slot as a quotient -/

def slotIndex (config : Config) (p : Bitstr) : Nat :=
  bitsValue (xorBits config.order.bits (p.take maxPrefixSize))

def slotBits (p : Bitstr) : Nat := (p.take maxPrefixSize).length

theorem slotBits_le (p : Bitstr) : slotBits p ≤ maxPrefixSize := length_take_le _ p

theorem length_take_le_order (config : Config) (p : Bitstr) :
    (p.take maxPrefixSize).length ≤ config.order.bits.length := by
  rw [config.order.length_bits]
  exact (slotBits_le p).trans (by decide)

theorem slotIndex_lt (config : Config) (p : Bitstr) : slotIndex config p < 2 ^ slotBits p := by
  have hlt := bitsValue_lt (xorBits config.order.bits (p.take maxPrefixSize))
  rwa [length_xorBits (length_take_le_order config p)] at hlt

theorem reprovideTimeForPrefix_eq (config : Config) (p : Bitstr) :
    reprovideTimeForPrefix config p
      = config.reprovideInterval * Int64.ofNat (slotIndex config p)
          / Int64.ofNat (2 ^ slotBits p) := by
  cases p with
  | nil =>
    have hindex : slotIndex config [] = 0 := rfl
    rw [hindex]
    simp [reprovideTimeForPrefix]
  | cons b p =>
    have hindex : bitsValue (zipWith xor ((b :: p).take maxPrefixSize)
        (config.order.bits.take ((b :: p).take maxPrefixSize).length))
          = slotIndex config (b :: p) :=
      congrArg bitsValue (xorBits_take config.order.bits ((b :: p).take maxPrefixSize))
    rw [← hindex]
    rfl

theorem interval_pos (config : Config) : 0 < config.reprovideInterval.toInt := by
  have hpos := Int64.lt_iff_toInt_lt.mp config.reprovideInterval_pos
  rwa [Int64.toInt_zero] at hpos

theorem toInt_slotIndex (config : Config) (p : Bitstr) :
    (Int64.ofNat (slotIndex config p)).toInt = slotIndex config p := by
  apply Int64.toInt_ofNat_of_lt
  have hle : 2 ^ slotBits p ≤ 2 ^ maxPrefixSize := Nat.pow_le_pow_right (by decide) (slotBits_le p)
  have hlt := slotIndex_lt config p
  have hmax : 2 ^ maxPrefixSize < 2 ^ 63 := by decide
  omega

theorem toInt_slotCount (p : Bitstr) : (Int64.ofNat (2 ^ slotBits p)).toInt = 2 ^ slotBits p := by
  have hlt : 2 ^ slotBits p < 2 ^ 63 :=
    Nat.pow_lt_pow_right (by decide) ((slotBits_le p).trans_lt (by decide))
  rw [Int64.toInt_ofNat_of_lt hlt]
  push_cast
  rfl

/-- **The slot**, when the product fits into 64 bits. -/
theorem toInt_reprovideTimeForPrefix (config : Config) (p : Bitstr)
    (h : config.reprovideInterval.toInt * slotIndex config p < 2 ^ 63) :
    (reprovideTimeForPrefix config p).toInt
      = config.reprovideInterval.toInt * slotIndex config p / 2 ^ slotBits p := by
  have hnonneg : 0 ≤ config.reprovideInterval.toInt * (slotIndex config p : Int) :=
    Int.mul_nonneg (interval_pos config).le (Int.natCast_nonneg _)
  have hmul : (config.reprovideInterval * Int64.ofNat (slotIndex config p)).toInt
      = config.reprovideInterval.toInt * slotIndex config p := by
    rw [Machine.toInt_mul_eq, toInt_slotIndex]
    · rw [toInt_slotIndex]
      omega
    · rwa [toInt_slotIndex]
  rw [reprovideTimeForPrefix_eq, Machine.toInt_div_eq (hmul.symm ▸ hnonneg), hmul, toInt_slotCount]

/-! ## Slots that fit -/

/-- The largest product that the slot of a prefix needs fits into 64 bits. -/
def SlotsFit (config : Config) : Prop :=
  config.reprovideInterval.toInt * (2 ^ maxPrefixSize - 1) < 2 ^ 63

instance (config : Config) : Decidable (SlotsFit config) :=
  inferInstanceAs (Decidable (_ < _))

variable {config : Config} {p q : Bitstr}

theorem SlotsFit.product_lt (h : SlotsFit config) (p : Bitstr) :
    config.reprovideInterval.toInt * slotIndex config p < 2 ^ 63 := by
  have hlt := slotIndex_lt config p
  have hle : 2 ^ slotBits p ≤ 2 ^ maxPrefixSize := Nat.pow_le_pow_right (by decide) (slotBits_le p)
  have hindex : (slotIndex config p : Int) ≤ 2 ^ maxPrefixSize - 1 := by
    have hnat : slotIndex config p + 1 ≤ 2 ^ maxPrefixSize := by omega
    have hint : ((slotIndex config p + 1 : Nat) : Int) ≤ ((2 ^ maxPrefixSize : Nat) : Int) :=
      Int.ofNat_le.mpr hnat
    push_cast at hint
    omega
  exact lt_of_le_of_lt (mul_le_mul_of_nonneg_left hindex (interval_pos config).le) h

theorem SlotsFit.range (h : SlotsFit config) (p : Bitstr) :
    0 ≤ reprovideTimeForPrefix config p ∧
      reprovideTimeForPrefix config p < config.reprovideInterval := by
  have hpos := interval_pos config
  have hcount : (0 : Int) < 2 ^ slotBits p := by positivity
  have hindex : (slotIndex config p : Int) < 2 ^ slotBits p := by
    exact_mod_cast slotIndex_lt config p
  rw [Int64.le_iff_toInt_le, Int64.lt_iff_toInt_lt, Int64.toInt_zero,
    toInt_reprovideTimeForPrefix config p (h.product_lt p)]
  refine ⟨Int.ediv_nonneg (Int.mul_nonneg hpos.le (Int.natCast_nonneg _)) hcount.le, ?_⟩
  apply Int.ediv_lt_of_lt_mul hcount
  exact mul_lt_mul_of_pos_left hindex hpos

/-- Prefixes that part ways among the bits that count keep their order; the others get the same
slot. -/
theorem xorBefore_take {x : Bitstr} (h : XorBefore x p q) (n : Nat) :
    XorBefore x (p.take n) (q.take n) ∨ p.take n = q.take n := by
  obtain ⟨c, hp, hq⟩ := h
  by_cases hc : c.length < n
  · refine .inl ⟨c, prefix_take_iff.mpr ⟨hp, ?_⟩, prefix_take_iff.mpr ⟨hq, ?_⟩⟩
    · rwa [length_append]
    · rwa [length_append]
  · have hle : n ≤ c.length := Nat.le_of_not_lt hc
    have htake : ∀ {r : Bitstr}, c <+: r → r.take n = c.take n := by
      intro r hr
      obtain ⟨rest, rfl⟩ := hr
      exact take_append_of_le_length hle
    exact .inr ((htake ((prefix_append c _).trans hp)).trans
      (htake ((prefix_append c _).trans hq)).symm)

theorem SlotsFit.mono (h : SlotsFit config) (hpq : XorBefore config.order.bits p q) :
    reprovideTimeForPrefix config p ≤ reprovideTimeForPrefix config q := by
  rcases xorBefore_take hpq maxPrefixSize with hbefore | hsame
  · rw [Int64.le_iff_toInt_le, toInt_reprovideTimeForPrefix config p (h.product_lt p),
      toInt_reprovideTimeForPrefix config q (h.product_lt q)]
    have hval := hbefore.value_le (length_take_le_order config p) (length_take_le_order config q)
    have hindex : (slotIndex config p : Int) * 2 ^ slotBits q
        ≤ slotIndex config q * 2 ^ slotBits p := by
      have hnat : slotIndex config p * 2 ^ slotBits q ≤ slotIndex config q * 2 ^ slotBits p :=
        (Nat.mul_le_mul_right _ (Nat.le_succ _)).trans hval
      exact_mod_cast hnat
    apply ediv_le_ediv_of_mul_le (by positivity) (by positivity)
    rw [mul_assoc, mul_assoc]
    exact mul_le_mul_of_nonneg_left hindex (interval_pos config).le
  · have heq : reprovideTimeForPrefix config p = reprovideTimeForPrefix config q := by
      rw [reprovideTimeForPrefix_eq, reprovideTimeForPrefix_eq, slotIndex, slotIndex, slotBits,
        slotBits, hsame]
    rw [Int64.le_iff_toInt_le, heq]

/-! ## Slots that do not fit -/

theorem exists_slotIndex (config : Config) (v : Nat) (h : v < 2 ^ maxPrefixSize) :
    ∃ p : Bitstr, p.length = maxPrefixSize ∧ slotIndex config p = v := by
  obtain ⟨k, hlen, hk⟩ := exists_bitsValue maxPrefixSize v h
  have hle : k.length ≤ config.order.bits.length := by
    rw [hlen, config.order.length_bits]
    decide
  have hlen' : (xorBits config.order.bits k).length = maxPrefixSize := by
    rw [length_xorBits hle, hlen]
  refine ⟨xorBits config.order.bits k, hlen', ?_⟩
  rw [slotIndex, take_of_length_le hlen'.le, xorBits_xorBits hle, hk]

theorem exists_first_overflow (h : ¬ SlotsFit config) :
    ∃ v : Nat, 1 ≤ v ∧ v + 1 < 2 ^ maxPrefixSize ∧
      config.reprovideInterval.toInt * v < 2 ^ 63 ∧
      2 ^ 63 ≤ config.reprovideInterval.toInt * (v + 1 : Nat) := by
  have hex : ∃ v : Nat, 2 ^ 63 ≤ config.reprovideInterval.toInt * v :=
    ⟨2 ^ maxPrefixSize - 1, not_lt.mp h⟩
  classical
  have hspec := Nat.find_spec hex
  have hle : Nat.find hex ≤ 2 ^ maxPrefixSize - 1 := Nat.find_min' hex (not_lt.mp h)
  have hbound := config.reprovideInterval.toInt_lt
  -- the interval itself fits, so the index is at least two
  have htwo : 2 ≤ Nat.find hex := by
    by_contra hlt
    have hcases : Nat.find hex = 0 ∨ Nat.find hex = 1 := by omega
    rcases hcases with h0 | h1
    · rw [h0] at hspec
      norm_num at hspec
    · rw [h1] at hspec
      norm_num at hspec hbound
      omega
  have hpred := Nat.find_min hex (show Nat.find hex - 1 < Nat.find hex by omega)
  refine ⟨Nat.find hex - 1, by omega, ?_, not_le.mp hpred, ?_⟩
  · have hpos : 0 < 2 ^ maxPrefixSize := Nat.two_pow_pos _
    omega
  · rwa [Nat.sub_add_cancel (by omega)]

/-- The slot of the last index that fits is positive. -/
theorem slot_pos (hv : 1 ≤ slotIndex config p)
    (hfits : config.reprovideInterval.toInt * slotIndex config p < 2 ^ 63)
    (hover : 2 ^ 63 ≤ config.reprovideInterval.toInt * (slotIndex config p + 1 : Nat)) :
    1 ≤ (reprovideTimeForPrefix config p).toInt := by
  rw [toInt_reprovideTimeForPrefix config p hfits, Int.le_ediv_iff_mul_le (by positivity)]
  -- the product is at least half of the one that does not fit
  have hhalf : config.reprovideInterval.toInt * (slotIndex config p + 1 : Nat)
      ≤ 2 * (config.reprovideInterval.toInt * slotIndex config p) := by
    have hdouble : ((slotIndex config p + 1 : Nat) : Int) ≤ 2 * slotIndex config p := by omega
    calc config.reprovideInterval.toInt * (slotIndex config p + 1 : Nat)
        ≤ config.reprovideInterval.toInt * (2 * slotIndex config p) :=
          mul_le_mul_of_nonneg_left hdouble (interval_pos config).le
      _ = 2 * (config.reprovideInterval.toInt * slotIndex config p) := by ring
  have hcount : (2 : Int) ^ slotBits p ≤ 2 ^ maxPrefixSize :=
    pow_le_pow_right₀ (by decide) (slotBits_le p)
  have hmax : (2 : Int) ^ maxPrefixSize ≤ 2 ^ 62 := by decide
  omega

/-- The slot of the first index that does not fit is not positive. -/
theorem slot_nonpos {v : Nat} (hq : slotIndex config q = v + 1)
    (hfits : config.reprovideInterval.toInt * v < 2 ^ 63)
    (hover : 2 ^ 63 ≤ config.reprovideInterval.toInt * (v + 1 : Nat)) :
    (reprovideTimeForPrefix config q).toInt ≤ 0 := by
  have hbound := config.reprovideInterval.toInt_lt
  have hupper : config.reprovideInterval.toInt * (v + 1 : Nat) < 2 ^ 64 := by
    push_cast
    rw [mul_add, mul_one]
    omega
  have hwrapped : (config.reprovideInterval * Int64.ofNat (slotIndex config q)).toInt
      = config.reprovideInterval.toInt * (v + 1 : Nat) - 2 ^ 64 := by
    rw [Machine.toInt_mul_wrapped, toInt_slotIndex, hq]
    · rwa [toInt_slotIndex, hq]
    · rwa [toInt_slotIndex, hq]
  rw [reprovideTimeForPrefix_eq]
  apply Machine.toInt_div_nonpos
  · rw [hwrapped]
    omega
  · rw [toInt_slotCount]
    positivity

/-- The last index that fits comes before the first one that does not, but its slot is later. -/
theorem not_slotsCorrect (h : ¬ SlotsFit config) : ¬ SlotsCorrect config := by
  intro hcorrect
  obtain ⟨v, hv, hmax, hfits, hover⟩ := exists_first_overflow h
  obtain ⟨p, hp, rfl⟩ := exists_slotIndex config v (by omega)
  obtain ⟨q, hq, hqv⟩ := exists_slotIndex config (slotIndex config p + 1) hmax
  have hshort : maxPrefixSize ≤ keyLen := by decide
  have hbefore : XorBefore config.order.bits p q := by
    have hindex : slotIndex config p < slotIndex config q := by omega
    rw [slotIndex, slotIndex, take_of_length_le hp.le, take_of_length_le hq.le] at hindex
    refine (xorBefore_iff_value (hp.trans hq.symm) ?_).mpr hindex
    rw [hp, config.order.length_bits]
    exact hshort
  have hmono := Int64.le_iff_toInt_le.mp (hcorrect.mono p q (hp ▸ hshort) (hq ▸ hshort) hbefore)
  have hpslot := slot_pos hv hfits hover
  have hqslot := slot_nonpos hqv hfits hover
  omega

/-- **The slots are correct exactly when the largest product fits.** -/
theorem slotsCorrect_iff (config : Config) : SlotsCorrect config ↔ SlotsFit config := by
  constructor
  · intro h
    by_contra hfit
    exact not_slotsCorrect hfit h
  · intro h
    exact ⟨fun p _ => h.range p, fun p q _ _ => h.mono⟩

def defaultIntervalConfig : Config where
  replicationFactor := 20
  replicationFactor_pos := by decide
  reprovideInterval := 22 * 3600 * 1000000000
  reprovideInterval_pos := by decide
  maxReprovideDelay := 3600 * 1000000000
  order := zeroKey

/-- With the default interval the last prefix of 17 bits gets a slot before the cycle starts. -/
theorem slots_wrap_default :
    reprovideTimeForPrefix defaultIntervalConfig (List.replicate 17 true) < 0 ∧
      XorBefore defaultIntervalConfig.order.bits (List.replicate 17 false)
        (List.replicate 17 true) ∧
      ¬ reprovideTimeForPrefix defaultIntervalConfig (List.replicate 17 false)
        ≤ reprovideTimeForPrefix defaultIntervalConfig (List.replicate 17 true) :=
  ⟨by decide +kernel, ⟨[], by decide⟩, by decide +kernel⟩

end SweepingProvider

end KadDht
