import KadDht.Lib.Int64

/-!
# Lib — wall-clock times

Times as the `time` package of Go has them, without a monotonic reading: seconds since the year 1
in a 64-bit integer, and nanoseconds. Durations are nanoseconds in a 64-bit integer.
-/

namespace KadDht

/-- A second has nanoseconds. -/
instance neZero_nanoseconds : NeZero 1000000000 := ⟨by decide⟩

structure Time where
  /-- Seconds since January 1, year 1. -/
  sec : Int64
  nsec : Fin 1000000000
deriving DecidableEq

namespace Time

def unixToInternal : Int64 := 62135596800

/-- `time.Unix`, for nanoseconds in their range. -/
def unix (sec : Int64) (nsec : Fin 1000000000) : Time := ⟨sec + unixToInternal, nsec⟩

def unixSec (t : Time) : Int64 := t.sec - unixToInternal

/-- The exact time, in nanoseconds since year 1. -/
def ns (t : Time) : Int := t.sec.toInt * 1000000000 + t.nsec

def after (t u : Time) : Bool := decide (t.sec > u.sec ∨ t.sec = u.sec ∧ t.nsec > u.nsec)

/-- `Time.Sub`: the difference, or the nearest duration when it is out of range. -/
def sub (t u : Time) : Int64 := Int64.ofInt (max (-2 ^ 63) (min (2 ^ 63 - 1) (t.ns - u.ns)))

/-- `Time.Add`. Seconds out of range are replaced by the last (or the second) value of the range. -/
def add (t : Time) (d : Int64) : Time where
  sec :=
    let sec := (t.ns + d.toInt) / 1000000000
    if sec > 2 ^ 63 - 1 then Int64.ofInt (2 ^ 63 - 1)
    else if sec < -2 ^ 63 then Int64.ofInt (-(2 ^ 63 - 1))
    else Int64.ofInt sec
  nsec := Fin.ofNat _ ((t.ns + d.toInt) % 1000000000).toNat

/-! ## Comparisons -/

variable {t u : Time} {d : Int64}

/-- Times are ordered as their nanoseconds are. -/
theorem after_iff : t.after u = true ↔ u.ns < t.ns := by
  have ht := t.nsec.isLt
  have hu := u.nsec.isLt
  rw [after, decide_eq_true_iff, gt_iff_lt, gt_iff_lt, Int64.lt_iff_toInt_lt, ← Int64.toInt_inj,
    Fin.lt_def, ns, ns]
  omega

/-- A saturated difference compares with a duration as the exact one does. -/
theorem sub_lt_iff (hd : -2 ^ 63 < d.toInt) : t.sub u < d ↔ t.ns - u.ns < d.toInt := by
  have hmax := d.toInt_lt
  rw [Int64.lt_iff_toInt_lt, sub, Int64.toInt_ofInt_of_le (by omega) (by omega)]
  omega

theorem lt_of_lt_sub (h : d < t.sub u) : d.toInt < t.ns - u.ns := by
  have hmin := d.le_toInt
  rw [Int64.lt_iff_toInt_lt, sub, Int64.toInt_ofInt_of_le (by omega) (by omega)] at h
  omega

/-- A time that is not at the end of the range compares with a saturated sum as with the exact
one. -/
theorem after_add_iff (hlo : -(2 ^ 63 - 1) < u.sec.toInt) (hhi : u.sec.toInt < 2 ^ 63 - 1) :
    u.after (t.add d) = true ↔ t.ns + d.toInt < u.ns := by
  have hu := u.nsec.isLt
  rw [after_iff]
  have hnsec : ((t.add d).nsec : Int) = (t.ns + d.toInt) % 1000000000 := by
    have hmod : ((t.ns + d.toInt) % 1000000000).toNat < 1000000000 := by omega
    rw [add, Fin.val_ofNat, Nat.mod_eq_of_lt hmod]
    omega
  have hns : (t.add d).ns = (t.add d).sec.toInt * 1000000000 + (t.add d).nsec := rfl
  have hnsU : u.ns = u.sec.toInt * 1000000000 + u.nsec := rfl
  rw [hns, hnsec, hnsU]
  -- in range, above it, below it
  by_cases hover : (t.ns + d.toInt) / 1000000000 > 2 ^ 63 - 1
  · have hsec : (t.add d).sec.toInt = 2 ^ 63 - 1 := by
      rw [add, if_pos hover]
      rfl
    omega
  · by_cases hunder : (t.ns + d.toInt) / 1000000000 < -2 ^ 63
    · have hsec : (t.add d).sec.toInt = -(2 ^ 63 - 1) := by
        rw [add, if_neg hover, if_pos hunder]
        rfl
      omega
    · have hsec : (t.add d).sec.toInt = (t.ns + d.toInt) / 1000000000 := by
        rw [add, if_neg hover, if_neg hunder, Int64.toInt_ofInt_of_le (by omega) (by omega)]
      omega

/-! ## Unix seconds -/

theorem unixSec_unix (sec : Int64) (nsec : Fin 1000000000) : (unix sec nsec).unixSec = sec :=
  Int64.add_sub_cancel sec unixToInternal

theorem ns_unix_unixSec_le (t : Time) : (unix t.unixSec 0).ns ≤ t.ns := by
  have hsec : (unix t.unixSec 0).sec = t.sec := Int64.sub_add_cancel t.sec unixToInternal
  have hzero : ((unix t.unixSec 0).nsec : Int) = 0 := rfl
  rw [ns, ns, hsec, hzero]
  omega

theorem toInt_sec_unix {sec : Int64} (nsec : Fin 1000000000)
    (h : sec.toInt < 2 ^ 63 - 62135596800) :
    (unix sec nsec).sec.toInt = sec.toInt + 62135596800 := by
  have hoffset : unixToInternal.toInt = 62135596800 := rfl
  have hmin := sec.le_toInt
  rw [unix, Machine.toInt_add_eq (by omega) (by omega), hoffset]

theorem ns_unix {sec : Int64} (h : sec.toInt < 2 ^ 63 - 62135596800) :
    (unix sec 0).ns = (sec.toInt + 62135596800) * 1000000000 := by
  rw [ns, toInt_sec_unix 0 h]
  exact Int.add_zero _

end Time

end KadDht
