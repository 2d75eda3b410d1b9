import Mathlib.Data.Nat.Bitwise
import Mathlib.Tactic.Linarith
import Mathlib.Tactic.Ring
import KadDht.Lib.Bits

/-!
# Lib — the order of bit strings around a key

Bit strings are ordered by their distance to a key: of two strings that part ways at some bit, the
one that goes on with the bit of the key comes first. On strings of one length this is the order
of the numbers the strings stand for after an exclusive or with the key.
-/

namespace KadDht

open List

/-! ## Two ways to go on -/

variable {a b c x : List Bool} {u : Bool}

theorem exists_branches (h : ¬ Overlap a b) : ∃ c u, c ++ [u] <+: a ∧ c ++ [!u] <+: b := by
  induction a generalizing b with
  | nil => exact absurd (.inl nil_prefix) h
  | cons x a ih =>
    cases b with
    | nil => exact absurd (.inr nil_prefix) h
    | cons y b =>
      by_cases hxy : x = y
      · subst hxy
        have hrest : ¬ Overlap a b := by
          intro hov
          apply h
          rcases hov with hov | hov
          · exact .inl ((cons_prefix_cons).mpr ⟨rfl, hov⟩)
          · exact .inr ((cons_prefix_cons).mpr ⟨rfl, hov⟩)
        obtain ⟨c, u, hca, hcb⟩ := ih hrest
        exact ⟨x :: c, u, (cons_prefix_cons).mpr ⟨rfl, hca⟩, (cons_prefix_cons).mpr ⟨rfl, hcb⟩⟩
      · refine ⟨[], x, ⟨a, rfl⟩, ⟨b, ?_⟩⟩
        rw [Bool.eq_not_of_ne (Ne.symm hxy)]
        rfl

/-- Of two extended parts of one string, the shorter part is extended within the longer one. -/
theorem branch_isPrefix {d : List Bool} {v : Bool} (hc : c ++ [u] <+: a) (hd : d ++ [v] <+: a)
    (hlt : c.length < d.length) : c ++ [u] <+: d := by
  have hd' : d <+: a := (prefix_append d [v]).trans hd
  apply prefix_of_prefix_length_le hc hd'
  rw [length_append, length_singleton]
  omega

theorem commonPrefixLength_of_branches (ha : c ++ [u] <+: a) (hb : c ++ [!u] <+: b) :
    commonPrefixLength a b = c.length := by
  obtain ⟨a, rfl⟩ := ha
  obtain ⟨b, rfl⟩ := hb
  induction c with
  | nil => simp [commonPrefixLength]
  | cons x c ih => simpa [commonPrefixLength] using ih

/-! ## The order -/

/-- `a` comes before `b` in the order around `x`: where they part ways, `a` goes on with the bit
of `x`. -/
def XorBefore (x a b : List Bool) : Prop :=
  ∃ c, c ++ [x.getD c.length false] <+: a ∧ c ++ [!x.getD c.length false] <+: b

instance (x a b : List Bool) : Decidable (XorBefore x a b) :=
  decidable_of_iff (∃ n ∈ List.range a.length, a.take n ++ [x.getD n false] <+: a ∧
      a.take n ++ [!x.getD n false] <+: b) <| by
    constructor
    · rintro ⟨n, hn, h⟩
      have hlen : (a.take n).length = n :=
        List.length_take_of_le (List.mem_range.mp hn).le
      exact ⟨a.take n, by rwa [hlen]⟩
    · rintro ⟨c, hca, hcb⟩
      have htake : a.take c.length = c :=
        (List.prefix_iff_eq_take.mp ((List.prefix_append c _).trans hca)).symm
      exact ⟨c.length, List.mem_range.mpr (length_lt_of_branch hca), by
        rw [htake]; exact ⟨hca, hcb⟩⟩

namespace XorBefore

variable {x a b : List Bool}

theorem not_overlap (h : XorBefore x a b) : ¬ Overlap a b := by
  obtain ⟨c, ha, hb⟩ := h
  exact not_overlap_of_branches ha hb

theorem asymm (h : XorBefore x a b) : ¬ XorBefore x b a := by
  intro h'
  obtain ⟨c, hca, hcb⟩ := h
  obtain ⟨d, hdb, hda⟩ := h'
  rcases Nat.lt_trichotomy c.length d.length with hlt | heq | hlt
  · exact not_overlap_of_branches (branch_isPrefix hca hda hlt) (branch_isPrefix hcb hdb hlt)
      (Overlap.refl d)
  · have hcd : c = d := by
      apply List.IsPrefix.eq_of_length _ heq
      apply prefix_of_prefix_length_le ((prefix_append c _).trans hca)
        ((prefix_append d _).trans hda) heq.le
    subst hcd
    exact not_overlap_of_branches hca hda (Overlap.refl a)
  · exact not_overlap_of_branches (branch_isPrefix hda hca hlt) (by
      rw [Bool.not_not]
      exact branch_isPrefix hdb hcb hlt) (Overlap.refl c)

end XorBefore

theorem xorBefore_or (x : List Bool) (h : ¬ Overlap a b) : XorBefore x a b ∨ XorBefore x b a := by
  obtain ⟨c, u, ha, hb⟩ := exists_branches h
  by_cases hu : u = x.getD c.length false
  · subst hu
    exact .inl ⟨c, ha, hb⟩
  · have hnot : u = !x.getD c.length false := Bool.eq_not_of_ne hu
    subst hnot
    rw [Bool.not_not] at hb
    exact .inr ⟨c, hb, ha⟩

theorem xorBefore_iff_cpl (h : Overlap a b → a = b) (hlen : b.length ≤ x.length) :
    (commonPrefixLength a b < a.length ∧ commonPrefixLength a b < x.length ∧
      x.getD (commonPrefixLength a b) false = a.getD (commonPrefixLength a b) false) ↔
    XorBefore x a b := by
  by_cases hov : Overlap a b
  · obtain rfl := h hov
    have hcpl : commonPrefixLength a a = a.length :=
      (commonPrefixLength_eq_length a a).mpr prefix_rfl
    rw [hcpl]
    exact ⟨fun hlt => absurd hlt.1 (lt_irrefl _),
      fun hbefore => absurd (Overlap.refl a) hbefore.not_overlap⟩
  · obtain ⟨c, u, hca, hcb⟩ := exists_branches hov
    have hbit : a.getD c.length false = u := by
      obtain ⟨rest, rfl⟩ := hca
      simp
    rw [commonPrefixLength_of_branches hca hcb, hbit]
    constructor
    · rintro ⟨-, -, rfl⟩
      exact ⟨c, hca, hcb⟩
    · intro hbefore
      refine ⟨length_lt_of_branch hca, (length_lt_of_branch hcb).trans_le hlen, ?_⟩
      by_contra hne
      have hnot : u = !x.getD c.length false := Bool.eq_not_of_ne (Ne.symm hne)
      subst hnot
      rw [Bool.not_not] at hcb
      exact hbefore.asymm ⟨c, hcb, hca⟩

/-! ## Numbers -/

/-- The number a bit string stands for, the first bit being the highest. -/
def bitsValue (k : List Bool) : Nat := k.foldl (fun n b => 2 * n + b.toNat) 0

theorem foldl_bitsValue (k : List Bool) (n : Nat) :
    k.foldl (fun n b => 2 * n + b.toNat) n = n * 2 ^ k.length + bitsValue k := by
  induction k generalizing n with
  | nil => simp [bitsValue]
  | cons b k ih =>
    have hcons : bitsValue (b :: k) = b.toNat * 2 ^ k.length + bitsValue k := by
      rw [bitsValue, foldl_cons, ih]
      simp
    rw [foldl_cons, ih, hcons, length_cons, pow_succ]
    ring

theorem bitsValue_append (a b : List Bool) :
    bitsValue (a ++ b) = bitsValue a * 2 ^ b.length + bitsValue b := by
  rw [bitsValue, foldl_append, foldl_bitsValue]
  rfl

theorem bitsValue_lt (k : List Bool) : bitsValue k < 2 ^ k.length := by
  induction k using reverseRecOn with
  | nil => simp [bitsValue]
  | append_singleton k b ih =>
    have hb : b.toNat ≤ 1 := Bool.toNat_le b
    rw [bitsValue_append, length_append, length_singleton, pow_succ]
    have hval : bitsValue [b] = b.toNat := by simp [bitsValue]
    omega

theorem exists_bitsValue (n v : Nat) (h : v < 2 ^ n) : ∃ k, k.length = n ∧ bitsValue k = v := by
  induction n generalizing v with
  | zero =>
    rw [pow_zero, Nat.lt_one_iff] at h
    exact ⟨[], rfl, h ▸ rfl⟩
  | succ n ih =>
    obtain ⟨k, hlen, hk⟩ := ih (v / 2) (by rw [pow_succ] at h; omega)
    refine ⟨k ++ [decide (v % 2 = 1)], by simp [hlen], ?_⟩
    have hbit : bitsValue [decide (v % 2 = 1)] = v % 2 := by
      rcases Nat.mod_two_eq_zero_or_one v with hm | hm <;> simp [hm, bitsValue]
    rw [bitsValue_append, hk, hbit, length_singleton, pow_one]
    omega

/-- Where two strings part ways, the value of the one that goes on with a zero is smaller, as a
fraction of the keyspace. -/
theorem value_branches (ha : c ++ [false] <+: a) (hb : c ++ [true] <+: b) :
    (bitsValue a + 1) * 2 ^ b.length ≤ bitsValue b * 2 ^ a.length := by
  obtain ⟨a, rfl⟩ := ha
  obtain ⟨b, rfl⟩ := hb
  have hlt := bitsValue_lt a
  simp only [bitsValue_append, length_append, length_singleton]
  have hf : bitsValue [false] = 0 := rfl
  have ht : bitsValue [true] = 1 := rfl
  rw [hf, ht, pow_one]
  calc ((bitsValue c * 2 + 0) * 2 ^ a.length + bitsValue a + 1) * 2 ^ (c.length + 1 + b.length)
      ≤ ((bitsValue c * 2 + 1) * 2 ^ a.length) * 2 ^ (c.length + 1 + b.length) := by
        apply Nat.mul_le_mul_right
        linarith
    _ = (bitsValue c * 2 + 1) * 2 ^ b.length * 2 ^ (c.length + 1 + a.length) := by ring
    _ ≤ ((bitsValue c * 2 + 1) * 2 ^ b.length + bitsValue b) * 2 ^ (c.length + 1 + a.length) := by
        apply Nat.mul_le_mul_right
        omega

def xorBits (x a : List Bool) : List Bool := List.zipWith xor a x

theorem length_xorBits (h : a.length ≤ x.length) : (xorBits x a).length = a.length := by
  rw [xorBits, length_zipWith, Nat.min_eq_left h]

theorem xorBits_take (x a : List Bool) : xorBits (x.take a.length) a = xorBits x a := by
  induction a generalizing x with
  | nil => rfl
  | cons b a ih =>
    cases x with
    | nil => rfl
    | cons y x => exact congrArg (xor b y :: ·) (ih x)

theorem xorBits_xorBits (h : a.length ≤ x.length) : xorBits x (xorBits x a) = a := by
  induction a generalizing x with
  | nil => rfl
  | cons b a ih =>
    cases x with
    | nil => simp at h
    | cons y x =>
      have hbit : xor (xor b y) y = b := by rw [Bool.xor_assoc, Bool.xor_self, Bool.xor_false]
      exact congrArg₂ cons hbit (ih (Nat.le_of_succ_le_succ h))

theorem foldl_zipWith_xor (hlen : a.length = x.length) (n m : Nat) :
    (List.zipWith xor a x).foldl (fun n b => 2 * n + b.toNat) (n ^^^ m) =
      a.foldl (fun n b => 2 * n + b.toNat) n ^^^ x.foldl (fun n b => 2 * n + b.toNat) m := by
  induction a generalizing x n m with
  | nil =>
    rw [eq_nil_of_length_eq_zero hlen.symm]
    rfl
  | cons b a ih =>
    cases x with
    | nil => simp at hlen
    | cons c x =>
      have hbit : 2 * (n ^^^ m) + (b ^^ c).toNat = (2 * n + b.toNat) ^^^ (2 * m + c.toNat) := by
        simpa [Nat.bit_val] using (Nat.xor_bit b n c m).symm
      rw [zipWith_cons_cons, foldl_cons, foldl_cons, foldl_cons, hbit]
      exact ih (Nat.succ.inj hlen) _ _

theorem bitsValue_xorBits (h : a.length = x.length) :
    bitsValue (xorBits x a) = bitsValue a ^^^ bitsValue x :=
  foldl_zipWith_xor h 0 0

theorem xorBits_branch (h : c ++ [u] <+: a) (hlen : a.length ≤ x.length) :
    xorBits x c ++ [xor u (x.getD c.length false)] <+: xorBits x a := by
  induction c generalizing x a with
  | nil =>
    obtain ⟨rest, rfl⟩ := h
    cases x with
    | nil => simp at hlen
    | cons z x => exact ⟨xorBits x rest, rfl⟩
  | cons y c ih =>
    obtain ⟨rest, rfl⟩ := h
    cases x with
    | nil => simp at hlen
    | cons z x =>
      have hrest := ih (x := x) (prefix_append (c ++ [u]) rest) (Nat.le_of_succ_le_succ hlen)
      exact (cons_prefix_cons).mpr ⟨rfl, hrest⟩

/-- **The order around a key, in numbers.** A string that comes before another one stands, after an
exclusive or with the key, for a smaller fraction of the keyspace. -/
theorem XorBefore.value_le (h : XorBefore x a b) (ha : a.length ≤ x.length)
    (hb : b.length ≤ x.length) :
    (bitsValue (xorBits x a) + 1) * 2 ^ b.length ≤ bitsValue (xorBits x b) * 2 ^ a.length := by
  obtain ⟨c, hca, hcb⟩ := h
  have hca' := xorBits_branch hca ha
  have hcb' := xorBits_branch hcb hb
  rw [Bool.xor_self] at hca'
  rw [Bool.not_xor_self] at hcb'
  have hval := value_branches hca' hcb'
  rwa [length_xorBits ha, length_xorBits hb] at hval

theorem xorBefore_iff_value (hlen : a.length = b.length) (hx : a.length ≤ x.length) :
    XorBefore x a b ↔ bitsValue (xorBits x a) < bitsValue (xorBits x b) := by
  have hpos : 0 < 2 ^ a.length := Nat.two_pow_pos _
  have hlt : ∀ {a b : List Bool}, a.length = b.length → a.length ≤ x.length → XorBefore x a b →
      bitsValue (xorBits x a) < bitsValue (xorBits x b) := by
    intro a b hlen hx h
    have hval := h.value_le hx (hlen ▸ hx)
    rw [← hlen] at hval
    exact Nat.le_of_mul_le_mul_right hval (Nat.two_pow_pos _)
  refine ⟨hlt hlen hx, fun hval => ?_⟩
  have hne : ¬ Overlap a b := by
    intro hov
    rw [hov.eq_of_length hlen] at hval
    exact lt_irrefl _ hval
  rcases xorBefore_or x hne with h | h
  · exact h
  · have hval' := hlt hlen.symm (hlen ▸ hx) h
    omega

end KadDht
