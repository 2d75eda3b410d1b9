import Mathlib.Data.List.Infix
import Mathlib.Data.List.Pairwise
import Mathlib.Data.Set.Basic

/-!
# Lib — the prefix order on bit strings

A keyspace of identifiers is cut into regions by prefixes: a prefix stands for every identifier
that starts with it. Over an arbitrary alphabet:

* **`Overlap`**, **`PrefixFree`** — regions that intersect, and sets of disjoint regions.
* **`Covers`**, **`absorb`** — what a set of prefixes covers, and how it takes in another one.
* **`Splits`** — disjoint prefixes that together cover everything below a prefix.
-/

namespace KadDht

open List

section Order

variable {α : Type*} {a b c : List α}

/-! ## Overlapping strings -/

/-- Two strings overlap when one of them is a prefix of the other. -/
def Overlap (a b : List α) : Prop := a <+: b ∨ b <+: a

instance [DecidableEq α] (a b : List α) : Decidable (Overlap a b) :=
  inferInstanceAs (Decidable (a <+: b ∨ b <+: a))

theorem Overlap.refl (a : List α) : Overlap a a := .inl prefix_rfl

theorem Overlap.symm (h : Overlap a b) : Overlap b a := Or.symm h

theorem overlap_of_prefixes (ha : a <+: c) (hb : b <+: c) : Overlap a b :=
  prefix_or_prefix_of_prefix ha hb

/-- A string that extends one of two non-overlapping strings overlaps the other only through
a common prefix. -/
theorem Overlap.of_prefix_left (h : a <+: b) (hbc : Overlap b c) : Overlap a c := by
  rcases hbc with hbc | hcb
  · exact .inl (h.trans hbc)
  · exact overlap_of_prefixes h hcb

theorem Overlap.eq_of_length (h : Overlap a b) (hlen : a.length = b.length) : a = b := by
  rcases h with h | h
  · exact h.eq_of_length hlen
  · exact (h.eq_of_length hlen.symm).symm

theorem prefix_antisymm (hab : a <+: b) (hba : b <+: a) : a = b := hab.eq_of_length_le hba.length_le

theorem proper_of_prefixes (ha : a <+: c) (hb : b <+: c) (hn : ¬ b <+: a) : a <+: b ∧ a ≠ b := by
  rcases overlap_of_prefixes ha hb with h | h
  · exact ⟨h, fun heq => hn (heq ▸ prefix_rfl)⟩
  · exact absurd h hn

/-! ## Extending a path by one letter -/

theorem not_overlap_of_branches {c a b : List Bool} {u : Bool} (ha : c ++ [u] <+: a)
    (hb : c ++ [!u] <+: b) : ¬ Overlap a b := by
  intro hov
  have hov' : Overlap (c ++ [u]) (c ++ [!u]) :=
    Overlap.of_prefix_left ha (Overlap.of_prefix_left hb hov.symm).symm
  have heq := hov'.eq_of_length (by simp)
  simp at heq

theorem length_lt_of_branch {u : α} (h : a ++ [u] <+: b) : a.length < b.length := by
  have hle := h.length_le
  rwa [length_append, length_singleton] at hle

/-! ## Prefix-free sets and coverage -/

/-- No member of the set is a prefix of another. -/
def PrefixFree (s : Set (List α)) : Prop :=
  ∀ a ∈ s, ∀ b ∈ s, a <+: b → a = b

def Covers (s : Set (List α)) (k : List α) : Prop :=
  ∃ p ∈ s, p <+: k

variable {s : Set (List α)} {k p x : List α} {ps : List (List α)}

theorem PrefixFree.eq_of_overlap (hs : PrefixFree s) (ha : a ∈ s) (hb : b ∈ s) (h : Overlap a b) :
    a = b := by
  rcases h with h | h
  · exact hs a ha b hb h
  · exact (hs b hb a ha h).symm

/-- In a prefix-free set at most one member is a prefix of a given string. -/
theorem PrefixFree.unique (hs : PrefixFree s) (ha : a ∈ s) (hb : b ∈ s) (hac : a <+: c)
    (hbc : b <+: c) : a = b :=
  hs.eq_of_overlap ha hb (overlap_of_prefixes hac hbc)

theorem PrefixFree.mono {t : Set (List α)} (hs : PrefixFree s) (h : t ⊆ s) : PrefixFree t :=
  fun a ha b hb hab => hs a (h ha) b (h hb) hab

/-- Adding a string that overlaps no member keeps a set prefix-free. -/
theorem PrefixFree.insert (hs : PrefixFree s) (hnew : ∀ a ∈ s, Overlap a b → a = b) :
    PrefixFree (insert b s) := by
  rintro x (rfl | hx) y (rfl | hy) hxy
  · rfl
  · exact (hnew y hy (.inr hxy)).symm
  · exact hnew x hx (.inl hxy)
  · exact hs x hx y hy hxy

theorem not_covers : ¬ Covers s k ↔ ∀ x ∈ s, ¬ x <+: k := by
  simp [Covers]

/-! ## Absorbing a prefix -/

/-- Add a prefix to a set of disjoint prefixes: nothing changes when it is covered, otherwise it
replaces everything below it. -/
def absorb (s : Set (List α)) (p : List α) : Set (List α) :=
  {x | (Covers s p → x ∈ s) ∧ (¬ Covers s p → x = p ∨ (x ∈ s ∧ ¬ p <+: x))}

theorem absorb_of_covers (h : Covers s p) : absorb s p = s := by
  ext x
  exact ⟨fun hx => hx.1 h, fun hx => ⟨fun _ => hx, fun hn => absurd h hn⟩⟩

theorem mem_absorb_of_not_covers (h : ¬ Covers s p) (x : List α) :
    x ∈ absorb s p ↔ x = p ∨ (x ∈ s ∧ ¬ p <+: x) :=
  ⟨fun hx => hx.2 h, fun hx => ⟨fun hc => absurd hc h, fun _ => hx⟩⟩

theorem covers_absorb : Covers (absorb s p) k ↔ Covers s k ∨ p <+: k := by
  by_cases hcov : Covers s p
  · rw [absorb_of_covers hcov]
    exact ⟨.inl, fun h => h.elim id fun hpk => by
      obtain ⟨y, hy, hyp⟩ := hcov
      exact ⟨y, hy, hyp.trans hpk⟩⟩
  · constructor
    · intro hk
      obtain ⟨x, hx, hxk⟩ := hk
      rcases (mem_absorb_of_not_covers hcov x).mp hx with rfl | hand
      · exact .inr hxk
      · exact .inl ⟨x, hand.1, hxk⟩
    · intro hor
      rcases hor with hk | hpk
      · obtain ⟨x, hx, hxk⟩ := hk
        by_cases hpx : p <+: x
        · exact ⟨p, (mem_absorb_of_not_covers hcov p).mpr (.inl rfl), hpx.trans hxk⟩
        · exact ⟨x, (mem_absorb_of_not_covers hcov x).mpr (.inr ⟨hx, hpx⟩), hxk⟩
      · exact ⟨p, (mem_absorb_of_not_covers hcov p).mpr (.inl rfl), hpk⟩

theorem prefixFree_absorb (hs : PrefixFree s) (p : List α) : PrefixFree (absorb s p) := by
  by_cases hcov : Covers s p
  · rwa [absorb_of_covers hcov]
  · have hkept : PrefixFree {x | x ∈ s ∧ ¬ p <+: x} := hs.mono fun x hx => hx.1
    refine (hkept.insert fun x hx hov => ?_).mono fun x hx =>
      (mem_absorb_of_not_covers hcov x).mp hx
    rcases hov with hxp | hpx
    · exact absurd ⟨x, hx.1, hxp⟩ hcov
    · exact absurd hpx hx.2

theorem mem_or_eq_of_mem_absorb (h : x ∈ absorb s p) : x ∈ s ∨ x = p := by
  by_cases hcov : Covers s p
  · exact .inl (h.1 hcov)
  · exact (h.2 hcov).elim .inr fun hand => .inl hand.1

theorem mem_absorb_of_mem (hx : x ∈ s) (hpx : ¬ p <+: x) : x ∈ absorb s p :=
  ⟨fun _ => hx, fun _ => .inr ⟨hx, hpx⟩⟩

def absorbAll (s : Set (List α)) (ps : List (List α)) : Set (List α) := ps.foldl absorb s

@[simp] theorem absorbAll_nil (s : Set (List α)) : absorbAll s [] = s := rfl

@[simp] theorem absorbAll_cons (s : Set (List α)) (p : List α) (ps : List (List α)) :
    absorbAll s (p :: ps) = absorbAll (absorb s p) ps := rfl

theorem covers_absorbAll : Covers (absorbAll s ps) k ↔ Covers s k ∨ ∃ p ∈ ps, p <+: k := by
  induction ps generalizing s with
  | nil => simp
  | cons p ps ih => rw [absorbAll_cons, ih, covers_absorb, exists_mem_cons_iff, or_assoc]

theorem mem_or_mem_of_mem_absorbAll (h : x ∈ absorbAll s ps) : x ∈ s ∨ x ∈ ps := by
  induction ps generalizing s with
  | nil => exact .inl h
  | cons p ps ih =>
    rcases ih h with hs | hps
    · rcases mem_or_eq_of_mem_absorb hs with hs | rfl
      · exact .inl hs
      · exact .inr mem_cons_self
    · exact .inr (mem_cons_of_mem p hps)

theorem mem_absorbAll_of_mem (hx : x ∈ s) (hps : ∀ p ∈ ps, ¬ p <+: x) : x ∈ absorbAll s ps := by
  induction ps generalizing s with
  | nil => exact hx
  | cons p ps ih =>
    exact ih (mem_absorb_of_mem hx (hps p mem_cons_self)) fun q hq => hps q (mem_cons_of_mem p hq)

theorem mem_absorbAll_of_spared (hx : x ∈ s) (hps : ∀ p ∈ ps, p <+: x → p = x) :
    x ∈ absorbAll s ps := by
  induction ps generalizing s with
  | nil => exact hx
  | cons p ps ih =>
    refine ih ?_ fun q hq => hps q (mem_cons_of_mem p hq)
    by_cases hpx : p <+: x
    · -- the member itself is absorbed, which changes nothing
      obtain rfl := hps p mem_cons_self hpx
      rwa [absorb_of_covers ⟨p, hx, prefix_rfl⟩]
    · exact mem_absorb_of_mem hx hpx

theorem mem_absorbAll_of_not_covers (hp : p ∈ ps) (hdisj : ∀ q ∈ ps, q <+: p → q = p)
    (hcov : ¬ Covers s p) : p ∈ absorbAll s ps := by
  obtain ⟨x, hx, hxp⟩ := covers_absorbAll.mpr (.inr ⟨p, hp, prefix_rfl⟩ :
    Covers s p ∨ ∃ q ∈ ps, q <+: p)
  rcases mem_or_mem_of_mem_absorbAll hx with hs | hps
  · exact absurd ⟨x, hs, hxp⟩ hcov
  · exact hdisj x hps hxp ▸ hx

end Order

/-! ## Splitting the strings below a prefix -/

/-- The prefixes split the strings of length `n` below `c`: they extend `c`, they are disjoint,
and each such string has one of them as a prefix. -/
structure Splits (n : Nat) (c : List Bool) (ps : List (List Bool)) : Prop where
  below : ∀ p ∈ ps, c <+: p
  disjoint : ps.Pairwise fun p q => ¬ Overlap p q
  covers : ∀ k, k.length = n → c <+: k → ∃ p ∈ ps, p <+: k

namespace Splits

variable {n : Nat} {c : List Bool} {ps qs : List (List Bool)}

theorem single (n : Nat) (c : List Bool) : Splits n c [c] where
  below := fun _ hp => mem_singleton.mp hp ▸ prefix_rfl
  disjoint := pairwise_singleton _ _
  covers := fun _ _ hk => ⟨c, mem_singleton_self c, hk⟩

/-- Splitting both one-bit extensions of a prefix splits the prefix. -/
theorem append {b : Bool} (h : Splits n (c ++ [b]) ps) (h' : Splits n (c ++ [!b]) qs)
    (hlt : c.length < n) : Splits n c (ps ++ qs) where
  below := by
    intro p hp
    rcases mem_append.mp hp with hp | hp
    · exact (prefix_append _ _).trans (h.below p hp)
    · exact (prefix_append _ _).trans (h'.below p hp)
  disjoint := by
    refine pairwise_append.mpr ⟨h.disjoint, h'.disjoint, fun p hp q hq => ?_⟩
    exact not_overlap_of_branches (h.below p hp) (h'.below q hq)
  covers := by
    intro k hk hck
    obtain ⟨rest, rfl⟩ := hck
    cases rest with
    | nil =>
      rw [append_nil] at hk
      omega
    | cons x rest =>
      have hx : c ++ [x] <+: c ++ x :: rest := ⟨rest, by simp⟩
      by_cases hxb : x = b
      · obtain ⟨p, hp, hpk⟩ := h.covers _ hk (hxb ▸ hx)
        exact ⟨p, mem_append_left _ hp, hpk⟩
      · have hxnb : x = !b := Bool.eq_not_of_ne hxb
        obtain ⟨p, hp, hpk⟩ := h'.covers _ hk (hxnb ▸ hx)
        exact ⟨p, mem_append_right _ hp, hpk⟩

end Splits

/-! ## The length of the longest shared prefix -/

section CommonPrefix

variable {α : Type*} [DecidableEq α]

def commonPrefixLength : List α → List α → Nat
  | x :: xs, y :: ys => if x = y then commonPrefixLength xs ys + 1 else 0
  | _, _ => 0

theorem commonPrefixLength_le_left (a b : List α) : commonPrefixLength a b ≤ a.length := by
  fun_induction commonPrefixLength a b with
  | case1 x xs ys ih => simpa using ih
  | case2 x xs y ys hne | case3 a b h => exact Nat.zero_le _

theorem commonPrefixLength_eq_length (a b : List α) :
    commonPrefixLength a b = a.length ↔ a <+: b := by
  fun_induction commonPrefixLength a b with
  | case1 x xs ys ih => simpa using ih
  | case2 x xs y ys hne => simp [hne]
  | case3 a b h =>
    cases a with
    | nil => simp
    | cons x xs =>
      cases b with
      | nil => simp
      | cons y ys => exact absurd rfl (h x xs y ys rfl)

theorem commonPrefixLength_comm (a b : List α) :
    commonPrefixLength a b = commonPrefixLength b a := by
  induction a generalizing b with
  | nil => cases b <;> rfl
  | cons x xs ih =>
    cases b with
    | nil => rfl
    | cons y ys =>
      by_cases h : x = y
      · simp [commonPrefixLength, h, ih]
      · simp [commonPrefixLength, h, Ne.symm h]

/-- The first `n` letters of `a` are a prefix of `b` exactly when at least `n` letters (or all
of `a`) are shared. -/
theorem take_prefix_iff (a b : List α) (n : Nat) :
    a.take n <+: b ↔ min n a.length ≤ commonPrefixLength a b := by
  induction a generalizing b n with
  | nil => simp
  | cons x xs ih =>
    cases n with
    | zero => simp
    | succ n =>
      cases b with
      | nil => simp [commonPrefixLength]
      | cons y ys =>
        by_cases h : x = y
        · simp [commonPrefixLength, h, ih]
        · simp [commonPrefixLength, h]

end CommonPrefix

end KadDht
