import KadDht.Lib.Bits

/-!
# Lib — joint coverage

A set of prefixes may cover a prefix without any of them doing so alone. What is covered is then a
matter of the infinite strings behind the prefixes.
-/

namespace KadDht

open List

variable {x : Nat → Bool} {p q k : List Bool} {s t : Set (List Bool)}

def StartsWith (x : Nat → Bool) (p : List Bool) : Prop := ∀ n b, p[n]? = some b → x n = b

theorem StartsWith.of_prefix (h : StartsWith x p) (hq : q <+: p) : StartsWith x q := by
  intro n b hb
  obtain ⟨rest, rfl⟩ := hq
  apply h n b
  rw [List.getElem?_append_left (List.getElem?_eq_some_iff.mp hb).1, hb]

theorem startsWith_append_singleton (b : Bool) :
    StartsWith x (p ++ [b]) ↔ StartsWith x p ∧ x p.length = b := by
  constructor
  · intro h
    exact ⟨h.of_prefix (prefix_append p [b]), h p.length b (by simp)⟩
  · rintro ⟨h, hb⟩ n c hc
    rcases Nat.lt_trichotomy n p.length with hlt | rfl | hgt
    · rw [getElem?_append_left hlt] at hc
      exact h n c hc
    · simp only [getElem?_append_right (Nat.le_refl _), Nat.sub_self, getElem?_cons_zero,
        Option.some.injEq] at hc
      exact hb.trans hc
    · rw [getElem?_eq_none (by rw [length_append, length_singleton]; omega)] at hc
      cases hc

/-- Of two starts of the same string, the shorter one is a prefix of the other one. -/
theorem StartsWith.isPrefix (hp : StartsWith x p) (hq : StartsWith x q)
    (hle : p.length ≤ q.length) : p <+: q := by
  rw [prefix_iff_getElem?]
  intro n hn
  have hnq : n < q.length := hn.trans_le hle
  rw [getElem?_eq_getElem hnq, ← hq n _ (getElem?_eq_getElem hnq), hp n _ (getElem?_eq_getElem hn)]

theorem StartsWith.overlap (hp : StartsWith x p) (hq : StartsWith x q) : Overlap p q :=
  (Nat.le_total p.length q.length).imp (hp.isPrefix hq) (hq.isPrefix hp)

theorem exists_startsWith (p : List Bool) : ∃ x, StartsWith x p := by
  refine ⟨fun n => p.getD n false, fun n b hb => ?_⟩
  show p.getD n false = b
  rw [getD_eq_getElem?_getD, hb, Option.getD_some]

/-- Every infinite string that starts with `p` starts with a member of the set. -/
def JointlyCovers (s : Set (List Bool)) (p : List Bool) : Prop :=
  ∀ x, StartsWith x p → ∃ r ∈ s, StartsWith x r

theorem JointlyCovers.mono (h : JointlyCovers s p) (hst : ∀ r ∈ s, r ∈ t) : JointlyCovers t p := by
  intro x hx
  obtain ⟨r, hr, hxr⟩ := h x hx
  exact ⟨r, hst r hr, hxr⟩

theorem JointlyCovers.extend (h : JointlyCovers s p) (hpq : p <+: q) : JointlyCovers s q :=
  fun x hx => h x (hx.of_prefix hpq)

theorem jointlyCovers_of_prefix (hr : k ∈ s) (hpre : k <+: p) : JointlyCovers s p :=
  fun _ hx => ⟨k, hr, hx.of_prefix hpre⟩

theorem jointlyCovers_step : JointlyCovers s p ↔ ∀ b, JointlyCovers s (p ++ [b]) := by
  constructor
  · intro h b
    exact h.extend (prefix_append p [b])
  · intro h x hx
    exact h (x p.length) x ((startsWith_append_singleton _).mpr ⟨hx, rfl⟩)

theorem not_jointlyCovers_of_empty (hs : ∀ r, r ∉ s) : ¬ JointlyCovers s p := by
  intro h
  obtain ⟨x, hx⟩ := exists_startsWith p
  obtain ⟨r, hr, -⟩ := h x hx
  exact hs r hr

/-- A string starts with one of the prefixes absorbed exactly when it starts with one of those
given. -/
theorem startsWith_absorbAll (s : Set (List Bool)) (ps : List (List Bool)) :
    (∃ r ∈ absorbAll s ps, StartsWith x r) ↔
      (∃ r ∈ s, StartsWith x r) ∨ ∃ p ∈ ps, StartsWith x p := by
  constructor
  · rintro ⟨r, hr, hx⟩
    rcases mem_or_mem_of_mem_absorbAll hr with hr | hr
    · exact .inl ⟨r, hr, hx⟩
    · exact .inr ⟨r, hr, hx⟩
  · intro hex
    -- a prefix that is gone was absorbed by a shorter one
    obtain ⟨p, hcov, hx⟩ : ∃ p, Covers (absorbAll s ps) p ∧ StartsWith x p := by
      rcases hex with ⟨p, hp, hx⟩ | ⟨p, hp, hx⟩
      · exact ⟨p, covers_absorbAll.mpr (.inl ⟨p, hp, prefix_rfl⟩), hx⟩
      · exact ⟨p, covers_absorbAll.mpr (.inr ⟨p, hp, prefix_rfl⟩), hx⟩
    obtain ⟨r, hr, hpre⟩ := hcov
    exact ⟨r, hr, hx.of_prefix hpre⟩

theorem jointlyCovers_singleton : JointlyCovers {k} p ↔ k <+: p := by
  refine ⟨fun h => ?_, jointlyCovers_of_prefix rfl⟩
  rcases Nat.lt_or_ge p.length k.length with hlt | hle
  · -- the string that leaves `k` right after `p` is not covered
    obtain ⟨x, hx⟩ := exists_startsWith (p ++ [!k[p.length]])
    rw [startsWith_append_singleton] at hx
    obtain ⟨r, rfl, hxr⟩ := h x hx.1
    have hbit := hxr p.length _ (getElem?_eq_getElem hlt)
    rw [hx.2] at hbit
    simp at hbit
  · obtain ⟨x, hx⟩ := exists_startsWith p
    obtain ⟨r, rfl, hxr⟩ := h x hx
    exact hxr.isPrefix hx hle

end KadDht
