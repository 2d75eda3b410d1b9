import Mathlib.Algebra.Order.Ring.Int
import Mathlib.Data.List.Chain

/-!
# Lib — appointments on a cycle

Appointments recur with a fixed period; each has an offset in the cycle. What comes next depends
on where in the cycle one is, and after the last appointment comes the first one again.
-/

namespace KadDht

open List

/-! ## Time until an offset -/

/-- How long it takes from `a` until the offset `b` comes next, in a cycle of length `period`. -/
def cycleDist (period a b : Int) : Int := if a < b then b - a else b - a + period

section Distance

variable {period a b c : Int}

theorem cycleDist_self (period a : Int) : cycleDist period a a = period := by
  simp [cycleDist]

theorem emod_eq_cycleDist (hperiod : 0 < period) (hb : 0 ≤ b) (hb' : b < period) (x : Int) :
    (b - x + period - 1) % period + 1 = cycleDist period (x % period) b := by
  have hx := Int.emod_nonneg x hperiod.ne'
  have hx' := Int.emod_lt_of_pos x hperiod
  have hmod : (b - x + period - 1) % period = (b - x % period + period - 1) % period := by
    have hsub := Int.sub_emod (b + period - 1) (x % period) period
    rw [Int.emod_emod, ← Int.sub_emod] at hsub
    rw [show b - x + period - 1 = b + period - 1 - x by omega, ← hsub]
    congr 1
    omega
  rw [hmod]
  unfold cycleDist
  split
  · rw [show b - x % period + period - 1 = (b - x % period - 1) + period by omega,
      Int.add_emod_right, Int.emod_eq_of_lt (by omega) (by omega)]
    omega
  · rw [Int.emod_eq_of_lt (by omega) (by omega)]
    omega

theorem cycleDist_pos (ha' : a < period) (hb : 0 ≤ b) : 0 < cycleDist period a b := by
  unfold cycleDist
  split <;> omega

theorem cycleDist_le (ha : 0 ≤ a) (hb' : b < period) : cycleDist period a b ≤ period := by
  unfold cycleDist
  split <;> omega

theorem cycleDist_lt (ha : 0 ≤ a) (hb' : b < period) (hne : a ≠ b) :
    cycleDist period a b < period := by
  unfold cycleDist
  split <;> omega

theorem cycleDist_inj (hb : 0 ≤ b) (hb' : b < period) (hc : 0 ≤ c) (hc' : c < period)
    (h : cycleDist period a b = cycleDist period a c) : b = c := by
  unfold cycleDist at h
  split at h <;> split at h <;> omega

theorem cycleDist_add (hb : 0 ≤ b) (hc' : c < period)
    (h : cycleDist period a b < cycleDist period a c) :
    cycleDist period a c = cycleDist period a b + cycleDist period b c := by
  unfold cycleDist at h ⊢
  split <;> split <;> split <;> simp_all <;> omega

/-- The offset after some time less than a period. -/
theorem emod_add_eq {t : Int} (ha : 0 ≤ a) (ha' : a < period) (ht : 0 < t) (ht' : t < period) :
    (a + t) % period = if a + t < period then a + t else a + t - period := by
  split
  · exact Int.emod_eq_of_lt (by omega) (by omega)
  · rw [← Int.sub_emod_right, Int.emod_eq_of_lt (by omega) (by omega)]

theorem cycleDist_emod_add {t : Int} (ha : 0 ≤ a) (ha' : a < period) (ht : 0 < t)
    (ht' : t < period) : cycleDist period a ((a + t) % period) = t := by
  rw [emod_add_eq ha ha' ht ht']
  unfold cycleDist
  split <;> split <;> omega

/-- After some time less than a period, what has not come yet is closer by that time, and what has
come has to come again. -/
theorem cycleDist_later {t : Int} (ha : 0 ≤ a) (ha' : a < period) (hb : 0 ≤ b) (hb' : b < period)
    (ht : 0 < t) (ht' : t < period) :
    (t < cycleDist period a b →
      cycleDist period ((a + t) % period) b = cycleDist period a b - t) ∧
    (cycleDist period a b ≤ t →
      cycleDist period ((a + t) % period) b = cycleDist period a b - t + period) := by
  rw [emod_add_eq ha ha' ht ht']
  unfold cycleDist
  constructor
  · intro h
    split at h <;> split <;> split <;> omega
  · intro h
    split at h <;> split <;> split <;> omega

end Distance

/-! ## Sorted appointments -/

section Sorted

variable {α : Type*} {period a : Int} {offset : α → Int} {l : List α}

/-- Of the appointments, `e` comes next, seen from the offset `a`. -/
def Soonest (period a : Int) (offset : α → Int) (l : List α) (e : α) : Prop :=
  e ∈ l ∧ ∀ x ∈ l, cycleDist period a (offset e) ≤ cycleDist period a (offset x)

/-- **The next appointment** is the first one that is not over, or, when all are over, the first one
of the next cycle. -/
theorem soonest_of_next (hsorted : l.Pairwise fun x y => offset x < offset y)
    (hrange : ∀ x ∈ l, 0 ≤ offset x ∧ offset x < period) {isNext : α → Bool}
    (hisNext : ∀ x ∈ l, isNext x = true ↔ a < offset x) {e : α}
    (he : (l.find? isNext).or l.head? = some e) :
    Soonest period a offset l e := by
  cases hfind : l.find? isNext with
  | some e' =>
    rw [hfind, Option.some_or, Option.some.injEq] at he
    subst he
    obtain ⟨hafter, before, after, rfl, hbefore⟩ := find?_eq_some_iff_append.mp hfind
    rw [hisNext e' (by simp)] at hafter
    refine ⟨by simp, fun x hx => ?_⟩
    have he := hrange e' (by simp)
    have hxr := hrange x hx
    rcases mem_append.mp hx with hxb | hxa
    · -- an appointment that is over comes again in the next cycle
      have hover := hbefore x hxb
      rw [Bool.not_eq_true', Bool.eq_false_iff, ne_eq, hisNext x hx] at hover
      unfold cycleDist
      rw [if_pos hafter, if_neg hover]
      omega
    · rcases mem_cons.mp hxa with rfl | hxa
      · exact le_refl _
      · have hlt := (pairwise_cons.mp (pairwise_append.mp hsorted).2.1).1 x hxa
        unfold cycleDist
        rw [if_pos hafter, if_pos (hafter.trans hlt)]
        omega
  | none =>
    rw [hfind, Option.none_or] at he
    obtain ⟨rest, rfl⟩ := head?_eq_some_iff.mp he
    refine ⟨by simp, fun x hx => ?_⟩
    have hover : ∀ x ∈ e :: rest, ¬ a < offset x := by
      intro x hx
      rw [← hisNext x hx]
      exact find?_eq_none.mp hfind x hx
    unfold cycleDist
    rw [if_neg (hover e (by simp)), if_neg (hover x hx)]
    rcases mem_cons.mp hx with rfl | hx
    · exact le_refl _
    · have hlt := (pairwise_cons.mp hsorted).1 x hx
      omega

/-- When the next appointment is cancelled, the one after it comes next. -/
theorem Soonest.after {c e : α} (he : Soonest period (offset c) offset l e)
    (hc : 0 ≤ offset c) (hrange : ∀ x ∈ l, offset x < period)
    (hlater : ∀ x ∈ l, cycleDist period a (offset c) < cycleDist period a (offset x)) :
    Soonest period a offset l e := by
  refine ⟨he.1, fun x hx => ?_⟩
  rw [cycleDist_add hc (hrange e he.1) (hlater e he.1),
    cycleDist_add hc (hrange x hx) (hlater x hx)]
  exact Int.add_le_add_left (he.2 x hx) _

/-- When a new appointment is made, and it is not followed by the one that comes next, then it does
not come before it. -/
theorem Soonest.le_of_not_next {l' : List α} {c p e : α} (hc : Soonest period a offset l c)
    (he : Soonest period (offset p) offset l' e) (hp : 0 ≤ offset p)
    (hrange : ∀ x ∈ l, 0 ≤ offset x ∧ offset x < period) (hcl : c ∈ l')
    (hl : ∀ x ∈ l', offset x = offset p ∨ x ∈ l) (hne : offset e ≠ offset c) :
    cycleDist period a (offset c) ≤ cycleDist period a (offset p) := by
  by_contra hlt
  rw [not_le] at hlt
  have hcr := hrange c hc.1
  have hdist := cycleDist_add hp hcr.2 hlt
  have hle := he.2 c hcl
  rcases hl e he.1 with heq | hel
  · -- `p` is followed by itself: then nothing comes within a period
    rw [heq, cycleDist_self] at hle
    unfold cycleDist at hle
    split at hle <;> omega
  · have her := hrange e hel
    have hfar := hc.2 e hel
    rw [cycleDist_add hp her.2 (hlt.trans_le hfar), hdist] at hfar
    exact hne (cycleDist_inj her.1 her.2 hcr.1 hcr.2 (le_antisymm hle (by omega)))

/-- Seen from one of them, the appointments after it come in their order, and then those before it
in theirs. -/
theorem cycleDist_rotated {before after : List α} {c : α}
    (hsorted : (before ++ c :: after).Pairwise fun x y => offset x < offset y)
    (hrange : ∀ x ∈ before ++ c :: after, 0 ≤ offset x ∧ offset x < period) :
    (after ++ before).Pairwise fun x y =>
      cycleDist period (offset c) (offset x) < cycleDist period (offset c) (offset y) := by
  obtain ⟨hbefore, hrest, hacross⟩ := pairwise_append.mp hsorted
  obtain ⟨hc, hafter⟩ := pairwise_cons.mp hrest
  have hlater : ∀ x ∈ after, cycleDist period (offset c) (offset x) = offset x - offset c :=
    fun x hx => if_pos (hc x hx)
  have hagain : ∀ x ∈ before,
      cycleDist period (offset c) (offset x) = offset x - offset c + period := fun x hx =>
    if_neg (not_lt.mpr (hacross x hx c mem_cons_self).le)
  refine pairwise_append.mpr ⟨?_, ?_, ?_⟩
  · refine hafter.imp_of_mem fun {x y} hx hy hxy => ?_
    rw [hlater x hx, hlater y hy]
    omega
  · refine hbefore.imp_of_mem fun {x y} hx hy hxy => ?_
    rw [hagain x hx, hagain y hy]
    omega
  · intro x hx y hy
    rw [hlater x hx, hagain y hy]
    have hxr := hrange x (by simp [hx])
    have hyr := hrange y (by simp [hy])
    omega

/-- **Around the cycle.** Of appointments in their order, and the one before them all, some time
has passed: then come those that are over, and after them the one that is next. When all are over,
this is the one before them all. -/
theorem exists_next_appointment {c : α} {l : List α} {time : α → Int} (now : Int)
    (hsorted : l.Pairwise fun x y => time x < time y) :
    ∃ passed next rest, l ++ [c] = passed ++ next :: rest ∧
      (∀ x, x ∈ passed ↔ x ∈ l ∧ time x < now) ∧
      ((next ∈ l ∧ now ≤ time next ∧ ∀ x ∈ l, now ≤ time x → time next ≤ time x) ∨
        (next = c ∧ rest = [] ∧ ∀ x ∈ l, time x < now)) := by
  induction l with
  | nil => exact ⟨[], c, [], rfl, by simp, .inr ⟨rfl, rfl, by simp⟩⟩
  | cons x l ih =>
    obtain ⟨hx, hl⟩ := pairwise_cons.mp hsorted
    by_cases hover : time x < now
    · obtain ⟨passed, next, rest, heq, hmem, hnext⟩ := ih hl
      refine ⟨x :: passed, next, rest, by rw [cons_append, heq, cons_append], ?_, ?_⟩
      · intro y
        rw [mem_cons, hmem, mem_cons]
        constructor
        · rintro (rfl | ⟨hy, hlt⟩)
          · exact ⟨.inl rfl, hover⟩
          · exact ⟨.inr hy, hlt⟩
        · rintro ⟨rfl | hy, hlt⟩
          · exact .inl rfl
          · exact .inr ⟨hy, hlt⟩
      · rcases hnext with ⟨hmem', hle, hmin⟩ | ⟨heq', hrest, hall⟩
        · refine .inl ⟨mem_cons_of_mem x hmem', hle, fun y hy hle' => ?_⟩
          rcases mem_cons.mp hy with rfl | hy
          · omega
          · exact hmin y hy hle'
        · exact .inr ⟨heq', hrest, forall_mem_cons.mpr ⟨hover, hall⟩⟩
    · -- the first one that is not over; those after it come later
      refine ⟨[], x, l ++ [c], rfl, fun y => ⟨by simp, fun ⟨hy, hlt⟩ => ?_⟩, .inl
        ⟨mem_cons_self, not_lt.mp hover, fun y hy _ => ?_⟩⟩
      · rcases mem_cons.mp hy with rfl | hy
        · exact absurd hlt hover
        · exact absurd ((hx y hy).trans hlt) hover
      · rcases mem_cons.mp hy with rfl | hy
        · exact le_refl _
        · exact (hx y hy).le

end Sorted

/-! ## Successors around the cycle -/

section Successor

variable {α : Type*} {next : α → Option α}

/-- `next` goes from each element of the list to the one after it, and from the last one to the
first. -/
def CyclicSucc (next : α → Option α) (l : List α) : Prop :=
  ∀ u x v, l = u ++ x :: v → next x = (v ++ u ++ [x]).head?

theorem CyclicSucc.rotate {p q : List α} (h : CyclicSucc next (p ++ q)) :
    CyclicSucc next (q ++ p) := by
  intro u x v heq
  rcases append_eq_append_iff.mp heq with ⟨w, hu, hp⟩ | ⟨w, hq, hxv⟩
  · -- the element is in `p`
    have hnext := h w x (v ++ q) (by rw [hp, append_assoc, cons_append])
    rw [hnext, hu]
    simp only [append_assoc]
  · cases w with
    | nil =>
      -- the element is the first one of `p`
      rw [nil_append] at hxv
      rw [append_nil] at hq
      have hnext := h [] x (v ++ q) (by rw [← hxv, nil_append, cons_append])
      rw [hnext, hq, append_nil]
    | cons y w =>
      rw [cons_append, cons.injEq] at hxv
      obtain ⟨rfl, hv⟩ := hxv
      have hnext := h (p ++ u) x w (by rw [hq, append_assoc])
      rw [hnext, hv]
      simp only [append_assoc]

/-- Starting from an element, the successors pass through all others, come back to it, and go on
with the first of the others. -/
theorem CyclicSucc.isChain {c r : α} {rest : List α} (h : CyclicSucc next (c :: r :: rest)) :
    List.IsChain (fun x y => next x = some y) (c :: r :: rest ++ [c, r]) := by
  suffices htail : ∀ w u, c :: r :: rest = u ++ w →
      List.IsChain (fun x y => next x = some y) (w ++ [c, r]) from htail _ [] rfl
  intro w
  induction w with
  | nil =>
    intro u _
    have hnext := h [] c (r :: rest) rfl
    exact isChain_pair.mpr hnext
  | cons x w ih =>
    intro u heq
    have hrest := ih (u ++ [x]) (by rw [heq, append_assoc, singleton_append])
    have hnext := h u x w heq
    cases w with
    | cons y w => exact isChain_cons_cons.mpr ⟨hnext, hrest⟩
    | nil =>
      -- the last element, from which the cycle starts again
      cases u with
      | nil => simp at heq
      | cons z u =>
        obtain ⟨rfl, -⟩ := cons.inj heq
        exact isChain_cons_cons.mpr ⟨hnext, hrest⟩

theorem isPrefix_of_isChain {l l' : List α} (h : List.IsChain (fun x y => next x = some y) l)
    (h' : List.IsChain (fun x y => next x = some y) l') (hhead : l.head? = l'.head?)
    (hlen : l.length ≤ l'.length) : l <+: l' := by
  induction l generalizing l' with
  | nil => exact nil_prefix
  | cons x l ih =>
    cases l' with
    | nil => cases hhead
    | cons x' l' =>
      cases hhead
      refine cons_prefix_cons.mpr ⟨rfl, ?_⟩
      cases l with
      | nil => exact nil_prefix
      | cons y l =>
        cases l' with
        | nil => simp at hlen
        | cons y' l' =>
          obtain ⟨hy, hchain⟩ := isChain_cons_cons.mp h
          obtain ⟨hy', hchain'⟩ := isChain_cons_cons.mp h'
          exact ih hchain hchain' (hy.symm.trans hy') (Nat.le_of_succ_le_succ hlen)

end Successor

end KadDht
