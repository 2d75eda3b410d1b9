import KadDht.Lib.Bits
import Mathlib.Data.List.Sort

/-!
# Lib — ordered lists of disjoint prefixes

A queue of regions is a list of prefixes, in the order of their arrival, no two of which overlap.

* **`pushPrefix`** — add a prefix: members below it are consolidated at the position of the
  first of them; a prefix that is covered already changes nothing; otherwise it goes last.
* **`foldl_eraseIdx_eq_filter`** — erasing a descending list of positions one by one.
-/

namespace KadDht

open List

section Positions

variable {α : Type*}

/-- Erasing positions from the highest to the lowest removes exactly the elements that sit at
one of them. -/
theorem foldl_eraseIdx_eq_filter (P : α → Bool) (l : List α) (is : List Nat)
    (h : ∀ i ∈ is, i < l.length) (hdesc : is.Pairwise (· > ·))
    (hP : ∀ i (hi : i < l.length), P l[i] = true ↔ i ∈ is) :
    is.foldl List.eraseIdx l = l.filter fun x => !P x := by
  induction is generalizing l with
  | nil =>
    rw [foldl_nil, filter_eq_self.mpr]
    intro x hx
    obtain ⟨i, hi, rfl⟩ := getElem_of_mem hx
    have hnot := hP i hi
    simpa using hnot
  | cons i is ih =>
    have hi : i < l.length := h i mem_cons_self
    rw [pairwise_cons] at hdesc
    have hlen : (l.eraseIdx i).length = l.length - 1 := length_eraseIdx_of_lt hi
    rw [foldl_cons, ih (l.eraseIdx i) (fun j hj => ?_) hdesc.2 fun j hj => ?_]
    · -- the element at the highest position is not kept
      have hat : P l[i] = true := (hP i hi).mpr mem_cons_self
      conv_rhs => rw [← take_append_drop i l, drop_eq_getElem_cons hi]
      rw [eraseIdx_eq_take_drop_succ, filter_append, filter_append,
        filter_cons_of_neg (by simpa using hat)]
    · have hlt := hdesc.1 j hj
      omega
    · by_cases hlt : j < i
      · rw [getElem_eraseIdx_of_lt hj hlt, hP j (by omega), mem_cons]
        exact or_iff_right (Nat.ne_of_lt hlt)
      · rw [getElem_eraseIdx_of_ge hj (not_lt.mp hlt), hP (j + 1) (by omega), mem_cons]
        refine iff_of_false (fun hor => ?_) fun hmem => hlt (hdesc.1 j hmem)
        rcases hor with heq | hmem
        · omega
        · have hbelow := hdesc.1 _ hmem
          omega

theorem mem_foldl_insert [BEq α] [LawfulBEq α] {l found : List α} {x : α} :
    x ∈ l.foldl (fun found y => found.insert y) found ↔ x ∈ found ∨ x ∈ l := by
  induction l generalizing found with
  | nil => simp
  | cons y l ih =>
    rw [foldl_cons, ih, mem_insert_iff, mem_cons]
    tauto

theorem insertIdx_length_append (a b : List α) (x : α) :
    (a ++ b).insertIdx a.length x = a ++ x :: b := by
  induction a with
  | nil => rfl
  | cons y a ih => simpa using ih

theorem findIdx_congr_of_mem {P Q : α → Bool} {l : List α} (h : ∀ x ∈ l, P x = Q x) :
    l.findIdx P = l.findIdx Q := by
  induction l with
  | nil => rfl
  | cons y l ih =>
    rw [findIdx_cons, findIdx_cons, h y mem_cons_self, ih fun x hx => h x (mem_cons_of_mem y hx)]

theorem filter_take_findIdx (P : α → Bool) (l : List α) :
    (l.take (l.findIdx P)).filter (fun y => !P y) = l.take (l.findIdx P) := by
  rw [filter_eq_self]
  intro y hy
  obtain ⟨j, hj, rfl⟩ := getElem_of_mem hy
  have hj' : j < l.findIdx P := by
    rw [length_take] at hj
    omega
  rw [getElem_take]
  simpa using not_of_lt_findIdx hj'

theorem filter_eq_take_append_drop (P : α → Bool) (l : List α) (h : l.findIdx P < l.length) :
    l.filter (fun y => !P y)
      = l.take (l.findIdx P) ++ (l.drop (l.findIdx P + 1)).filter fun y => !P y := by
  have hat : P l[l.findIdx P] = true := findIdx_getElem
  conv_lhs => rw [← take_append_drop (l.findIdx P) l, drop_eq_getElem_cons h]
  rw [filter_append, filter_take_findIdx, filter_cons_of_neg (by simpa using hat)]

theorem insertIdx_findIdx_filter (P : α → Bool) (l : List α) (x : α)
    (h : l.findIdx P < l.length) :
    (l.filter fun y => !P y).insertIdx (l.findIdx P) x
      = l.take (l.findIdx P) ++ x :: (l.drop (l.findIdx P + 1)).filter fun y => !P y := by
  have hlen : (l.take (l.findIdx P)).length = l.findIdx P := length_take_of_le (le_of_lt h)
  rw [filter_eq_take_append_drop P l h, ← insertIdx_length_append, hlen]

end Positions

/-! ## Adding a prefix -/

section Push

variable {α : Type*} [DecidableEq α]

def pushPrefix (l : List (List α)) (p : List α) : List (List α) :=
  let i := l.findIdx (p.isPrefixOf ·)
  if i < l.length then l.take i ++ p :: (l.drop (i + 1)).filter fun x => !p.isPrefixOf x
  else if l.any (·.isPrefixOf p) then l
  else l ++ [p]

variable {l : List (List α)} {p : List α}

theorem not_isPrefixOf_iff {x : List α} : (!p.isPrefixOf x) = true ↔ ¬ p <+: x := by
  rw [Bool.not_eq_true', Bool.eq_false_iff, ne_eq, isPrefixOf_iff_prefix]

theorem pushPrefix_of_below (h : ∃ x ∈ l, p <+: x) :
    l.findIdx (p.isPrefixOf ·) < l.length ∧
      pushPrefix l p = (l.filter fun x => !p.isPrefixOf x).insertIdx
        (l.findIdx (p.isPrefixOf ·)) p := by
  have hlt : l.findIdx (p.isPrefixOf ·) < l.length := by
    obtain ⟨x, hx, hpre⟩ := h
    exact findIdx_lt_length_of_exists ⟨x, hx, isPrefixOf_iff_prefix.mpr hpre⟩
  refine ⟨hlt, ?_⟩
  rw [pushPrefix, if_pos hlt, insertIdx_findIdx_filter _ l p hlt]

theorem pushPrefix_perm_of_below (h : ∃ x ∈ l, p <+: x) :
    (pushPrefix l p).Perm (p :: l.filter fun x => !p.isPrefixOf x) := by
  obtain ⟨hlt, heq⟩ := pushPrefix_of_below h
  rw [heq, insertIdx_findIdx_filter _ l p hlt, filter_eq_take_append_drop _ l hlt]
  exact perm_middle

theorem not_findIdx_lt (h : ∀ x ∈ l, ¬ p <+: x) : ¬ l.findIdx (p.isPrefixOf ·) < l.length := by
  rw [findIdx_lt_length]
  intro hex
  obtain ⟨x, hx, hpre⟩ := hex
  exact h x hx (List.isPrefixOf_iff_prefix.mp hpre)

theorem pushPrefix_of_covered (h : ∀ x ∈ l, ¬ p <+: x) (hc : ∃ x ∈ l, x <+: p) :
    pushPrefix l p = l := by
  have hany : l.any (·.isPrefixOf p) = true := by
    obtain ⟨x, hx, hpre⟩ := hc
    exact any_eq_true.mpr ⟨x, hx, isPrefixOf_iff_prefix.mpr hpre⟩
  rw [pushPrefix, if_neg (not_findIdx_lt h), if_pos hany]

theorem pushPrefix_eq_self (hfree : PrefixFree {x | x ∈ l}) (hnodup : l.Nodup)
    (hc : ∃ x ∈ l, x <+: p) : pushPrefix l p = l := by
  by_cases hbelow : ∃ x ∈ l, p <+: x
  · obtain ⟨hlt, heq⟩ := pushPrefix_of_below hbelow
    set i := l.findIdx (p.isPrefixOf ·) with hi
    have hat : p <+: l[i] := isPrefixOf_iff_prefix.mp findIdx_getElem
    have hp : p = l[i] := by
      obtain ⟨y, hy, hyp⟩ := hc
      have hyi : y = l[i] := hfree y hy _ (getElem_mem hlt) (hyp.trans hat)
      exact prefix_antisymm hat (hyi ▸ hyp)
    -- nothing after the member itself starts with it
    have hkept : (l.drop (i + 1)).filter (fun x => !p.isPrefixOf x) = l.drop (i + 1) := by
      rw [filter_eq_self]
      intro x hx
      rw [not_isPrefixOf_iff]
      intro hpx
      have hxp : p = x := hfree p (hp ▸ getElem_mem hlt) x (mem_of_mem_drop hx) hpx
      rw [← take_append_drop i l, drop_eq_getElem_cons hlt, nodup_append] at hnodup
      exact (nodup_cons.mp hnodup.2.1).1 (hp ▸ hxp ▸ hx)
    rw [heq, insertIdx_findIdx_filter _ l p hlt, ← hi, hkept]
    conv_rhs => rw [← take_append_drop i l, drop_eq_getElem_cons hlt, ← hp]
  · exact pushPrefix_of_covered (fun x hx hpx => hbelow ⟨x, hx, hpx⟩) hc

theorem pushPrefix_of_fresh (h : ∀ x ∈ l, ¬ p <+: x) (hc : ∀ x ∈ l, ¬ x <+: p) :
    pushPrefix l p = l ++ [p] := by
  have hany : ¬ l.any (·.isPrefixOf p) = true := by
    rw [any_eq_true]
    intro hex
    obtain ⟨x, hx, hpre⟩ := hex
    exact hc x hx (List.isPrefixOf_iff_prefix.mp hpre)
  rw [pushPrefix, if_neg (not_findIdx_lt h), if_neg hany]

theorem mem_pushPrefix (hfree : PrefixFree {x | x ∈ l}) (x : List α) :
    x ∈ pushPrefix l p ↔ x ∈ absorb {y | y ∈ l} p := by
  by_cases hbelow : ∃ y ∈ l, p <+: y
  · have hmem : x ∈ pushPrefix l p ↔ x = p ∨ (x ∈ l ∧ ¬ p <+: x) := by
      rw [(pushPrefix_perm_of_below hbelow).mem_iff, mem_cons, mem_filter,
        not_isPrefixOf_iff]
    by_cases hcov : Covers {y | y ∈ l} p
    · -- a member covering `p` with a member below `p` can only be `p` itself
      rw [hmem, absorb_of_covers hcov]
      obtain ⟨y, hy, hyp⟩ := hcov
      obtain ⟨z, hz, hpz⟩ := hbelow
      have hyz : y = z := hfree y hy z hz (hyp.trans hpz)
      have hpl : p ∈ l := by
        have hpy : p = y := prefix_antisymm (hyz ▸ hpz) hyp
        exact hpy ▸ hy
      constructor
      · intro hor
        rcases hor with rfl | hand
        · exact hpl
        · exact hand.1
      · intro hx
        by_cases hpx : p <+: x
        · exact .inl (hfree p hpl x hx hpx).symm
        · exact .inr ⟨hx, hpx⟩
    · exact hmem.trans (mem_absorb_of_not_covers hcov x).symm
  · have hnone : ∀ y ∈ l, ¬ p <+: y := fun y hy hpy => hbelow ⟨y, hy, hpy⟩
    by_cases hcov : Covers {y | y ∈ l} p
    · rw [pushPrefix_of_covered hnone hcov, absorb_of_covers hcov]
      exact Iff.rfl
    · rw [pushPrefix_of_fresh hnone fun y hy hyp => hcov ⟨y, hy, hyp⟩,
        mem_absorb_of_not_covers hcov, mem_append, mem_singleton, or_comm]
      exact or_congr_right ⟨fun hx => ⟨hx, hnone x hx⟩, And.left⟩

theorem setOf_pushPrefix (hfree : PrefixFree {x | x ∈ l}) :
    {x | x ∈ pushPrefix l p} = absorb {x | x ∈ l} p :=
  Set.ext fun x => mem_pushPrefix hfree x

theorem setOf_foldl_pushPrefix (hfree : PrefixFree {x | x ∈ l}) (ps : List (List α)) :
    {x | x ∈ ps.foldl pushPrefix l} = absorbAll {x | x ∈ l} ps := by
  induction ps generalizing l with
  | nil => rfl
  | cons p ps ih =>
    have hpush : {x | x ∈ pushPrefix l p} = absorb {x | x ∈ l} p := setOf_pushPrefix hfree
    rw [foldl_cons, ih (hpush ▸ prefixFree_absorb hfree p), hpush, absorbAll_cons]

end Push

end KadDht
