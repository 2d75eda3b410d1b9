import Mathlib.Data.List.Perm.Basic

/-!
# Weights of lists

The sum of what a function gives for the elements of a list, and how it changes when an element is
added, replaced or removed. With 0 and 1 as values it counts elements.
-/

namespace KadDht

open List

variable {α : Type} (f : α → Nat) {l : List α} {i : Nat} {a : α}

def weight : List α → Nat
  | [] => 0
  | a :: l => f a + weight l

@[simp] theorem weight_nil : weight f [] = 0 := rfl

@[simp] theorem weight_cons (a : α) (l : List α) : weight f (a :: l) = f a + weight f l := rfl

@[simp] theorem weight_append (l l' : List α) : weight f (l ++ l') = weight f l + weight f l' := by
  induction l with
  | nil => rw [nil_append, weight_nil, Nat.zero_add]
  | cons a l ih => rw [cons_append, weight_cons, weight_cons, ih, Nat.add_assoc]

theorem weight_perm {l l' : List α} (h : l.Perm l') : weight f l = weight f l' := by
  induction h with
  | nil => rfl
  | cons a _ ih => rw [weight_cons, weight_cons, ih]
  | swap a b l =>
    simp only [weight_cons]
    omega
  | trans _ _ ih ih' => exact ih.trans ih'

theorem weight_eraseIdx (h : l[i]? = some a) : weight f (l.eraseIdx i) + f a = weight f l := by
  obtain ⟨hlt, hget⟩ := List.getElem?_eq_some_iff.mp h
  have hperm := weight_perm f (List.getElem_cons_eraseIdx_perm hlt)
  rw [hget, weight_cons] at hperm
  omega

/-- An element is replaced. -/
theorem weight_set (h : l[i]? = some a) (b : α) :
    weight f (l.set i b) + f a = weight f l + f b := by
  have hlt := (List.getElem?_eq_some_iff.mp h).1
  have hperm := weight_perm f (List.set_perm_cons_eraseIdx hlt b)
  have herase := weight_eraseIdx f h
  rw [weight_cons] at hperm
  omega

theorem weight_le_mul {n : Nat} (h : ∀ a ∈ l, f a ≤ n) : weight f l ≤ n * l.length := by
  induction l with
  | nil => exact Nat.zero_le _
  | cons a l ih =>
    have hl := ih fun b hb => h b (mem_cons_of_mem a hb)
    have ha := h a mem_cons_self
    rw [weight_cons, length_cons, Nat.mul_add_one]
    omega

theorem weight_eq_zero_iff : weight f l = 0 ↔ ∀ a ∈ l, f a = 0 := by
  induction l with
  | nil => simp
  | cons a l ih => rw [weight_cons, forall_mem_cons, ← ih, Nat.add_eq_zero_iff]

theorem exists_of_weight_pos (h : 0 < weight f l) :
    ∃ (i : Nat) (a : α), l[i]? = some a ∧ 0 < f a := by
  by_contra hnone
  refine absurd ((weight_eq_zero_iff f).mpr fun a ha => ?_) (Nat.ne_of_gt h)
  obtain ⟨i, hi⟩ := mem_iff_getElem?.mp ha
  by_contra hpos
  exact hnone ⟨i, a, hi, Nat.pos_of_ne_zero hpos⟩

theorem le_weight (h : l[i]? = some a) : f a ≤ weight f l := by
  have herase := weight_eraseIdx f h
  omega

/-- What is picked from a list, when an element that is not picked is replaced by one that is. -/
theorem filterMap_set_perm {β : Type} {g : α → Option β} {b : α} {c : β} (h : l[i]? = some a)
    (ha : g a = none) (hb : g b = some c) :
    ((l.set i b).filterMap g).Perm (c :: l.filterMap g) := by
  obtain ⟨hlt, hget⟩ := List.getElem?_eq_some_iff.mp h
  have hold := (List.getElem_cons_eraseIdx_perm hlt).filterMap g
  have hnew := (List.set_perm_cons_eraseIdx hlt b).filterMap g
  rw [hget, List.filterMap_cons_none ha] at hold
  rw [List.filterMap_cons_some hb] at hnew
  exact hnew.trans (hold.cons c)

theorem filterMap_set_eq {β : Type} {g : α → Option β} {b : α} (h : l[i]? = some a)
    (hb : g b = g a) : (l.set i b).filterMap g = l.filterMap g := by
  induction l generalizing i with
  | nil => cases h
  | cons a' l ih =>
    cases i with
    | zero =>
      cases h
      rw [set_cons_zero, filterMap_cons, filterMap_cons, hb]
    | succ i =>
      rw [set_cons_succ, filterMap_cons, filterMap_cons, ih h]

end KadDht
