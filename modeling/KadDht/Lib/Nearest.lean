import Mathlib.Data.List.Sort

/-!
# Lib — the `k` nearest

The elements of a list that are nearest by some distance, without putting the list in order: an
element is one of the `k` nearest if fewer than `k` others are nearer.
-/

namespace KadDht

open List

variable {α : Type*} {dist : α → Nat} {l l' near far : List α} {k : Nat}

def nearer (dist : α → Nat) (l : List α) (n : Nat) : Nat := l.countP fun b => dist b < n

def nearest (dist : α → Nat) (k : Nat) (l : List α) : List α :=
  l.filter fun a => nearer dist l (dist a) < k

theorem mem_nearest {a : α} : a ∈ nearest dist k l ↔ a ∈ l ∧ nearer dist l (dist a) < k := by
  rw [nearest, mem_filter, decide_eq_true_iff]

theorem nearer_append (n : Nat) :
    nearer dist (near ++ far) n = nearer dist near n + nearer dist far n :=
  countP_append

section Parts

variable (hparts : ∀ a ∈ near, ∀ b ∈ far, dist a < dist b)

include hparts

theorem nearer_append_left {a : α} (ha : a ∈ near) :
    nearer dist (near ++ far) (dist a) = nearer dist near (dist a) := by
  have hfar : nearer dist far (dist a) = 0 := by
    apply countP_eq_zero.mpr
    intro b hb
    have hlt := hparts a ha b hb
    simp only [decide_eq_true_iff]
    omega
  rw [nearer_append, hfar, Nat.add_zero]

theorem nearer_append_right {b : α} (hb : b ∈ far) :
    nearer dist (near ++ far) (dist b) = near.length + nearer dist far (dist b) := by
  have hnear : nearer dist near (dist b) = near.length := by
    apply countP_eq_length.mpr
    intro a ha
    simpa using hparts a ha b hb
  rw [nearer_append, hnear]

end Parts

theorem nearer_perm (h : l.Perm l') (n : Nat) : nearer dist l n = nearer dist l' n := h.countP_eq _

theorem nearest_perm (h : l.Perm l') : (nearest dist k l).Perm (nearest dist k l') := by
  unfold nearest
  simp only [nearer_perm h]
  exact h.filter _

theorem nearest_sorted (h : l.Pairwise fun a b => dist a < dist b) :
    nearest dist k l = l.take k := by
  induction l generalizing k with
  | nil => simp [nearest]
  | cons a l ih =>
    obtain ⟨ha, hl⟩ := pairwise_cons.mp h
    have hparts : ∀ x ∈ [a], ∀ b ∈ l, dist x < dist b := by
      intro x hx b hb
      rw [mem_singleton.mp hx]
      exact ha b hb
    have hfirst : nearer dist (a :: l) (dist a) = 0 := by
      have hleft := nearer_append_left hparts (mem_singleton_self a)
      rw [singleton_append] at hleft
      rw [hleft]
      simp [nearer]
    have hrest : ∀ b ∈ l, nearer dist (a :: l) (dist b) = nearer dist l (dist b) + 1 := by
      intro b hb
      have hright := nearer_append_right hparts hb
      rw [singleton_append] at hright
      rw [hright, length_singleton, Nat.add_comm]
    cases k with
    | zero => simp [nearest]
    | succ k =>
      rw [take_succ_cons, ← ih hl, nearest, filter_cons_of_pos (by simp [hfirst]), nearest]
      congr 1
      refine filter_congr fun b hb => ?_
      rw [hrest b hb]
      simp

/-- **There are `k` nearest elements**, or as many as there are. -/
theorem length_nearest (h : (l.map dist).Nodup) : (nearest dist k l).length = min k l.length := by
  have hperm := mergeSort_perm l fun a b => decide (dist a ≤ dist b)
  have hsorted : (l.mergeSort fun a b => decide (dist a ≤ dist b)).Pairwise fun a b =>
      dist a < dist b := by
    have hle : (l.mergeSort fun a b => decide (dist a ≤ dist b)).Pairwise fun a b =>
        decide (dist a ≤ dist b) = true :=
      pairwise_mergeSort (fun a b c hab hbc => by simp at *; omega) (fun a b => by simp; omega) l
    have hne := pairwise_map.mp ((hperm.map dist).nodup_iff.mpr h)
    refine (hle.and hne).imp fun {a b} hab => ?_
    have hab' := of_decide_eq_true hab.1
    omega
  rw [(nearest_perm hperm.symm).length_eq, nearest_sorted hsorted, length_take, hperm.length_eq]

theorem lt_of_mem_nearest {a b : α} (ha : a ∈ nearest dist k l) (hb : b ∈ l)
    (hnot : b ∉ nearest dist k l) : dist a < dist b := by
  rw [mem_nearest] at ha hnot
  by_contra hle
  -- then fewer are nearer than `b` than are nearer than `a`
  have hmono : nearer dist l (dist b) ≤ nearer dist l (dist a) := by
    apply countP_mono_left
    intro c hc hlt
    simp only [decide_eq_true_iff] at hlt ⊢
    omega
  exact hnot ⟨hb, by omega⟩

end KadDht
