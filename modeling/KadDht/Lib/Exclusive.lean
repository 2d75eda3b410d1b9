import Mathlib.Data.List.Basic

/-!
# Lib — what one thread has at a time

Of the threads in a list at most one has something, and only while it is taken: a lock, or a state
that only one of them may be in.
-/

namespace KadDht

open List

section Exclusive

variable {τ : Type} {holds : τ → Prop} {taken taken' : Prop} {l : List τ} {i j : Nat} {t t' u : τ}

theorem getElem?_set_cases (h : (l.set i t')[j]? = some u) :
    j = i ∧ u = t' ∨ j ≠ i ∧ l[j]? = some u := by
  rw [getElem?_set] at h
  split at h
  · next hij =>
    split at h
    · exact .inl ⟨hij.symm, (Option.some.inj h).symm⟩
    · cases h
  · next hij => exact .inr ⟨fun hji => hij hji.symm, h⟩

theorem getElem?_set_at (h : l[i]? = some t) : (l.set i t')[i]? = some t' :=
  List.getElem?_set_self (List.getElem?_eq_some_iff.mp h).1

theorem getElem?_append_cases (h : (l ++ [t'])[i]? = some u) :
    l[i]? = some u ∨ l[i]? = none ∧ u = t' := by
  rw [getElem?_append] at h
  split at h
  · exact .inl h
  · next hlt =>
    exact .inr ⟨getElem?_eq_none_iff.mpr (Nat.le_of_not_lt hlt),
      mem_singleton.mp (mem_of_getElem? h)⟩

/-- Some thread is as required, after one of them has taken a step. -/
theorem exists_set {P P' : τ → Prop} (hi : l[i]? = some t) (hself : P t → P' t')
    (hother : ∀ (j : Nat) (u : τ), j ≠ i → l[j]? = some u → P u → P' u)
    (h : ∃ (j : Nat) (u : τ), l[j]? = some u ∧ P u) :
    ∃ (j : Nat) (u : τ), (l.set i t')[j]? = some u ∧ P' u := by
  obtain ⟨j, u, hj, hu⟩ := h
  by_cases hij : j = i
  · subst hij
    cases hi.symm.trans hj
    exact ⟨j, t', getElem?_set_at hi, hself hu⟩
  · exact ⟨j, u, (getElem?_set_ne (Ne.symm hij)).trans hj, hother j u hij hj hu⟩

/-- At most one thread has it, and only while it is taken. -/
structure Exclusive (holds : τ → Prop) (taken : Prop) (l : List τ) : Prop where
  taken : ∀ (i : Nat) (t : τ), l[i]? = some t → holds t → taken
  unique : ∀ (i j : Nat) (t u : τ), l[i]? = some t → holds t → l[j]? = some u → holds u → i = j

namespace Exclusive

/-- Nobody has it. -/
theorem of_none (hnone : ∀ t ∈ l, ¬ holds t) : Exclusive holds taken l :=
  ⟨fun _ t hi ht => (hnone t (mem_of_getElem? hi) ht).elim,
    fun _ _ t _ hi ht => (hnone t (mem_of_getElem? hi) ht).elim⟩

theorem mono {holds' : τ → Prop} (h : Exclusive holds taken l)
    (himp : ∀ t ∈ l, holds' t → holds t) : Exclusive holds' taken l :=
  ⟨fun i t hi ht => h.taken i t hi (himp t (mem_of_getElem? hi) ht),
    fun i j t u hi ht hj hu => h.unique i j t u hi (himp t (mem_of_getElem? hi) ht) hj
      (himp u (mem_of_getElem? hj) hu)⟩

/-- The other threads do not have it. -/
theorem alone (h : Exclusive holds taken l) (hi : l[i]? = some t) (ht : holds t) (hne : j ≠ i)
    (hj : l[j]? = some u) : ¬ holds u :=
  fun hu => hne (h.unique j i u t hj hu hi ht)

/-- A thread takes a step and does not get it. -/
theorem set (h : Exclusive holds taken l) (hi : l[i]? = some t) (hkeep : holds t' → holds t) :
    Exclusive holds taken (l.set i t') where
  taken := by
    intro j u hj hu
    rcases getElem?_set_cases hj with ⟨rfl, rfl⟩ | ⟨-, hj⟩
    · exact h.taken j t hi (hkeep hu)
    · exact h.taken j u hj hu
  unique := by
    intro j k u v hj hu hk hv
    rcases getElem?_set_cases hj with ⟨rfl, rfl⟩ | ⟨-, hj'⟩
    · rcases getElem?_set_cases hk with ⟨rfl, rfl⟩ | ⟨-, hk'⟩
      · rfl
      · exact h.unique j k t v hi (hkeep hu) hk' hv
    · rcases getElem?_set_cases hk with ⟨rfl, rfl⟩ | ⟨-, hk'⟩
      · exact h.unique j k u t hj' hu hi (hkeep hv)
      · exact h.unique j k u v hj' hu hk' hv

theorem set_of_alone (hnone : ∀ (j : Nat) (u : τ), j ≠ i → l[j]? = some u → ¬ holds u)
    (htaken : holds t' → taken) : Exclusive holds taken (l.set i t') where
  taken := by
    intro j u hj hu
    rcases getElem?_set_cases hj with ⟨rfl, rfl⟩ | ⟨hne, hj⟩
    · exact htaken hu
    · exact (hnone j u hne hj hu).elim
  unique := by
    intro j k u v hj hu hk hv
    rcases getElem?_set_cases hj with ⟨rfl, rfl⟩ | ⟨hne, hj⟩
    · rcases getElem?_set_cases hk with ⟨rfl, rfl⟩ | ⟨hne, hk⟩
      · rfl
      · exact (hnone k v hne hk hv).elim
    · exact (hnone j u hne hj hu).elim

/-- A thread gets it when it is free. -/
theorem acquire (h : Exclusive holds taken l) (hfree : ¬ taken) (htaken : taken') :
    Exclusive holds taken' (l.set i t') :=
  set_of_alone (fun j u _ hj hu => hfree (h.taken j u hj hu)) fun _ => htaken

/-- The thread that has it gives it back. -/
theorem release (h : Exclusive holds taken l) (hi : l[i]? = some t) (ht : holds t)
    (hnot : ¬ holds t') : Exclusive holds taken' (l.set i t') :=
  set_of_alone (fun _ _ hne hj => h.alone hi ht hne hj) fun ht' => (hnot ht').elim

/-- Another thread starts. -/
theorem append (h : Exclusive holds taken l) (hnot : ¬ holds t') :
    Exclusive holds taken (l ++ [t']) := by
  have hold {j : Nat} {u : τ} (hj : (l ++ [t'])[j]? = some u) (hu : holds u) : l[j]? = some u := by
    rcases getElem?_append_cases hj with hj | ⟨-, rfl⟩
    · exact hj
    · exact (hnot hu).elim
  exact ⟨fun j u hj hu => h.taken j u (hold hj hu) hu,
    fun j k u v hj hu hk hv => h.unique j k u v (hold hj hu) hu (hold hk hv) hv⟩

end Exclusive

end Exclusive

end KadDht
