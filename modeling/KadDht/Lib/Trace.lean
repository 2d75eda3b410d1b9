import Mathlib.Data.List.Induction

/-!
# Lib — traces of labelled steps

A label says which step is taken; a step may be impossible. A trace is a list of labels, and a run
takes their steps one after the other.
-/

namespace KadDht.Trace

open List

variable {σ ι : Type} {step : ι → σ → Option σ} {s s' : σ} {l : ι} {ls ls' : List ι}

def run (step : ι → σ → Option σ) : List ι → σ → Option σ
  | [], s => some s
  | l :: ls, s => (step l s).bind (run step ls)

theorem run_cons : run step (l :: ls) s = some s' ↔
    ∃ s1, step l s = some s1 ∧ run step ls s1 = some s' := Option.bind_eq_some_iff

theorem run_append : run step (ls ++ ls') s = some s' ↔
    ∃ s1, run step ls s = some s1 ∧ run step ls' s1 = some s' := by
  induction ls generalizing s with
  | nil => simp [run]
  | cons l ls ih =>
    rw [cons_append, run_cons]
    constructor
    · rintro ⟨s1, hstep, hrun⟩
      obtain ⟨s2, hls, hls'⟩ := ih.mp hrun
      exact ⟨s2, run_cons.mpr ⟨s1, hstep, hls⟩, hls'⟩
    · rintro ⟨s2, hrun, hls'⟩
      obtain ⟨s1, hstep, hls⟩ := run_cons.mp hrun
      exact ⟨s1, hstep, ih.mpr ⟨s2, hls, hls'⟩⟩

theorem run_singleton : run step [l] s = step l s := by
  rw [run]
  cases step l s with
  | none => rfl
  | some s' => rfl

variable {P : σ → Prop}

/-- What can be observed of the result of a run that is evaluated. -/
theorem exists_observed {β : Type} {o : Option σ} (f : σ → β) (b : β)
    (h : o.map f = some b) (hP : ∀ s, o = some s → f s = b → P s) : ∃ s, o = some s ∧ P s := by
  obtain ⟨s, hrun, hs⟩ := Option.map_eq_some_iff.mp h
  exact ⟨s, hrun, hP s hrun hs⟩

/-- What every step of a trace keeps holds after the trace. -/
theorem invariant
    (hstep : ∀ l ∈ ls, ∀ s s', P s → step l s = some s' → P s') (h : P s)
    (hrun : run step ls s = some s') : P s' := by
  induction ls generalizing s with
  | nil => exact Option.some.inj hrun ▸ h
  | cons l ls ih =>
    obtain ⟨s1, hs1, hrest⟩ := run_cons.mp hrun
    exact ih (fun l' hl' => hstep l' (mem_cons_of_mem l hl'))
      (hstep l mem_cons_self s s1 h hs1) hrest

/-- **The simulation rule.** A run of a part is a run of the whole, if the steps of the part are
steps of the whole. -/
theorem run_map {τ κ : Type} {part : κ → τ → Option τ} {f : κ → ι} {embed : τ → σ} {ks : List κ}
    {t t' : τ}
    (hstep : ∀ k ∈ ks, ∀ t t', part k t = some t' → step (f k) (embed t) = some (embed t'))
    (hrun : run part ks t = some t') : run step (ks.map f) (embed t) = some (embed t') := by
  induction ks generalizing t with
  | nil =>
    cases hrun
    rfl
  | cons k ks ih =>
    obtain ⟨t1, ht1, hrest⟩ := run_cons.mp hrun
    exact run_cons.mpr ⟨embed t1, hstep k mem_cons_self t t1 ht1,
      ih (fun k' hk' => hstep k' (mem_cons_of_mem k hk')) hrest⟩

/-! ## The states of a run -/

/-- The run of a trace takes the step of a label in a state. -/
def Takes (step : ι → σ → Option σ) (ls : List ι) (s : σ) (l : ι) (s' : σ) : Prop :=
  ∃ before after, ls = before ++ l :: after ∧ run step before s = some s'

def Visits (step : ι → σ → Option σ) (ls : List ι) (s s' : σ) : Prop :=
  ∃ before after, ls = before ++ after ∧ run step before s = some s'

theorem Takes.visits {s1 s2 : σ} (h : Takes step ls s l s1) (hstep : step l s1 = some s2) :
    Visits step ls s s2 := by
  obtain ⟨before, after, rfl, hrun⟩ := h
  refine ⟨before ++ [l], after, by simp, run_append.mpr ⟨s1, hrun, ?_⟩⟩
  rw [run_singleton, hstep]

/-- The steps of a trace are its first one and those of the rest. -/
theorem takes_cons {l' : ι} {s1 : σ} (hstep : step l s = some s1) :
    Takes step (l :: ls) s l' s' ↔ l' = l ∧ s' = s ∨ Takes step ls s1 l' s' := by
  constructor
  · rintro ⟨before, after, heq, hrun⟩
    cases before with
    | nil =>
      cases heq
      exact .inl ⟨rfl, (Option.some.inj hrun).symm⟩
    | cons l1 before =>
      cases heq
      obtain ⟨s2, hs2, hrest⟩ := run_cons.mp hrun
      rw [hstep] at hs2
      cases hs2
      exact .inr ⟨before, after, rfl, hrest⟩
  · rintro (⟨rfl, rfl⟩ | ⟨before, after, rfl, hrun⟩)
    · exact ⟨[], ls, rfl, rfl⟩
    · exact ⟨l :: before, after, rfl, run_cons.mpr ⟨s1, hstep, hrun⟩⟩

/-- **The invariant rule**, for what holds all along a run. -/
theorem Visits.invariant
    (hstep : ∀ l s1 s2, Takes step ls s l s1 → P s1 → step l s1 = some s2 → P s2) (h : P s)
    (hvisit : Visits step ls s s') : P s' := by
  obtain ⟨before, after, rfl, hrun⟩ := hvisit
  -- the steps are taken in the state that the steps before them lead to
  induction before using reverseRecOn generalizing s' after with
  | nil => exact Option.some.inj hrun ▸ h
  | append_singleton before l ih =>
    obtain ⟨s1, hbefore, hlast⟩ := run_append.mp hrun
    rw [run_singleton] at hlast
    rw [append_assoc, singleton_append] at hstep
    exact hstep l s1 s' ⟨before, after, rfl, hbefore⟩ (ih (l :: after) hbefore hstep) hlast

/-! ## Progress -/

/-- **The progress rule.** From a state that keeps an invariant a final state can be reached, by
steps of some kind, if in every other state one of them gets closer to it. -/
theorem exists_run {Inv Final : σ → Prop} {kind : ι → Prop} (rank : σ → Nat)
    (hprogress : ∀ s, Inv s → ¬ Final s →
      ∃ l s', kind l ∧ step l s = some s' ∧ Inv s' ∧ rank s' < rank s) (h : Inv s) :
    ∃ ls s', (∀ l ∈ ls, kind l) ∧ run step ls s = some s' ∧ Inv s' ∧ Final s' := by
  induction hn : rank s using Nat.strongRecOn generalizing s with
  | ind n ih =>
    by_cases hfinal : Final s
    · exact ⟨[], s, nofun, rfl, h, hfinal⟩
    · obtain ⟨l, s1, hl, hstep, hinv, hlt⟩ := hprogress s h hfinal
      obtain ⟨ls, s', hls, hrun, hend⟩ := ih (rank s1) (hn ▸ hlt) hinv rfl
      refine ⟨l :: ls, s', fun l' hl' => ?_, run_cons.mpr ⟨s1, hstep, hrun⟩, hend⟩
      rcases mem_cons.mp hl' with rfl | hl'
      · exact hl
      · exact hls l' hl'

/-- **The bound of a rank.** A run takes no more steps of some kind than the rank of its first
state, if they lower the rank and no step raises it. -/
theorem countP_le {Inv : σ → Prop} {kind : ι → Bool} (rank : σ → Nat)
    (hstep : ∀ l ∈ ls, ∀ s s', Inv s → step l s = some s' →
      Inv s' ∧ rank s' + (if kind l then 1 else 0) ≤ rank s) (h : Inv s)
    (hrun : run step ls s = some s') : ls.countP kind + rank s' ≤ rank s := by
  induction ls generalizing s with
  | nil =>
    cases hrun
    exact Nat.le_of_eq (Nat.zero_add _)
  | cons l ls ih =>
    obtain ⟨s1, hs1, hrest⟩ := run_cons.mp hrun
    obtain ⟨hinv, hle⟩ := hstep l mem_cons_self s s1 h hs1
    have hls := ih (fun l' hl' => hstep l' (mem_cons_of_mem l hl')) hinv hrest
    rw [countP_cons]
    omega

end KadDht.Trace
