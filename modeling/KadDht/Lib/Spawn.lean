import Mathlib.Data.Multiset.AddSub

/-!
# Lib — tasks that start tasks

Tasks share a state and take turns on it, as threads do, but a task may start others and it may
end. A step is a program that nothing interrupts; it replaces the task by a list of tasks: none when
the task ends, several when it starts others. What a task decides by itself or learns from outside
is a *choice*, and a run lets an arbitrary task take the next step with an arbitrary choice.
-/

namespace KadDht

@[ext]
structure Crew (σ τ : Type) where
  shared : σ
  tasks : Multiset τ

namespace Crew

variable {ι σ τ : Type} {step : ι → τ → StateT σ Option (List τ)}

inductive Reaches (step : ι → τ → StateT σ Option (List τ)) (c : Crew σ τ) : Crew σ τ → Prop
  | refl : Reaches step c c
  | tail {s s' : σ} {t : τ} {ts : List τ} {rest : Multiset τ} (i : ι)
      (h : Reaches step c ⟨s, t ::ₘ rest⟩) (hstep : step i t s = some (ts, s')) :
      Reaches step c ⟨s', (ts : Multiset τ) + rest⟩

/-- **The invariant rule.** -/
theorem Reaches.invariant {P : Crew σ τ → Prop} {c c' : Crew σ τ} (h : Reaches step c c')
    (hstep : ∀ i t ts s s' rest, P ⟨s, t ::ₘ rest⟩ → step i t s = some (ts, s') →
      P ⟨s', (ts : Multiset τ) + rest⟩) (hc : P c) : P c' := by
  induction h with
  | refl => exact hc
  | tail i _ hi ih => exact hstep i _ _ _ _ _ ih hi

theorem Reaches.trans {c c1 c2 : Crew σ τ} (h : Reaches step c c1) (h' : Reaches step c1 c2) :
    Reaches step c c2 := by
  induction h' with
  | refl => exact h
  | tail i _ hi ih => exact ih.tail i hi

def join (c : Crew σ τ) (others : Multiset τ) : Crew σ τ := ⟨c.shared, c.tasks + others⟩

/-- **The frame rule.** -/
theorem Reaches.frame {c c' : Crew σ τ} (h : Reaches step c c') (others : Multiset τ) :
    Reaches step (c.join others) (c'.join others) := by
  induction h with
  | refl => exact Reaches.refl
  | @tail s s' t ts rest i _ hi ih =>
    have hbefore : Reaches step (c.join others) ⟨s, t ::ₘ (rest + others)⟩ := by
      simpa only [join, Multiset.cons_add] using ih
    show Reaches step (c.join others) ⟨s', ts + rest + others⟩
    rw [Multiset.add_assoc]
    exact hbefore.tail i hi

theorem Reaches.single {s s' : σ} {t : τ} {ts : List τ} (i : ι)
    (hstep : step i t s = some (ts, s')) : Reaches step ⟨s, {t}⟩ ⟨s', ts⟩ := by
  rw [← Multiset.add_zero (ts : Multiset τ)]
  exact Reaches.refl.tail i hstep

/-- A task on its own takes a step and goes on; what it started waits. -/
theorem Reaches.goOn {s s1 s2 : σ} {t t' : τ} {ts : List τ} {m : Multiset τ} (i : ι)
    (hstep : step i t s = some (t' :: ts, s1)) (h : Reaches step ⟨s1, {t'}⟩ ⟨s2, m⟩) :
    Reaches step ⟨s, {t}⟩ ⟨s2, m + (ts : Multiset τ)⟩ :=
  (Reaches.single i hstep).trans (h.frame ts)

end Crew

end KadDht
