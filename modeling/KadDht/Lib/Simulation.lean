import Mathlib.Logic.Basic

/-!
# Lib — simulating a stateful program by a function on an abstract view

A program with a state is a value of `StateT σ Option α`; running into `none` is a crash. What
matters about a state is usually less than what it holds, so that a program is specified by what
it does to a *view* of the state: `A.Simulates m f` says that from every state satisfying the
invariant, `m` does not crash, keeps the invariant, returns what `f` computes from the view, and
changes the view as `f` does.
-/

namespace KadDht

/-- An invariant of the states, and what is visible of a state. -/
structure Abstraction (σ ν : Type) where
  Inv : σ → Prop
  view : σ → ν

namespace Abstraction

variable {σ ν α β : Type} {A : Abstraction σ ν}

/-- From the state `s` the program returns `r.1` without crashing, in a state that satisfies the
invariant and whose view is `r.2`. -/
def SimulatesAt (A : Abstraction σ ν) (s : σ) (m : StateT σ Option α) (r : α × ν) : Prop :=
  ∃ s', m s = some (r.1, s') ∧ A.Inv s' ∧ A.view s' = r.2

/-- The program does to every state what `f` does to its view. -/
def Simulates (A : Abstraction σ ν) (m : StateT σ Option α) (f : ν → α × ν) : Prop :=
  ∀ s, A.Inv s → A.SimulatesAt s m (f (A.view s))

/-! ## From one state -/

namespace SimulatesAt

variable {s : σ}

theorem pure (hs : A.Inv s) (a : α) : A.SimulatesAt s (pure a) (a, A.view s) := ⟨s, rfl, hs, rfl⟩

theorem bind {m : StateT σ Option α} {r : α × ν} {k : α → StateT σ Option β} {q : β × ν}
    (hm : A.SimulatesAt s m r)
    (hk : ∀ s', A.Inv s' → A.view s' = r.2 → A.SimulatesAt s' (k r.1) q) :
    A.SimulatesAt s (m >>= k) q := by
  obtain ⟨s1, heq1, hinv1, hview1⟩ := hm
  obtain ⟨s2, heq2, hinv2, hview2⟩ := hk s1 hinv1 hview1
  refine ⟨s2, ?_, hinv2, hview2⟩
  show (m s).bind (fun p => k p.1 p.2) = _
  rw [heq1]
  exact heq2

/-- A program that computes with the result of another one. -/
theorem bindPure {m : StateT σ Option α} {a : α} {v : ν} (hm : A.SimulatesAt s m (a, v))
    (g : α → β) : A.SimulatesAt s (m >>= fun x => Pure.pure (g x)) (g a, v) :=
  hm.bind fun s' hs' hview => ⟨s', rfl, hs', hview⟩

/-- A program that reads the state and goes on. -/
theorem get {k : σ → StateT σ Option α} {q : α × ν} (hk : A.SimulatesAt s (k s) q) :
    A.SimulatesAt s (MonadState.get >>= k) q := hk

/-- A program that updates the state. -/
theorem update {g : σ → σ} {v : ν} (hinv : A.Inv (g s)) (hview : A.view (g s) = v) :
    A.SimulatesAt s (modify g) ((), v) :=
  ⟨g s, rfl, hinv, hview⟩

end SimulatesAt

/-! ## From every state -/

namespace Simulates

theorem pure (a : α) : A.Simulates (pure a) (fun v => (a, v)) := fun _ hs => SimulatesAt.pure hs a

variable {m : StateT σ Option α} {k : α → StateT σ Option β}

theorem congr {f f' : ν → α × ν} (hm : A.Simulates m f) (heq : ∀ v, f v = f' v) :
    A.Simulates m f' :=
  fun s hs => heq (A.view s) ▸ hm s hs

theorem bind {f : ν → α × ν} {g : α → ν → β × ν} (hm : A.Simulates m f)
    (hk : ∀ v, A.Simulates (k (f v).1) (g (f v).1)) :
    A.Simulates (m >>= k) (fun v => g (f v).1 (f v).2) := by
  intro s hs
  refine (hm s hs).bind fun s' hs' hview => ?_
  have hrest := hk (A.view s) s' hs'
  rwa [hview] at hrest

/-- Sequencing after a program whose result does not depend on the state. -/
theorem andThen {a : α} {h : ν → ν} {f : ν → β × ν} (hm : A.Simulates m (fun v => (a, h v)))
    (hk : A.Simulates (k a) f) : A.Simulates (m >>= k) (fun v => f (h v)) :=
  Simulates.bind (g := fun _ => f) hm fun _ => hk

/-- Sequencing after a program that leaves the view alone. -/
theorem skip {a : α} {f : ν → β × ν} (hm : A.Simulates m (fun v => (a, v)))
    (hk : A.Simulates (k a) f) : A.Simulates (m >>= k) f :=
  Simulates.bind (g := fun _ => f) hm fun _ => hk

/-- A loop over a list simulates the fold of what its body does. -/
theorem foldlM {m : α → β → StateT σ Option α} {f : α → β → ν → α × ν} (l : List β)
    (hm : ∀ a, ∀ b ∈ l, A.Simulates (m a b) (f a b)) (a : α) :
    A.Simulates (l.foldlM m a) (fun v => l.foldl (fun r b => f r.1 b r.2) (a, v)) := by
  induction l generalizing a with
  | nil => exact Simulates.pure a
  | cons b l ih =>
    rw [List.foldlM_cons]
    exact Simulates.bind (g := fun a' v => l.foldl (fun r b => f r.1 b r.2) (a', v))
      (hm a b List.mem_cons_self)
      fun v => ih (fun a' b' hb' => hm a' b' (List.mem_cons_of_mem b hb')) (f a b v).1

end Simulates

end Abstraction

end KadDht
