import Mathlib.Data.List.Basic

/-!
# Lib — threads that share a state

Threads take turns on a shared state. A step of a thread is one program that nothing interrupts; it
returns what is left of the thread. A run lets an arbitrary thread take the next step, over and
over; nothing is said about the order or about fairness.
-/

namespace KadDht

theorem bind_eq_some {σ α β : Type} {m : StateT σ Option α} {k : α → StateT σ Option β} {s : σ}
    {r : β × σ} : (m >>= k) s = some r ↔ ∃ a s1, m s = some (a, s1) ∧ k a s1 = some r := by
  show (m s).bind (fun p => k p.1 p.2) = some r ↔ _
  rw [Option.bind_eq_some_iff, Prod.exists]

structure Pool (σ τ : Type) where
  shared : σ
  threads : List τ

namespace Pool

variable {σ τ : Type} {step : τ → StateT σ Option τ}

def advance (step : τ → StateT σ Option τ) (c : Pool σ τ) (i : Nat) : Option (Pool σ τ) :=
  match c.threads[i]? with
  | none => none
  | some t => (step t c.shared).map fun r => ⟨r.2, c.threads.set i r.1⟩

variable {c c' : Pool σ τ} {i : Nat}

theorem advance_eq_some (h : c.advance step i = some c') :
    ∃ t t' s', c.threads[i]? = some t ∧ step t c.shared = some (t', s') ∧
      c' = ⟨s', c.threads.set i t'⟩ := by
  unfold advance at h
  cases ht : c.threads[i]? with
  | none =>
    rw [ht] at h
    cases h
  | some t =>
    rw [ht] at h
    obtain ⟨r, hr, rfl⟩ := Option.map_eq_some_iff.mp h
    exact ⟨t, r.1, r.2, rfl, hr, rfl⟩

theorem exists_mem_set {P : τ → Prop} {l : List τ} {t t' : τ} (hi : l[i]? = some t)
    (hmove : P t → P t') (h : ∃ a ∈ l, P a) : ∃ a ∈ l.set i t', P a := by
  obtain ⟨a, ha, hP⟩ := h
  obtain ⟨j, hj⟩ := List.mem_iff_getElem?.mp ha
  by_cases hij : i = j
  · have hat : t = a := Option.some.inj (by rw [← hi, hij, hj])
    have hlt : i < l.length := (List.getElem?_eq_some_iff.mp hi).1
    exact ⟨t', List.mem_set hlt t', hmove (hat ▸ hP)⟩
  · refine ⟨a, List.mem_iff_getElem?.mpr ⟨j, ?_⟩, hP⟩
    rw [List.getElem?_set_ne hij, hj]

/-! ## Runs -/

/-- The runs from a pool in which the condition holds before every step. -/
inductive Runs (step : τ → StateT σ Option τ) (cond : Pool σ τ → Nat → Prop) (c : Pool σ τ) :
    Pool σ τ → Prop
  | refl : Runs step cond c c
  | tail {c1 c2 : Pool σ τ} {i : Nat} (h : Runs step cond c c1) (hcond : cond c1 i)
      (hstep : c1.advance step i = some c2) : Runs step cond c c2

variable {cond : Pool σ τ → Nat → Prop}

/-- **The invariant rule.** -/
theorem Runs.invariant {P : Pool σ τ → Prop} (h : Runs step cond c c')
    (hstep : ∀ c i c', P c → cond c i → c.advance step i = some c' → P c') (hc : P c) : P c' := by
  induction h with
  | refl => exact hc
  | tail _ hcond hadv ih => exact hstep _ _ _ ih hcond hadv

theorem Runs.head {c1 c2 : Pool σ τ} (hcond : cond c i) (hstep : c.advance step i = some c1)
    (h : Runs step cond c1 c2) : Runs step cond c c2 := by
  induction h with
  | refl => exact Runs.refl.tail hcond hstep
  | tail _ hcond' hstep' ih => exact ih.tail hcond' hstep'

/-- The threads take steps in the given order; the run is given up when a check fails. -/
def exec (step : τ → StateT σ Option τ) (check : Pool σ τ → Nat → Bool) (c : Pool σ τ) :
    List Nat → Option (Pool σ τ)
  | [] => some c
  | i :: order =>
    if check c i then
      match c.advance step i with
      | none => none
      | some c' => exec step check c' order
    else none

theorem runs_of_exec {check : Pool σ τ → Nat → Bool} (hcheck : ∀ c i, check c i = true → cond c i)
    (order : List Nat) (h : c.exec step check order = some c') : Runs step cond c c' := by
  induction order generalizing c with
  | nil =>
    cases h
    exact Runs.refl
  | cons i order ih =>
    unfold exec at h
    split at h
    · next hi =>
      split at h
      · cases h
      · next c1 hadv => exact Runs.head (hcheck c i hi) hadv (ih h)
    · cases h

end Pool

end KadDht
