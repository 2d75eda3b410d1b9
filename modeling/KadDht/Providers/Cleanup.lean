import KadDht.Providers.Manager

/-!
# Providers — whether garbage collection goes on

The timer of the garbage collection is set once, when the manager starts, and again at the end of
every round. A round ends when the results of its query are closed. When the query itself fails,
there is no round, and nothing sets the timer again.

* **`alive_iff`** — when garbage collection goes on.
-/

namespace KadDht.Providers.Manager

variable {caching : Bool} {validity : Int64} {s s' : Manager} {l : Label}

/-- A round is in progress, or the timer is armed or has a tick that was not received yet. -/
def Alive (s : Manager) : Prop := s.gcQuery ≠ none ∨ s.gcTimer ≠ .stopped

/-- During a round the timer is not running. -/
def Single (s : Manager) : Prop := s.gcQuery = none ∨ s.gcTimer = .stopped

section Collection

variable [Base32Lib]

/-- What one step does to the garbage collection. -/
theorem alive_step (h : s.Single) (hstep : step caching validity l s = some s') :
    s'.Single ∧ (s'.Alive ↔ s.Alive ∧ l ≠ .gcStart true) := by
  cases move_of_step hstep with
  | add | addFails | hit | queryFails | miss | evict => simpa [Single, Alive] using h
  | fire now htimer =>
    -- the timer was armed, so there is no round
    have hnone : s.gcQuery = none := h.resolve_right (by simp [htimer])
    simp [Single, Alive, htimer, hnone]
  | gcQueryFails htimer =>
    have hnone : s.gcQuery = none := h.resolve_right (by simp [htimer])
    simp [Single, Alive, hnone]
  | gcStart htimer => simp [Single, Alive, htimer]
  | gcKeep _ _ hround | gcDelete hround =>
    have hstopped : s.gcTimer = .stopped := h.resolve_left (by simp [hround])
    simp [Single, Alive, hround, hstopped]
  | gcEnd hround => simp [Single, Alive, hround]

/-- **When garbage collection goes on.** In every state that the manager gets to, a round is in
progress or the timer is armed or has fired, if and only if no query of the garbage collection has
failed so far. -/
theorem alive_iff {d : Datastore} {es : List Label}
    (hrun : Trace.run (step caching validity) es (start d) = some s) :
    s.Alive ↔ .gcStart true ∉ es := by
  have hgeneral : ∀ s0 : Manager, s0.Single → Trace.run (step caching validity) es s0 = some s →
      (s.Alive ↔ s0.Alive ∧ .gcStart true ∉ es) := by
    clear hrun
    induction es with
    | nil =>
      intro s0 _ hrun
      cases hrun
      simp
    | cons l es ih =>
      intro s0 hsingle hrun
      obtain ⟨s1, hstep, hrest⟩ := Trace.run_cons.mp hrun
      obtain ⟨hsingle1, halive⟩ := alive_step hsingle hstep
      rw [ih s1 hsingle1 hrest, halive, List.mem_cons, not_or, and_assoc, ne_comm]
  have hstart : (start d).Alive := .inr (by simp [start])
  rw [hgeneral (start d) (.inl rfl) hrun]
  exact and_iff_right hstart

end Collection

def failedQuery : List Label := [.fire 3600000000000, .gcStart true]

/-- Nothing is left that starts a round. -/
def afterFailedQuery : Manager := ⟨fun _ => none, .empty, .stopped, none, []⟩

theorem alive_iff_failedQuery :
    Trace.run (@step base64Text true 172800000000000) failedQuery (start .empty) =
        some afterFailedQuery ∧
      (afterFailedQuery.Alive ↔ .gcStart true ∉ failedQuery) := by
  let _ := base64Text
  have hrun : Trace.run (step true 172800000000000) failedQuery (start .empty) =
      some afterFailedQuery := rfl
  exact ⟨hrun, alive_iff hrun⟩

theorem not_alive_failedQuery :
    Trace.run (@step base64Text true 172800000000000) failedQuery (start .empty) =
        some afterFailedQuery ∧
      ¬ afterFailedQuery.Alive :=
  ⟨rfl, by simp [Alive, afterFailedQuery]⟩

end KadDht.Providers.Manager
