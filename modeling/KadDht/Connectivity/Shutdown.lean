import KadDht.Connectivity.Checker

/-!
# Connectivity — `Close` (`provider/internal/connectivity/connectivity.go`)

`Close` closes `done` before it takes the mutex and sets `closed`. A prober that sees `done` gives
the mutex up, and a `TriggerCheck` that gets it then still finds `closed` unset. It does not ask
whether the node is online: when its check fails, it reports a disconnection. `Start` does not look
at `closed` at all.

* **`proper_iff`** — when no such callback can come.
-/

namespace KadDht.Connectivity

open Trace

/-! ## What must not happen -/

namespace Checker

variable {cfg : Config} {s s' : Checker} {l : Label}

/-- A callback comes next, and `Close` has returned, or it is `onDisconnected` and the node was not
online. -/
def Wrong (s : Checker) : Prop :=
  ∃ t, s.holder = some t ∧
    (t.callback ≠ none ∧ s.closer = .returned ∨ t = .callsDisconnected false)

/-- From no state of a run the goroutines that are there come to a wrong callback. -/
def Proper (cfg : Config) (es : List Label) : Prop :=
  ∀ s, Trace.Visits (step cfg) es new s → ∀ es' s', (∀ e ∈ es', e.isCall = false) →
    Trace.run (step cfg) es' s = some s' → ¬ s'.Wrong

/-! ## The invariant -/

/-- What a task may rely on, by how far `Close` is. -/
def Right (cfg : Config) (online closed : Bool) (closer : Progress) : Task → Prop
  | .tests => closed = true ∨ online = true
  | .checks => online = true ∧ closer ≠ .returned
  | .disconnects => online = true ∧ closer ≠ .returned
  | .callsDisconnected was => was = true ∧ closer ≠ .returned
  | .enters disconnected => closer = .returned → disconnected = false
  | .callsOffline _ => closer ≠ .returned
  | .waits loop => closer = .returned → loop.offlineC = false
  | .probes none => closer = .returned → cfg.startDisconnected = false
  | .probes (some loop) => closer = .returned → loop.offlineC = false
  | .connects => True
  | .callsOnline => closer ≠ .returned
  | .closes => closer = .locked
  | .closed => closed = true ∧ closer = .locked
  | .unlocks => True

structure Orderly (cfg : Config) (s : Checker) : Prop where
  task : ∀ t, s.holder = some t → Right cfg s.online s.closed s.closer t
  done : s.closer ≠ .idle → s.done = true
  closed : s.closer = .returned → s.closed = true

theorem orderly_new : Orderly cfg new where
  task t ht := by cases ht
  done h := absurd rfl h
  closed h := by cases h

theorem Orderly.not_wrong (h : s.Orderly cfg) : ¬ s.Wrong := by
  rintro ⟨t, ht, ⟨hcallback, hreturned⟩ | rfl⟩
  · have hright := h.task t ht
    cases t with
    | callsDisconnected was => exact hright.2 hreturned
    | callsOffline loop | callsOnline => exact hright hreturned
    | _ => exact hcallback rfl
  · cases (h.task _ ht).1

theorem Right.close {online closed : Bool} {t : Task} (h : Right cfg online closed .idle t) :
    Right cfg online closed .locks t := by
  cases t with
  | probes loop =>
    cases loop with
    | none | some => intro hlocks; cases hlocks
  | closes => cases h
  | closed => cases h.2
  | checks | disconnects | callsDisconnected => exact ⟨h.1, by decide⟩
  | callsOffline | callsOnline => intro hlocks; cases hlocks
  | enters | waits => intro hlocks; cases hlocks
  | tests => exact h
  | connects | unlocks => trivial

/-- The mutex is passed to a task, and nothing else matters to the invariant. -/
theorem Orderly.pass {online : Bool} {lastCheck : Time} {log : List Callback} {t : Task}
    (h : s.Orderly cfg) (ht : Right cfg online s.closed s.closer t) :
    Orderly cfg { s with online, lastCheck, log, holder := some t } where
  __ := h
  task t' ht' := by
    cases ht'
    exact ht

/-- What the calls must respect: a trigger that gets the mutex finds the checker closed or online,
and a `Start` that gets it after `Close` has returned does not begin disconnected. -/
theorem orderly_step (htrigger : l = .trigger → s.holder = none → s.closed = true ∨ s.online = true)
    (hstart : l = .startLocks → s.closer = .returned → cfg.startDisconnected = false)
    (h : s.Orderly cfg) (hstep : step cfg l s = some s') : s'.Orderly cfg := by
  cases move_of_step hstep with
  | start | triggerBusy | closeAgain => exact { h with }
  | startLocks hstarter hholder =>
    exact ⟨fun t ht => Option.some.inj ht ▸ hstart rfl, h.done, h.closed⟩
  | trigger hholder => exact h.pass (htrigger rfl hholder)
  | close hcloser =>
    refine ⟨fun t ht => ?_, fun _ => rfl, fun hlocks => by cases hlocks⟩
    have hright := h.task t ht
    rw [hcloser] at hright
    exact hright.close
  | closeLocks hcloser hholder =>
    have hdone : s.done = true := h.done (by rw [hcloser]; decide)
    exact ⟨fun t ht => Option.some.inj ht ▸ rfl, fun _ => hdone, fun hlocked => by cases hlocked⟩
  | testEnds hholder | checkOk hholder | probeOk hholder | callOnline hholder
  | connectDone hholder hdone | stop hholder hdone => exact h.pass trivial
  | test hholder hopen =>
    have honline : s.online = true :=
      (h.task _ hholder).resolve_left fun hclosed => by rw [hopen] at hclosed; cases hclosed
    -- once `Close` has returned, `closed` is set
    refine h.pass ⟨honline, fun hreturned => ?_⟩
    rw [h.closed hreturned] at hopen
    cases hopen
  | checkFails hholder =>
    have honline := h.task _ hholder
    exact h.pass honline
  | firstFails hholder | enterLater hholder | timer hholder =>
    exact h.pass fun hreturned => h.task _ hholder hreturned
  | probeFails hholder hloop =>
    exact h.pass fun hreturned => hloop.trans (h.task _ hholder hreturned)
  | disconnect hholder => exact h.pass (h.task _ hholder)
  | callDisconnected hholder =>
    exact h.pass fun hreturned => absurd hreturned (h.task _ hholder).2
  | callOffline hholder => exact h.pass fun hreturned => absurd hreturned (h.task _ hholder)
  | enterOffline hholder => exact h.pass fun _ => rfl
  | enterNow hholder => exact h.pass fun hreturned => by cases h.task _ hholder hreturned
  | connect hholder hdone =>
    refine h.pass fun hreturned => ?_
    rw [h.done (by rw [hreturned]; decide)] at hdone
    cases hdone
  | offline hholder hoffline =>
    refine h.pass fun hreturned => ?_
    rw [h.task _ hholder hreturned] at hoffline
    cases hoffline
  | setClosed hholder =>
    exact ⟨fun t ht => Option.some.inj ht ▸ ⟨rfl, h.task _ hholder⟩, h.done, fun _ => rfl⟩
  | unlock hholder => exact ⟨fun t ht => (by cases ht), h.done, h.closed⟩
  | unlockClose hholder =>
    obtain ⟨hclosed, hlocked⟩ := h.task _ hholder
    have hdone : s.done = true := h.done (by rw [hlocked]; decide)
    exact ⟨fun t ht => (by cases ht), fun _ => hdone, fun _ => hclosed⟩

/-! ## When it does not happen -/

variable (cfg) in
/-- A `TriggerCheck` that gets the mutex while the node is offline reports a disconnection. -/
theorem exists_wrong_trigger (hclosed : s.closed = false) (honline : s.online = false) :
    ∃ es' s', (∀ e ∈ es', e.isCall = false) ∧
      Trace.run (step cfg) es' { s with holder := some .tests } = some s' ∧ s'.Wrong := by
  refine ⟨[.test s.lastCheck, .check false s.lastCheck, .disconnect],
    { s with online := false, holder := some (.callsDisconnected false) }, ?_, ?_, ?_⟩
  · simp [Label.isCall]
  · simp [run, step, hclosed, honline]
  · exact ⟨_, rfl, .inr rfl⟩

theorem exists_wrong_start (hreturned : s.closer = .returned)
    (hcfg : cfg.startDisconnected = true) :
    ∃ es' s', (∀ e ∈ es', e.isCall = false) ∧
      Trace.run (step cfg) es' { s with holder := some (.probes none) } = some s' ∧ s'.Wrong := by
  -- with a delay the offline timer is waited for
  by_cases hdelay : cfg.offlineDelay = 0
  · refine ⟨[.check false s.lastCheck, .enter],
      { s with holder := some (.callsOffline ⟨false, initialBackoffDelay⟩) }, ?_, ?_, ?_⟩
    · simp [Label.isCall]
    · simp [run, step, hcfg, hdelay]
    · exact ⟨_, rfl, .inl ⟨by simp [Task.callback], hreturned⟩⟩
  · refine ⟨[.check false s.lastCheck, .enter, .offline],
      { s with holder := some (.callsOffline ⟨false, initialBackoffDelay⟩) }, ?_, ?_, ?_⟩
    · simp [Label.isCall]
    · simp [run, step, hcfg, hdelay]
    · exact ⟨_, rfl, .inl ⟨by simp [Task.callback], hreturned⟩⟩

/-- **When the shutdown is proper.** No callback starts after `Close` has returned, and
`onDisconnected` is only called for a node that was online, if and only if `TriggerCheck` gets the
mutex only when the node is online or closed, and `Start` does not get it after `Close` has returned
with the option to start disconnected. -/
theorem proper_iff {es : List Label} :
    Proper cfg es ↔
      (∀ s, Trace.Takes (step cfg) es new .trigger s → s.holder = none →
        s.closed = true ∨ s.online = true) ∧
      (∀ s s', Trace.Takes (step cfg) es new .startLocks s → step cfg .startLocks s = some s' →
        s.closer = .returned → cfg.startDisconnected = false) := by
  constructor
  · intro hproper
    constructor
    · intro s htakes hholder
      by_contra hneither
      obtain ⟨hclosed, honline⟩ := not_or.mp hneither
      have hstep : step cfg .trigger s = some { s with holder := some .tests } := by
        rw [step, hholder]
      obtain ⟨es', s', hes', hrun, hwrong⟩ := exists_wrong_trigger cfg
        (Bool.eq_false_of_not_eq_true hclosed) (Bool.eq_false_of_not_eq_true honline)
      exact hproper _ (htakes.visits hstep) es' s' hes' hrun hwrong
    · intro s s' htakes hstep hreturned
      by_contra hcfg
      cases move_of_step hstep with
      | startLocks hstarter hholder =>
        obtain ⟨es', s', hes', hrun, hwrong⟩ :=
          exists_wrong_start (s := { s with starter := .returned }) hreturned
            (Bool.eq_true_of_not_eq_false hcfg)
        exact hproper _ (htakes.visits hstep) es' s' hes' hrun hwrong
  · rintro ⟨htrigger, hstart⟩ s hvisits es' s' hes' hrun
    have hs : s.Orderly cfg := by
      refine hvisits.invariant (fun l s1 s2 htakes h hstep => ?_) orderly_new
      refine orderly_step (fun hl => ?_) (fun hl => ?_) h hstep
      · subst hl
        exact htrigger s1 htakes
      · subst hl
        exact hstart s1 s2 htakes hstep
    -- the goroutines that are left call nothing, and take the mutex no more
    refine (invariant (fun l hl s1 s2 h hstep => ?_) hs hrun : s'.Orderly cfg).not_wrong
    refine orderly_step (fun hl' => ?_) (fun hl' => ?_) h hstep
    · subst hl'
      cases hes' _ hl
    · subst hl'
      cases hes' _ hl

/-- The prober of a node that never came online gives up while `Close` waits for the mutex, and
`TriggerCheck` is faster. -/
def overtaken : List Label :=
  [.start, .startLocks, .check false ⟨1, 0⟩, .enter, .close, .stop, .unlock, .trigger,
    .test ⟨2, 0⟩, .check false ⟨3, 0⟩, .disconnect]

theorem not_proper_overtaken : ¬ Proper ⟨false, 60000000000, 7200000000000⟩ overtaken := by
  intro hproper
  have hrun : run (step ⟨false, 60000000000, 7200000000000⟩) overtaken new =
      some ⟨true, false, false, ⟨0, 0⟩, some (.callsDisconnected false), .returned, .locks, []⟩ :=
    rfl
  refine hproper _ ⟨overtaken, [], (List.append_nil _).symm, hrun⟩ [] _ ?_ rfl ?_
  · simp
  · exact ⟨_, rfl, .inr rfl⟩

end Checker

end KadDht.Connectivity
