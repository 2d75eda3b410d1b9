import KadDht.Lib.Clock
import KadDht.Lib.Trace

/-!
# Connectivity — the checker (`provider/internal/connectivity/connectivity.go`)

`Start` and `TriggerCheck` each start a goroutine that keeps the mutex until the node is online, and
`TriggerCheck` does nothing while the mutex is taken. So one goroutine at a time does all the work,
and the state of the machine is where it is: checking, waiting for a timer, or calling a callback.
`Close` first closes a channel, which ends the loop of the goroutine, and then takes the mutex.

* **`Lawful`**, **`lawful_run`** — the sequences of callbacks that are allowed; after `Start` and
  without `Close` there are no others, and `IsOnline` follows them.
-/

namespace KadDht.Connectivity

open Trace

/-! ## Model -/

/-- The callbacks. One that was not set does nothing. -/
inductive Callback where
  | onOnline
  | onDisconnected
  | onOffline
deriving DecidableEq

/-- The options. Intervals and delays are in nanoseconds. -/
structure Config where
  startDisconnected : Bool
  onlineCheckInterval : Int64
  offlineDelay : Int64

def initialBackoffDelay : Nat := 100000000

def maxBackoffDelay : Nat := 60000000000

/-- What `probeLoop` keeps: whether the offline timer is still to fire, and the delay of the other
one. -/
structure Loop where
  offlineC : Bool
  delay : Nat
deriving DecidableEq

inductive Task where
  /-- `TriggerCheck` has the mutex. -/
  | tests
  /-- The goroutine of `TriggerCheck` calls `checkFunc`. -/
  | checks
  /-- The check has failed. -/
  | disconnects
  /-- `onDisconnected` comes next, after the node was online or not. -/
  | callsDisconnected (was : Bool)
  /-- `probeLoop` starts. -/
  | enters (disconnected : Bool)
  | callsOffline (loop : Loop)
  /-- The `select` of `probeLoop`. -/
  | waits (loop : Loop)
  /-- `probe` calls `checkFunc`, the first time or in the loop. -/
  | probes (loop : Option Loop)
  /-- `probe` has found the node online, and looks at `done`. -/
  | connects
  | callsOnline
  /-- `Close` has the mutex. -/
  | closes
  /-- `Close` has set `closed`. -/
  | closed
  /-- The mutex is about to be released. -/
  | unlocks
deriving DecidableEq

def Task.callback : Task → Option Callback
  | callsDisconnected _ => some .onDisconnected
  | callsOffline _ => some .onOffline
  | callsOnline => some .onOnline
  | _ => none

inductive Progress where
  | idle
  /-- It waits for the mutex. -/
  | locks
  | locked
  | returned
deriving DecidableEq

structure Checker where
  /-- `done` is closed. -/
  done : Bool
  closed : Bool
  online : Bool
  lastCheck : Time
  /-- Who has the mutex. -/
  holder : Option Task
  starter : Progress
  closer : Progress
  /-- The callbacks that were called. -/
  log : List Callback

inductive Label where
  /-- `Start` is called. -/
  | start
  | startLocks
  | trigger
  /-- `Close` is called. -/
  | close
  | closeLocks
  /-- `TriggerCheck` looks at the state. -/
  | test (now : Time)
  /-- `checkFunc` returns. -/
  | check (ok : Bool) (now : Time)
  | disconnect
  | call
  | enter
  | connect (now : Time)
  /-- The loop finds `done` closed. -/
  | stop
  | timer
  /-- The offline timer has fired. -/
  | offline
  | setClosed
  | unlock

/-- Somebody calls `Start`, `TriggerCheck` or `Close`, or gets the mutex. -/
def Label.isCall : Label → Bool
  | start => true
  | startLocks => true
  | trigger => true
  | close => true
  | closeLocks => true
  | _ => false

namespace Checker

def new : Checker where
  done := false
  closed := false
  online := false
  lastCheck := ⟨0, 0⟩
  holder := none
  starter := .idle
  closer := .idle
  log := []

variable (cfg : Config)

def step : Label → Checker → Option Checker
  | .start, s =>
    match s.starter with
    | .idle => some { s with starter := .locks }
    | _ => none
  | .startLocks, s =>
    match s.starter, s.holder with
    | .locks, none => some { s with starter := .returned, holder := some (.probes none) }
    | _, _ => none
  | .trigger, s =>
    match s.holder with
    | none => some { s with holder := some .tests }
    -- a check is already in progress
    | some _ => some s
  | .close, s =>
    match s.closer with
    | .idle => some { s with done := true, closer := .locks }
    | _ => some s
  | .closeLocks, s =>
    match s.closer, s.holder with
    | .locks, none => some { s with closer := .locked, holder := some .closes }
    | _, _ => none
  | .test now, s =>
    match s.holder with
    | some .tests =>
      if s.closed then some { s with holder := some .unlocks }
      else if s.online ∧ now.sub s.lastCheck < cfg.onlineCheckInterval then
        some { s with holder := some .unlocks }
      else some { s with holder := some .checks }
    | _ => none
  | .check ok now, s =>
    match s.holder with
    | some .checks =>
      if ok then some { s with lastCheck := now, holder := some .unlocks }
      else some { s with holder := some .disconnects }
    | some (.probes loop) =>
      if ok then some { s with holder := some .connects }
      else
        match loop with
        | none => some { s with holder := some (.enters cfg.startDisconnected) }
        | some loop =>
          let delay := min (2 * loop.delay) maxBackoffDelay
          some { s with holder := some (.waits { loop with delay := delay }) }
    | _ => none
  | .disconnect, s =>
    match s.holder with
    | some .disconnects =>
      some { s with online := false, holder := some (.callsDisconnected s.online) }
    | _ => none
  | .call, s =>
    match s.holder with
    | some (.callsDisconnected _) =>
      some { s with log := s.log ++ [.onDisconnected], holder := some (.enters true) }
    | some (.callsOffline loop) =>
      some { s with log := s.log ++ [.onOffline], holder := some (.waits loop) }
    | some .callsOnline => some { s with log := s.log ++ [.onOnline], holder := some .unlocks }
    | _ => none
  | .enter, s =>
    match s.holder with
    | some (.enters false) => some { s with holder := some (.waits ⟨false, initialBackoffDelay⟩) }
    | some (.enters true) =>
      if cfg.offlineDelay = 0 then
        some { s with holder := some (.callsOffline ⟨false, initialBackoffDelay⟩) }
      else some { s with holder := some (.waits ⟨true, initialBackoffDelay⟩) }
    | _ => none
  | .connect now, s =>
    match s.holder with
    | some .connects =>
      if s.done then some { s with holder := some .unlocks }
      else some { s with online := true, lastCheck := now, holder := some .callsOnline }
    | _ => none
  | .stop, s =>
    match s.holder with
    | some (.waits _) => if s.done then some { s with holder := some .unlocks } else none
    | _ => none
  | .timer, s =>
    match s.holder with
    | some (.waits loop) => some { s with holder := some (.probes (some loop)) }
    | _ => none
  | .offline, s =>
    match s.holder with
    | some (.waits loop) =>
      if loop.offlineC then
        some { s with holder := some (.callsOffline { loop with offlineC := false }) }
      else none
    | _ => none
  | .setClosed, s =>
    match s.holder with
    | some .closes => some { s with closed := true, holder := some .closed }
    | _ => none
  | .unlock, s =>
    match s.holder with
    | some .unlocks => some { s with holder := none }
    | some .closed => some { s with holder := none, closer := .returned }
    | _ => none

/-! ## What a step does -/

variable (s : Checker)

inductive Move : Label → Checker → Prop where
  | start (hstarter : s.starter = .idle) : Move .start { s with starter := .locks }
  | startLocks (hstarter : s.starter = .locks) (hholder : s.holder = none) :
    Move .startLocks { s with starter := .returned, holder := some (.probes none) }
  | trigger (hholder : s.holder = none) : Move .trigger { s with holder := some .tests }
  | triggerBusy {t : Task} (hholder : s.holder = some t) : Move .trigger s
  | close (hcloser : s.closer = .idle) : Move .close { s with done := true, closer := .locks }
  | closeAgain (hcloser : s.closer ≠ .idle) : Move .close s
  | closeLocks (hcloser : s.closer = .locks) (hholder : s.holder = none) :
    Move .closeLocks { s with closer := .locked, holder := some .closes }
  | testEnds {now : Time} (hholder : s.holder = some .tests) :
    Move (.test now) { s with holder := some .unlocks }
  | test {now : Time} (hholder : s.holder = some .tests) (hopen : s.closed = false) :
    Move (.test now) { s with holder := some .checks }
  | checkOk {now : Time} (hholder : s.holder = some .checks) :
    Move (.check true now) { s with lastCheck := now, holder := some .unlocks }
  | checkFails {now : Time} (hholder : s.holder = some .checks) :
    Move (.check false now) { s with holder := some .disconnects }
  | probeOk {now : Time} {loop : Option Loop} (hholder : s.holder = some (.probes loop)) :
    Move (.check true now) { s with holder := some .connects }
  | firstFails {now : Time} (hholder : s.holder = some (.probes none)) :
    Move (.check false now) { s with holder := some (.enters cfg.startDisconnected) }
  | probeFails {now : Time} {loop loop' : Loop}
    (hholder : s.holder = some (.probes (some loop))) (hloop : loop'.offlineC = loop.offlineC) :
    Move (.check false now) { s with holder := some (.waits loop') }
  | disconnect (hholder : s.holder = some .disconnects) :
    Move .disconnect { s with online := false, holder := some (.callsDisconnected s.online) }
  | callDisconnected {was : Bool} (hholder : s.holder = some (.callsDisconnected was)) :
    Move .call { s with log := s.log ++ [.onDisconnected], holder := some (.enters true) }
  | callOffline {loop : Loop} (hholder : s.holder = some (.callsOffline loop)) :
    Move .call { s with log := s.log ++ [.onOffline], holder := some (.waits loop) }
  | callOnline (hholder : s.holder = some .callsOnline) :
    Move .call { s with log := s.log ++ [.onOnline], holder := some .unlocks }
  | enterOffline {delay : Nat} (hholder : s.holder = some (.enters false)) :
    Move .enter { s with holder := some (.waits ⟨false, delay⟩) }
  | enterNow {delay : Nat} (hholder : s.holder = some (.enters true)) :
    Move .enter { s with holder := some (.callsOffline ⟨false, delay⟩) }
  | enterLater {delay : Nat} (hholder : s.holder = some (.enters true)) :
    Move .enter { s with holder := some (.waits ⟨true, delay⟩) }
  | connectDone {now : Time} (hholder : s.holder = some .connects)
    (hdone : s.done = true) : Move (.connect now) { s with holder := some .unlocks }
  | connect {now : Time} (hholder : s.holder = some .connects) (hdone : s.done = false) :
    Move (.connect now) { s with online := true, lastCheck := now, holder := some .callsOnline }
  | stop {loop : Loop} (hholder : s.holder = some (.waits loop))
    (hdone : s.done = true) : Move .stop { s with holder := some .unlocks }
  | timer {loop : Loop} (hholder : s.holder = some (.waits loop)) :
    Move .timer { s with holder := some (.probes (some loop)) }
  | offline {loop : Loop} (hholder : s.holder = some (.waits loop))
    (hoffline : loop.offlineC = true) :
    Move .offline { s with holder := some (.callsOffline { loop with offlineC := false }) }
  | setClosed (hholder : s.holder = some .closes) :
    Move .setClosed { s with closed := true, holder := some .closed }
  | unlock (hholder : s.holder = some .unlocks) : Move .unlock { s with holder := none }
  | unlockClose (hholder : s.holder = some .closed) :
    Move .unlock { s with holder := none, closer := .returned }

variable {cfg s} {s' : Checker} {l : Label}

/-- A step is one of the moves. -/
theorem move_of_step (h : step cfg l s = some s') : Move cfg s l s' := by
  cases l with
  | start | startLocks | trigger | close | closeLocks | disconnect | call | timer | setClosed
  | unlock =>
    rw [step] at h
    split at h <;> cases h <;> constructor <;> assumption
  | test now =>
    rw [step] at h
    split at h
    · next hholder =>
      split at h
      · cases h; exact .testEnds hholder
      · next hclosed =>
        split at h
        · cases h; exact .testEnds hholder
        · cases h; exact .test hholder (Bool.eq_false_of_not_eq_true hclosed)
    · cases h
  | check ok now =>
    rw [step] at h
    split at h
    · next hholder =>
      cases ok with
      | true => cases h; exact .checkOk hholder
      | false => cases h; exact .checkFails hholder
    · next loop hholder =>
      cases ok with
      | true => cases h; exact .probeOk hholder
      | false =>
        cases loop with
        | none => cases h; exact .firstFails hholder
        | some loop => cases h; exact .probeFails hholder rfl
    · cases h
  | enter =>
    rw [step] at h
    split at h
    · next hholder => cases h; exact .enterOffline hholder
    · next hholder =>
      split at h
      · cases h; exact .enterNow hholder
      · cases h; exact .enterLater hholder
    · cases h
  | connect now =>
    rw [step] at h
    split at h
    · next hholder =>
      split at h
      · next hdone => cases h; exact .connectDone hholder hdone
      · next hdone => cases h; exact .connect hholder (Bool.eq_false_of_not_eq_true hdone)
    · cases h
  | stop | offline =>
    rw [step] at h
    split at h
    · obtain ⟨hguard, ⟨⟩⟩ := Option.ite_none_right_eq_some.mp h
      constructor <;> assumption
    · cases h

end Checker

/-! ## Sequences of callbacks -/

/-- Whether the last of `onOnline` and `onDisconnected` was `onOnline`, with the value before. -/
def lastOnline : Bool → List Callback → Bool
  | b, [] => b
  | _, .onOnline :: log => lastOnline true log
  | _, .onDisconnected :: log => lastOnline false log
  | b, .onOffline :: log => lastOnline b log

structure Lawful (log : List Callback) : Prop where
  online : ∀ before between after,
    log = before ++ .onOnline :: (between ++ .onOnline :: after) → .onDisconnected ∈ between
  disconnected : ∀ before after,
    log = before ++ .onDisconnected :: after → lastOnline false before = true
  offline : ∀ before after, log = before ++ .onOffline :: after → lastOnline false before = false
  offlineOnce : ∀ before between after,
    log = before ++ .onOffline :: (between ++ .onOffline :: after) → .onOnline ∈ between

/-- What the callbacks tell: the node is online, or it is waited for, with or without a call of
`onOffline` since. -/
inductive Mode where
  | waiting (offline : Bool)
  | online
deriving DecidableEq

namespace Mode

def isOnline : Mode → Bool
  | waiting _ => false
  | online => true

def next : Callback → Mode → Option Mode
  | .onOnline, waiting _ => some online
  | .onOffline, waiting false => some (waiting true)
  | .onDisconnected, online => some (waiting false)
  | _, _ => none

variable {m m' : Mode} {log log' : List Callback} {cb : Callback}

/-- A callback in the middle of a sequence. -/
theorem exists_next (h : run next (log ++ cb :: log') m = some m') :
    ∃ m1 m2, run next log m = some m1 ∧ next cb m1 = some m2 ∧
      run next log' m2 = some m' := by
  obtain ⟨m1, hbefore, hrest⟩ := run_append.mp h
  obtain ⟨m2, hnext, hafter⟩ := run_cons.mp hrest
  exact ⟨m1, m2, hbefore, hnext, hafter⟩

theorem lastOnline_of_run (h : run next log m = some m') :
    lastOnline m.isOnline log = m'.isOnline := by
  induction log generalizing m with
  | nil =>
    cases h
    rfl
  | cons cb log ih =>
    obtain ⟨m1, hnext, hafter⟩ := run_cons.mp h
    rw [← ih hafter]
    cases m with
    | online =>
      cases cb with
      | onDisconnected => cases hnext; rfl
      | onOnline | onOffline => cases hnext
    | waiting offline =>
      cases cb with
      | onOnline => cases hnext; rfl
      | onDisconnected => cases hnext
      | onOffline =>
        cases offline with
        | false => cases hnext; rfl
        | true => cases hnext

theorem mem_of_online {offline : Bool}
    (h : run next log online = some (waiting offline)) : .onDisconnected ∈ log := by
  cases log with
  | nil => cases h
  | cons cb log =>
    cases cb with
    | onDisconnected => exact List.mem_cons_self
    | onOnline | onOffline => cases h

theorem mem_of_offline (h : run next log (waiting true) = some (waiting false)) :
    .onOnline ∈ log := by
  cases log with
  | nil => cases h
  | cons cb log =>
    cases cb with
    | onOnline => exact List.mem_cons_self
    | onDisconnected | onOffline => cases h

theorem eq_of_onOffline (h : next .onOffline m = some m') :
    m = .waiting false ∧ m' = .waiting true := by
  cases m with
  | online => cases h
  | waiting offline =>
    cases offline with
    | false => cases h; exact ⟨rfl, rfl⟩
    | true => cases h

end Mode

theorem lawful_of_mode {log : List Callback} {m : Mode}
    (h : run Mode.next log (.waiting false) = some m) : Lawful log := by
  constructor
  · rintro before between after rfl
    obtain ⟨m1, m2, -, honline, hrest⟩ := Mode.exists_next h
    obtain ⟨m3, m4, hbetween, hagain, -⟩ := Mode.exists_next hrest
    obtain rfl : m2 = .online := by
      cases m1 with
      | online => cases honline
      | waiting offline => cases honline; rfl
    cases m3 with
    | online => cases hagain
    | waiting offline => exact Mode.mem_of_online hbetween
  · rintro before after rfl
    obtain ⟨m1, m2, hbefore, hnext, -⟩ := Mode.exists_next h
    cases m1 with
    | online => exact Mode.lastOnline_of_run hbefore
    | waiting offline => cases hnext
  · rintro before after rfl
    obtain ⟨m1, m2, hbefore, hnext, -⟩ := Mode.exists_next h
    obtain ⟨rfl, -⟩ := Mode.eq_of_onOffline hnext
    exact Mode.lastOnline_of_run hbefore
  · rintro before between after rfl
    obtain ⟨m1, m2, -, hoffline, hrest⟩ := Mode.exists_next h
    obtain ⟨m3, m4, hbetween, hagain, -⟩ := Mode.exists_next hrest
    obtain ⟨-, rfl⟩ := Mode.eq_of_onOffline hoffline
    obtain ⟨rfl, -⟩ := Mode.eq_of_onOffline hagain
    exact Mode.mem_of_offline hbetween

/-! ## After `Start`

The mode of the callbacks is known from what the holder of the mutex does. The offline timer is
armed only while `onOffline` was not called since the node was last online. -/

/-- The mode of the callbacks, by what is done under the mutex and whether the node is online. -/
inductive Matches : Option Task → Bool → Mode → Prop where
  | free : Matches none true .online
  | tests : Matches (some .tests) true .online
  | checks : Matches (some .checks) true .online
  | disconnects : Matches (some .disconnects) true .online
  | unlocks : Matches (some .unlocks) true .online
  | callsDisconnected : Matches (some (.callsDisconnected true)) false .online
  | enters (disconnected : Bool) : Matches (some (.enters disconnected)) false (.waiting false)
  | callsOffline {loop : Loop} (hoffline : loop.offlineC = false) :
    Matches (some (.callsOffline loop)) false (.waiting false)
  | waits {loop : Loop} {offline : Bool} (hoffline : loop.offlineC = true → offline = false) :
    Matches (some (.waits loop)) false (.waiting offline)
  | probesFirst : Matches (some (.probes none)) false (.waiting false)
  | probes {loop : Loop} {offline : Bool} (hoffline : loop.offlineC = true → offline = false) :
    Matches (some (.probes (some loop))) false (.waiting offline)
  | connects (offline : Bool) : Matches (some .connects) false (.waiting offline)
  | callsOnline (offline : Bool) : Matches (some .callsOnline) true (.waiting offline)

structure Checker.Follows (s : Checker) : Prop where
  starter : s.starter = .returned
  closer : s.closer = .idle
  done : s.done = false
  mode : ∃ m, Trace.run Mode.next s.log (.waiting false) = some m ∧ Matches s.holder s.online m

namespace Checker

variable {cfg : Config} {s s' : Checker} {l : Label}

/-- The mode after one more callback. -/
theorem run_log {log : List Callback} {cb : Callback} {m m' : Mode}
    (h : run Mode.next log (.waiting false) = some m) (hnext : Mode.next cb m = some m') :
    run Mode.next (log ++ [cb]) (.waiting false) = some m' := by
  refine run_append.mpr ⟨m, h, ?_⟩
  rw [run_singleton, hnext]

/-- Without `Close`, the task under the mutex determines which callbacks may come next. -/
theorem follows_step (hclose : l ≠ .close) (h : s.Follows) (hstep : step cfg l s = some s') :
    s'.Follows := by
  obtain ⟨hstarted, hunclosed, hopen, m, hlog, hmatch⟩ := h
  obtain ⟨done, closed, online, lastCheck, holder, starter, closer, log⟩ := s
  dsimp only at hstarted hunclosed hopen hlog hmatch
  -- without `Close` there is nothing under the mutex that belongs to it
  cases move_of_step hstep with
  | start hstarter | startLocks hstarter => rw [hstarted] at hstarter; cases hstarter
  | close | closeAgain => exact absurd rfl hclose
  | closeLocks hcloser => rw [hunclosed] at hcloser; cases hcloser
  | connectDone hholder hdone | stop hholder hdone => rw [hopen] at hdone; cases hdone
  | setClosed hholder | unlockClose hholder => cases hholder; cases hmatch
  | triggerBusy hholder => exact ⟨hstarted, hunclosed, hopen, m, hlog, hmatch⟩
  -- no callback is called, and there is one rule for what is done next
  | trigger hholder | testEnds hholder | test hholder _ | checkOk hholder | checkFails hholder
  | firstFails hholder | disconnect hholder | connect hholder _ | unlock hholder =>
    cases hholder
    cases hmatch
    exact ⟨hstarted, hunclosed, hopen, _, hlog, by constructor⟩
  | callDisconnected hholder | callOnline hholder =>
    cases hholder
    cases hmatch
    exact ⟨hstarted, hunclosed, hopen, _, run_log hlog rfl, by constructor⟩
  | probeFails hholder hloop =>
    cases hholder
    cases hmatch with
    | probes hoffline =>
      refine ⟨hstarted, hunclosed, hopen, _, hlog, .waits fun h => hoffline ?_⟩
      rw [← hloop, h]
  | callOffline hholder =>
    cases hholder
    cases hmatch with
    | callsOffline hoffline =>
      -- the timer is not armed, or it has fired
      refine ⟨hstarted, hunclosed, hopen, _, run_log hlog rfl, .waits fun h => ?_⟩
      rw [hoffline] at h
      cases h
  | enterNow hholder =>
    cases hholder
    cases hmatch
    exact ⟨hstarted, hunclosed, hopen, _, hlog, .callsOffline rfl⟩
  | enterOffline hholder | enterLater hholder =>
    cases hholder
    cases hmatch
    exact ⟨hstarted, hunclosed, hopen, _, hlog, .waits (fun _ => rfl)⟩
  | offline hholder hoffline =>
    cases hholder
    cases hmatch with
    | waits hfalse =>
      obtain rfl := hfalse hoffline
      exact ⟨hstarted, hunclosed, hopen, _, hlog, .callsOffline rfl⟩
  | probeOk hholder =>
    cases hholder
    cases hmatch with
    | probesFirst | probes => exact ⟨hstarted, hunclosed, hopen, _, hlog, .connects _⟩
  | timer hholder =>
    cases hholder
    cases hmatch with
    | waits hoffline => exact ⟨hstarted, hunclosed, hopen, _, hlog, .probes hoffline⟩

theorem follows_start {es : List Label}
    (hrun : run (step cfg) (.start :: .startLocks :: es) new = some s) :
    ∃ s1, Follows s1 ∧ run (step cfg) es s1 = some s := by
  obtain ⟨s1, hstart, hrest⟩ := run_cons.mp hrun
  obtain ⟨s2, hlocks, hrest⟩ := run_cons.mp hrest
  cases hstart
  cases hlocks
  exact ⟨_, ⟨rfl, rfl, rfl, _, rfl, .probesFirst⟩, hrest⟩

/-- `online` and the callback that reports it are two steps. -/
def InTransition (s : Checker) : Prop :=
  s.holder = some .callsOnline ∨ ∃ was, s.holder = some (.callsDisconnected was)

theorem Follows.online_eq (h : s.Follows) (hsettled : ¬ s.InTransition) :
    s.online = lastOnline false s.log := by
  obtain ⟨m, hlog, hmatch⟩ := h.mode
  have hlast : lastOnline false s.log = m.isOnline := Mode.lastOnline_of_run hlog
  rw [hlast]
  generalize hholder : s.holder = holder at hmatch
  generalize s.online = online at hmatch ⊢
  cases hmatch with
  | callsOnline => exact absurd (.inl hholder) hsettled
  | callsDisconnected => exact absurd (.inr ⟨true, hholder⟩) hsettled
  | _ => rfl

/-- **The trace of the callbacks.** After `Start`, and as long as `Close` is not called, the
callbacks are called in an order that is allowed, whatever the checks return and whenever the timers
fire and `TriggerCheck` is called. `IsOnline` says what the last of them said. -/
theorem lawful_run {es : List Label}
    (hrun : Trace.run (step cfg) (.start :: .startLocks :: es) new = some s)
    (hclose : .close ∉ es) :
    Lawful s.log ∧ (¬ s.InTransition → s.online = lastOnline false s.log) := by
  obtain ⟨s1, hstart, hrest⟩ := follows_start hrun
  have hs : s.Follows := by
    refine invariant (fun l hl s s' => follows_step ?_) hstart hrest
    rintro rfl
    exact hclose hl
  obtain ⟨m, hlog, -⟩ := hs.mode
  exact ⟨lawful_of_mode hlog, hs.online_eq⟩

/-- A node that comes online, is disconnected and comes online again, with no delay before it counts
as offline. -/
def flapping : List Label :=
  [.check false ⟨1, 0⟩, .enter, .timer, .check true ⟨2, 0⟩, .connect ⟨2, 0⟩, .call, .unlock,
    .trigger, .test ⟨90, 0⟩, .check false ⟨91, 0⟩, .disconnect, .call, .enter, .trigger, .call,
    .timer, .check true ⟨92, 0⟩, .connect ⟨92, 0⟩, .call, .unlock]

theorem lawful_run_flapping :
    ∃ s, Trace.run (step ⟨false, 60000000000, 0⟩) (.start :: .startLocks :: flapping) new = some s ∧
      .close ∉ flapping ∧ s.log = [.onOnline, .onDisconnected, .onOffline, .onOnline] ∧
      Lawful s.log ∧ (¬ s.InTransition → s.online = lastOnline false s.log) := by
  have hclose : .close ∉ flapping := by simp [flapping]
  have hrun : run (step ⟨false, 60000000000, 0⟩) (.start :: .startLocks :: flapping) new =
      some ⟨false, false, true, ⟨92, 0⟩, none, .returned, .idle,
        [.onOnline, .onDisconnected, .onOffline, .onOnline]⟩ := rfl
  exact ⟨_, hrun, hclose, rfl, lawful_run hrun hclose⟩

end Checker

end KadDht.Connectivity
