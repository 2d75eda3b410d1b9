import KadDht.Keyspace.Order
import KadDht.Provider.Abstract

/-!
# Provider — the cursor and the alarm (`provider/provider.go`)

The cursor is the scheduled prefix the timer is set for. It is kept outside of the schedule, and
four operations prune, add or move it: `schedulePrefixNoLock`, `unscheduleSubsumedPrefixesNoLock`,
`handleReprovide`, and the end of `onOnline` when the bootstrap reprovide is skipped.

* **`schedulePrefixNoLock_cases`**, **`handleReprovide_cases`** — the paths through them; none
  panics, as long as the cursor is scheduled.
-/

namespace KadDht

open BitKey List TrieLib Trie

namespace SweepingProvider

open Abstraction

/-! ## The timer fires -/

section Model

variable [TrieLib]

/-- The loop of `handleReprovide` over the regions whose time has passed, with
`scheduleSize - count` rounds left. -/
def enqueueLate (env : Env) (schedule : Trie Bitstr Duration)
    (timerStartedAt timeSinceTimerRunning : Duration) :
    Nat → Bitstr × Duration → ProviderM (Bitstr × Duration)
  | 0, next => pure next
  | rounds + 1, next =>
    if timeBetween env.toConfig timerStartedAt next.2 < timeSinceTimerRunning then do
      reprovideQueueEnqueue next.1
      match nextNonEmptyLeaf schedule next.1 env.order with
      | some (some next) =>
        enqueueLate env schedule timerStartedAt timeSinceTimerRunning rounds next
      | _ => goPanic
    else pure next

/-- `nextEntry` and `nextKeyFound` of the loop over a schedule that was not looked at for more than
an interval. -/
structure NextEntryLoop where
  nextEntry : Bitstr × Duration
  nextKeyFound : Bool

omit [TrieLib] in
def NextEntryLoop.visit (currentTimeOffset : Duration) (loop : NextEntryLoop)
    (entry : Bitstr × Duration) : NextEntryLoop :=
  if !loop.nextKeyFound && decide (entry.2 > currentTimeOffset) then ⟨entry, true⟩ else loop

/-- The end of `handleReprovide`: the region whose batch reprovide is started, if any. -/
def startReprovide (env : Env) (currentPrefix : Bitstr) : ProviderM (Option Bitstr) := do
  if !env.isOnline then
    reprovideQueueEnqueue currentPrefix
    pure none
  else
    reprovideQueueRemove currentPrefix
    if env.closed then pure none else pure (some currentPrefix)

/-- The branch of `handleReprovide` for a timer that was started more than an interval ago: all
regions are queued, and the cursor moves to the first one after the present. -/
def enqueueSchedule (env : Env) (currentTimeOffset : Duration) : ProviderM (Option Bitstr) := do
  let s ← get
  match entriesIter s.schedule env.order with
  | [] => goPanic
  | first :: rest =>
    (first :: rest).forM fun entry => reprovideQueueEnqueue entry.1
    -- the first entry is taken when no other one comes after the present
    let loop := (first :: rest).foldl (NextEntryLoop.visit currentTimeOffset) ⟨first, false⟩
    let timeUntilNext ← timeUntil env loop.nextEntry.2
    scheduleNextReprovideNoLock env loop.nextEntry.1 timeUntilNext
    pure none

/-- `handleReprovide`. The batch reprovide runs in a goroutine of its own: what is returned is the
region it is started for. -/
def handleReprovide (env : Env) : ProviderM (Option Bitstr) := do
  let s ← get
  let currentPrefix := s.scheduleCursor
  match nextNonEmptyLeaf s.schedule currentPrefix env.order with
  | none => goPanic
  | some none => pure none
  | some (some next) =>
    if next.1 = currentPrefix then do
      let timeUntilNextReprovide ← timeUntil env (reprovideTimeForPrefix env.toConfig currentPrefix)
      scheduleNextReprovideNoLock env currentPrefix timeUntilNextReprovide
      startReprovide env currentPrefix
    else do
      let offset ← currentTimeOffset env
      let timerStartedAt := s.scheduleTimerStartedAt % env.reprovideInterval
      let timeSinceTimerRunning := timeBetween env.toConfig timerStartedAt offset
      let t ← now env
      -- points in time are compared, which does not wrap around
      if s.scheduleTimerStartedAt.toInt + env.reprovideInterval.toInt < t.toInt then
        enqueueSchedule env offset
      else do
        let next ← enqueueLate env s.schedule timerStartedAt timeSinceTimerRunning s.schedule.size
          next
        let timeUntilNextReprovide ← timeUntil env next.2
        scheduleNextReprovideNoLock env next.1 timeUntilNextReprovide
        startReprovide env currentPrefix

omit [TrieLib] in
/-- `onOnline`, where the bootstrap reprovide is skipped: the cursor goes to the first entry. -/
def onOnlineSkipBootstrap (env : Env) : ProviderM Unit := do
  let s ← get
  match entriesIter s.schedule env.order with
  | [] => pure ()
  | entry :: _ => do
    let timeUntilEntry ← timeUntil env entry.2
    scheduleNextReprovideNoLock env entry.1 timeUntilEntry

end Model

/-! ## Setting the alarm -/

/-- The state after the cursor moved to an entry and the timer was set for it: the clock is read
for the time left, and again when the timer is started. -/
def State.alarmFor (env : Env) (s : State) (e : Bitstr × Duration) : State :=
  { s with
    scheduleCursor := e.1
    scheduleTimer := timeBetween env.toConfig (env.sinceCycleStart s.clock % env.reprovideInterval)
      e.2
    scheduleTimerStartedAt := env.sinceCycleStart (s.clock + 1)
    clock := s.clock + 2 }

theorem timeUntil_scheduleNext (env : Env) (s : State) (e : Bitstr × Duration) :
    (do
      let t ← timeUntil env e.2
      scheduleNextReprovideNoLock env e.1 t : ProviderM Unit) s = some ((), s.alarmFor env e) :=
  rfl

variable {s : State}

theorem onOnlineSkipBootstrap_nil {env : Env} (h : entriesIter s.schedule env.order = []) :
    onOnlineSkipBootstrap env s = some ((), s) := by
  rw [onOnlineSkipBootstrap, get_bind, h]
  rfl

theorem onOnlineSkipBootstrap_cons {env : Env} {e : Bitstr × Duration}
    {rest : List (Bitstr × Duration)} (h : entriesIter s.schedule env.order = e :: rest) :
    onOnlineSkipBootstrap env s = some ((), s.alarmFor env e) := by
  rw [onOnlineSkipBootstrap, get_bind, h]
  exact timeUntil_scheduleNext env s e

/-! ## Paths through the scheduling functions -/

inductive Unscheduled (env : Env) (pfx : Bitstr) (s : State) : State → Prop
  /-- The cursor is not below the prefix. -/
  | elsewhere (h : ¬ pfx <+: s.scheduleCursor) :
    Unscheduled env pfx s { s with schedule := pruneSubtrie s.schedule pfx }
  /-- The cursor is below the prefix, and nothing is left. -/
  | emptied (h : pfx <+: s.scheduleCursor) (hempty : pruneSubtrie s.schedule pfx = .emptyLeaf)
      (timer startedAt : Duration) (clock : Nat) :
    Unscheduled env pfx s { s with
      schedule := pruneSubtrie s.schedule pfx, scheduleCursor := pfx, scheduleTimer := timer
      scheduleTimerStartedAt := startedAt, clock := clock }
  /-- The cursor is below the prefix, and moves to the entry after it. -/
  | moved (h : pfx <+: s.scheduleCursor) (e : Bitstr × Duration)
      (hnext : nextNonEmptyLeaf (pruneSubtrie s.schedule pfx) s.scheduleCursor env.order
        = some (some e)) (hmem : e ∈ (pruneSubtrie s.schedule pfx).entries) :
    Unscheduled env pfx s
      (State.alarmFor env { s with schedule := pruneSubtrie s.schedule pfx } e)

theorem unscheduleSubsumedPrefixesNoLock_cases (env : Env) (pfx : Bitstr) (hs : s.schedule.WF) :
    ∃ s', unscheduleSubsumedPrefixesNoLock env pfx s = some ((), s') ∧
      Unscheduled env pfx s s' := by
  set pruned := pruneSubtrie s.schedule pfx with hpruned
  rw [unscheduleSubsumedPrefixesNoLock, modify_bind, get_bind]
  by_cases hcursor : pfx <+: s.scheduleCursor
  · rw [if_pos ((isBitstrPrefix_iff _ _).mpr hcursor)]
    have hnothing : NothingBelow pruned s.scheduleCursor := by
      intro e he hbelow
      have hkept := (mem_pruneSubtrie hs pfx e).mp he
      exact absurd (hcursor.trans hbelow) hkept.2
    obtain ⟨next, hnext, hnone, hsome⟩ :=
      nextNonEmptyLeaf_spec (pruneSubtrie_wf hs pfx) s.scheduleCursor env.order hnothing
    rw [hnext]
    cases next with
    | none =>
      have hempty := (pruneSubtrie_wf hs pfx).entries_eq_nil.mp (hnone rfl)
      exact ⟨_, rfl, .emptied hcursor hempty _ _ _⟩
    | some e => exact ⟨_, rfl, .moved hcursor e hnext (hsome e rfl)⟩
  · rw [if_neg fun hpre => hcursor ((isBitstrPrefix_iff _ _).mp hpre)]
    exact ⟨_, rfl, .elsewhere hcursor⟩

def State.tick (s : State) (readings : Nat) : State := { s with clock := s.clock + readings }

section Paths

variable [TrieLib]

/-- The state after `advanceCursor`, when the prefix was just added under a time offset. -/
inductive Advanced (env : Env) (pfx : Bitstr) (d : Duration) (s : State) : State → Prop
  /-- The prefix is the only one. -/
  | only (k : Bitstr) (d' : Duration) (h : s.schedule = .leaf k d') :
    Advanced env pfx d s (s.alarmFor env (pfx, d))
  /-- The prefix comes right before the cursor, and sooner. -/
  | sooner (following : Bitstr × Duration)
      (hnext : nextNonEmptyLeaf s.schedule pfx env.order = some (some following))
      (hcursor : following.1 = s.scheduleCursor) (hmem : following ∈ s.schedule.entries)
      (hlt : timeBetween env.toConfig (env.sinceCycleStart s.clock % env.reprovideInterval) d
        < timeBetween env.toConfig (env.sinceCycleStart (s.clock + 1) % env.reprovideInterval)
            following.2 % env.reprovideInterval) :
    Advanced env pfx d s { s with
      scheduleCursor := pfx
      scheduleTimer := timeBetween env.toConfig
        (env.sinceCycleStart s.clock % env.reprovideInterval) d
      scheduleTimerStartedAt := env.sinceCycleStart (s.clock + 2)
      clock := s.clock + 3 }
  /-- The prefix comes right before the cursor, but only after it came. -/
  | later (hnode : s.schedule.isNonEmptyLeaf = false) (following : Bitstr × Duration)
      (hnext : nextNonEmptyLeaf s.schedule pfx env.order = some (some following))
      (hcursor : following.1 = s.scheduleCursor) (hmem : following ∈ s.schedule.entries)
      (hlt : ¬ timeBetween env.toConfig (env.sinceCycleStart s.clock % env.reprovideInterval) d
        < timeBetween env.toConfig (env.sinceCycleStart (s.clock + 1) % env.reprovideInterval)
            following.2 % env.reprovideInterval) :
    Advanced env pfx d s (s.tick 2)
  /-- Some other prefix comes between the prefix and the cursor. -/
  | unrelated (hnode : s.schedule.isNonEmptyLeaf = false) (following : Bitstr × Duration)
      (hnext : nextNonEmptyLeaf s.schedule pfx env.order = some (some following))
      (hcursor : following.1 ≠ s.scheduleCursor) :
    Advanced env pfx d s s

variable {s : State}

/-- A prefix that was just scheduled becomes the cursor if it is the only one, or if it comes right
before the cursor, and sooner. -/
theorem advanceCursor_cases (env : Env) (pfx : Bitstr) (d : Duration) (hs : s.schedule.WF)
    (hpfx : pfx ∈ s.schedule.keys) :
    ∃ s', advanceCursor env pfx d s = some ((), s') ∧ Advanced env pfx d s s' := by
  have hnothing : NothingBelow s.schedule pfx := fun e he hpre =>
    (hs.eq_of_overlap hpfx (mem_keys_of_mem he) (.inl hpre)).symm
  obtain ⟨next, hnext, hnone, hsome⟩ := nextNonEmptyLeaf_spec hs pfx env.order hnothing
  rw [advanceCursor, get_bind]
  cases hleaf : s.schedule.isNonEmptyLeaf with
  | true =>
    cases hsched : s.schedule with
    | leaf k d' => exact ⟨_, rfl, .only k d' hsched⟩
    | emptyLeaf | node b0 b1 => simp [hsched, isNonEmptyLeaf] at hleaf
  | false =>
    rw [hnext]
    cases next with
    | none =>
      -- the prefix itself is an entry
      obtain ⟨d', hd'⟩ := mem_keys.mp hpfx
      rw [hnone rfl] at hd'
      cases hd'
    | some following =>
      have hmem := hsome following rfl
      by_cases hcursor : following.1 = s.scheduleCursor
      · have hfind : find s.schedule s.scheduleCursor = some following.2 := by
          rw [← hcursor]
          exact (find_eq_some following.2 hs (hs.accepts_of_mem (mem_keys_of_mem hmem))).mpr hmem
        simp only [Bool.false_eq_true, if_false, if_pos hcursor, hfind, Option.getD_some]
        by_cases hlt : timeBetween env.toConfig
            (env.sinceCycleStart s.clock % env.reprovideInterval) d
              < timeBetween env.toConfig
                  (env.sinceCycleStart (s.clock + 1) % env.reprovideInterval) following.2
                    % env.reprovideInterval
        · refine ⟨_, ?_, .sooner following hnext hcursor hmem hlt⟩
          show (if _ < _ then scheduleNextReprovideNoLock env pfx _ else pure () : ProviderM Unit)
            _ = _
          rw [if_pos hlt]
          rfl
        · refine ⟨_, ?_, .later hleaf following hnext hcursor hmem hlt⟩
          show (if _ < _ then scheduleNextReprovideNoLock env pfx _ else pure () : ProviderM Unit)
            _ = _
          rw [if_neg hlt]
          rfl
      · simp only [Bool.false_eq_true, if_false, if_neg hcursor]
        exact ⟨_, rfl, .unrelated hleaf following hnext hcursor⟩

omit [TrieLib] in
/-- The time offset `schedulePrefixNoLock` files a prefix under. -/
def State.slot (env : Env) (s : State) (pfx : Bitstr) (justReprovided : Bool) : Duration :=
  if justReprovided then
    min (reprovideTimeForPrefix env.toConfig pfx)
      (env.sinceCycleStart s.clock % env.reprovideInterval + env.reprovideInterval
        + env.maxReprovideDelay)
  else reprovideTimeForPrefix env.toConfig pfx

omit [TrieLib] in
theorem nextReprovideTime_eq (env : Env) (s : State) (pfx : Bitstr) (justReprovided : Bool) :
    ∃ readings, nextReprovideTime env pfx justReprovided s
      = some (s.slot env pfx justReprovided, s.tick readings) := by
  cases justReprovided with
  | true => exact ⟨1, rfl⟩
  | false => exact ⟨0, rfl⟩

inductive Scheduled (env : Env) (pfx : Bitstr) (d : Duration) (s : State) : State → Prop
  /-- A scheduled prefix covers the new one. -/
  | covered (h : ∃ k ∈ s.schedule.keys, k <+: pfx) (readings : Nat) :
    Scheduled env pfx d s (s.tick readings)
  /-- The prefix replaces what is scheduled below it. -/
  | added (h : ∀ k ∈ s.schedule.keys, ¬ k <+: pfx) (readings : Nat) (s1 s2 : State)
      (hun : Unscheduled env pfx (s.tick readings) s1)
      (hadv : Advanced env pfx d { s1 with schedule := TrieLib.add s1.schedule pfx d } s2) :
    Scheduled env pfx d s s2

omit [TrieLib] in
theorem Unscheduled.schedule_eq {env : Env} {pfx : Bitstr} {s' : State}
    (h : Unscheduled env pfx s s') : s'.schedule = pruneSubtrie s.schedule pfx := by
  cases h <;> rfl

/-- The new prefix replaces those below it. The cursor is moved if it was one of these, or if the
new one comes before it. -/
theorem schedulePrefixNoLock_cases (env : Env) (pfx : Bitstr) (justReprovided : Bool)
    (hs : s.schedule.WF) :
    ∃ s', schedulePrefixNoLock env pfx justReprovided s = some ((), s') ∧
      Scheduled env pfx (s.slot env pfx justReprovided) s s' := by
  obtain ⟨readings, hslot⟩ := nextReprovideTime_eq env s pfx justReprovided
  set d := s.slot env pfx justReprovided
  have hrun : schedulePrefixNoLock env pfx justReprovided s
      = (if (findPrefixOfKey s.schedule pfx).isSome then pure ()
        else do
          unscheduleSubsumedPrefixesNoLock env pfx
          modify fun s => { s with schedule := add s.schedule pfx d }
          advanceCursor env pfx d : ProviderM Unit) (s.tick readings) := by
    show (nextReprovideTime env pfx justReprovided s).bind _ = _
    rw [hslot]
    rfl
  rw [hrun]
  cases hfind : findPrefixOfKey s.schedule pfx with
  | some k =>
    have hcov := (findPrefixOfKey_eq_some hs pfx k).mp hfind
    exact ⟨_, rfl, .covered ⟨k, hcov.1, hcov.2⟩ readings⟩
  | none =>
    have hcov := (findPrefixOfKey_eq_none hs pfx).mp hfind
    obtain ⟨s1, hunrun, hun⟩ :=
      unscheduleSubsumedPrefixesNoLock_cases env pfx (s := s.tick readings) hs
    have hwf : s1.schedule.WF := hun.schedule_eq ▸ pruneSubtrie_wf hs pfx
    have hacc : s1.schedule.Accepts pfx := fun k hk hov =>
      absurd hov (not_overlap_pruneSubtrie hs hcov k (hun.schedule_eq ▸ hk))
    obtain ⟨s2, hadvrun, hadv⟩ := advanceCursor_cases env pfx d
      (s := { s1 with schedule := add s1.schedule pfx d }) (add_wf d hwf hacc)
      ((mem_keys_add d pfx hwf hacc).mpr (.inr rfl))
    refine ⟨s2, ?_, .added hcov readings s1 s2 hun hadv⟩
    show (unscheduleSubsumedPrefixesNoLock env pfx (s.tick readings)).bind _ = _
    rw [hunrun]
    exact hadvrun

/-! ## Paths through `handleReprovide` -/

omit [TrieLib] in
/-- Prefixes were enqueued in the reprovide queue, and nothing else happened. -/
def Enqueued (ps : List Bitstr) (s s' : State) : Prop :=
  ∃ q : PrefixQueue, q.Inv ∧ q.queue = ps.foldl pushPrefix s.reprovideQueue.queue ∧
    s' = { s with reprovideQueue := q }

omit [TrieLib] in
theorem Enqueued.nil (hs : s.reprovideQueue.Inv) : Enqueued [] s s :=
  ⟨s.reprovideQueue, hs, rfl, rfl⟩

omit [TrieLib] in
theorem Enqueued.trans {ps qs : List Bitstr} {s1 s2 : State} (h : Enqueued ps s s1)
    (h' : Enqueued qs s1 s2) : Enqueued (ps ++ qs) s s2 := by
  obtain ⟨q, -, hq, rfl⟩ := h
  obtain ⟨q', hinv, hq', rfl⟩ := h'
  exact ⟨q', hinv, by rw [hq', foldl_append, hq], rfl⟩

omit [TrieLib] in
theorem Enqueued.inv {ps : List Bitstr} {s' : State} (h : Enqueued ps s s') :
    s'.reprovideQueue.Inv := by
  obtain ⟨q, hinv, -, rfl⟩ := h
  exact hinv

theorem reprovideQueueEnqueue_enqueued (pfx : Bitstr) (hs : s.reprovideQueue.Inv) :
    ∃ s', reprovideQueueEnqueue pfx s = some ((), s') ∧ Enqueued [pfx] s s' := by
  obtain ⟨q, heq, hinv, hqueue⟩ := PrefixQueue.push_spec hs pfx
  refine ⟨{ s with reprovideQueue := q }, ?_, q, hinv, hqueue, rfl⟩
  rw [reprovideQueueEnqueue, heq]
  rfl

theorem forM_enqueued (es : List (Bitstr × Duration)) (hs : s.reprovideQueue.Inv) :
    ∃ s', (es.forM fun entry => reprovideQueueEnqueue entry.1 : ProviderM Unit) s
      = some ((), s') ∧ Enqueued (es.map Prod.fst) s s' := by
  induction es generalizing s with
  | nil => exact ⟨s, rfl, .nil hs⟩
  | cons e es ih =>
    obtain ⟨s1, hrun1, henq1⟩ := reprovideQueueEnqueue_enqueued e.1 hs
    obtain ⟨s2, hrun2, henq2⟩ := ih henq1.inv
    refine ⟨s2, ?_, henq1.trans henq2⟩
    show (reprovideQueueEnqueue e.1 s).bind _ = _
    rw [hrun1]
    exact hrun2

omit [TrieLib] in
/-- The walk of `enqueueLate`: it passes entries whose time is over, and ends at the first entry
whose time is not, or when there are no rounds left. -/
structure LateWalk (env : Env) (t : Trie Bitstr Duration)
    (timerStartedAt timeSinceTimerRunning : Duration) (rounds : Nat)
    (next : Bitstr × Duration) (passed : List (Bitstr × Duration)) (final : Bitstr × Duration) :
    Prop where
  chain : List.IsChain (fun x y => (nextNonEmptyLeaf t x.1 env.order).join = some y)
    (passed ++ [final])
  head : (passed ++ [final]).head? = some next
  late : ∀ x ∈ passed, timeBetween env.toConfig timerStartedAt x.2 < timeSinceTimerRunning
  stop : passed.length = rounds ∨
    ¬ timeBetween env.toConfig timerStartedAt final.2 < timeSinceTimerRunning
  length_le : passed.length ≤ rounds
  mem : final ∈ t.entries

omit [TrieLib] in
theorem exists_nextNonEmptyLeaf {t : Trie Bitstr Duration} (h : t.WF) {k : Bitstr}
    (hk : k ∈ t.keys) (order : Bit256) :
    ∃ next, nextNonEmptyLeaf t k order = some (some next) ∧ next ∈ t.entries := by
  have hnothing : NothingBelow t k := fun e he hpre =>
    (h.eq_of_overlap hk (mem_keys_of_mem he) (.inl hpre)).symm
  obtain ⟨next, hnext, hnone, hsome⟩ := nextNonEmptyLeaf_spec h k order hnothing
  cases next with
  | some next => exact ⟨next, hnext, hsome next rfl⟩
  | none =>
    obtain ⟨d, hd⟩ := mem_keys.mp hk
    rw [hnone rfl] at hd
    cases hd

/-- The loop over the late prefixes, by induction on its rounds: it passes entries in the order of
the cycle, and queues what it passes. -/
theorem enqueueLate_walk (env : Env) {t : Trie Bitstr Duration} (ht : t.WF)
    (timerStartedAt timeSinceTimerRunning : Duration) (rounds : Nat) {next : Bitstr × Duration}
    (hnext : next ∈ t.entries) (hs : s.reprovideQueue.Inv) :
    ∃ passed final s',
      enqueueLate env t timerStartedAt timeSinceTimerRunning rounds next s = some (final, s') ∧
      LateWalk env t timerStartedAt timeSinceTimerRunning rounds next passed final ∧
      Enqueued (passed.map Prod.fst) s s' := by
  induction rounds generalizing next s with
  | zero =>
    exact ⟨[], next, s, rfl, ⟨isChain_singleton _, rfl, by simp, .inl rfl, le_rfl, hnext⟩, .nil hs⟩
  | succ rounds ih =>
    rw [enqueueLate]
    by_cases hlate : timeBetween env.toConfig timerStartedAt next.2 < timeSinceTimerRunning
    · obtain ⟨s1, hrun1, henq1⟩ := reprovideQueueEnqueue_enqueued next.1 hs
      obtain ⟨next', hnext', hmem'⟩ := exists_nextNonEmptyLeaf ht (mem_keys_of_mem hnext) env.order
      obtain ⟨passed, final, s2, hrun2, hwalk, henq2⟩ := ih hmem' henq1.inv
      refine ⟨next :: passed, final, s2, ?_, ⟨?_, rfl, ?_, ?_, ?_, hwalk.mem⟩, henq1.trans henq2⟩
      · rw [if_pos hlate, hnext']
        show (reprovideQueueEnqueue next.1 s).bind _ = _
        rw [hrun1]
        exact hrun2
      · -- the walk goes on from the entry after `next`
        have hhead := hwalk.head
        have hchain := hwalk.chain
        cases hcases : passed ++ [final] with
        | nil => simp at hcases
        | cons x xs =>
          rw [hcases, head?_cons, Option.some.injEq] at hhead
          rw [hcases] at hchain
          rw [cons_append, hcases]
          refine isChain_cons_cons.mpr ⟨?_, hchain⟩
          rw [hnext', hhead]
          rfl
      · intro x hx
        rcases mem_cons.mp hx with rfl | hx
        · exact hlate
        · exact hwalk.late x hx
      · exact hwalk.stop.imp (fun hlen => by rw [length_cons, hlen]) id
      · exact Nat.succ_le_succ hwalk.length_le
    · refine ⟨[], next, s, ?_, ⟨isChain_singleton _, rfl, by simp, .inr hlate,
        Nat.zero_le _, hnext⟩, .nil hs⟩
      rw [if_neg hlate]
      rfl

omit [TrieLib] in
/-- The state after `startReprovide`, and the region a batch reprovide is started for. -/
inductive Started (env : Env) (pfx : Bitstr) (s : State) : Option Bitstr → State → Prop
  | offline (h : env.isOnline = false) (s' : State) (henq : Enqueued [pfx] s s') :
    Started env pfx s none s'
  | online (h : env.isOnline = true) (q : PrefixQueue) (hinv : q.Inv)
      (hq : q.queue = s.reprovideQueue.queue.filter fun p => !pfx.isPrefixOf p) :
    Started env pfx s (if env.closed then none else some pfx) { s with reprovideQueue := q }

theorem startReprovide_cases (env : Env) (pfx : Bitstr) (hs : s.reprovideQueue.Inv) :
    ∃ r s', startReprovide env pfx s = some (r, s') ∧ Started env pfx s r s' := by
  unfold startReprovide
  cases honline : env.isOnline with
  | false =>
    obtain ⟨s', hrun, henq⟩ := reprovideQueueEnqueue_enqueued pfx hs
    refine ⟨none, s', ?_, .offline honline s' henq⟩
    show (reprovideQueueEnqueue pfx s).bind _ = _
    rw [hrun]
    rfl
  | true =>
    obtain ⟨q, heq, hinv, hqueue⟩ := PrefixQueue.remove_spec hs pfx
    refine ⟨_, _, ?_, .online honline q hinv hqueue⟩
    have hrun : reprovideQueueRemove pfx s = some ((), { s with reprovideQueue := q }) := by
      rw [reprovideQueueRemove, heq]
      rfl
    show (reprovideQueueRemove pfx s).bind _ = _
    rw [hrun]
    cases env.closed <;> rfl

omit [TrieLib] in
inductive Handled (env : Env) (s : State) : Option Bitstr → State → Prop
  /-- Nothing is scheduled. -/
  | idle (h : s.schedule.entries = []) : Handled env s none s
  /-- The cursor is its own successor. -/
  | single (next : Bitstr × Duration)
      (hnext : nextNonEmptyLeaf s.schedule s.scheduleCursor env.order = some (some next))
      (hkey : next.1 = s.scheduleCursor) (r : Option Bitstr) (s' : State)
      (hstart : Started env s.scheduleCursor (s.alarmFor env
        (s.scheduleCursor, reprovideTimeForPrefix env.toConfig s.scheduleCursor)) r s') :
    Handled env s r s'
  /-- The timer was started more than an interval ago. -/
  | overdue (next : Bitstr × Duration)
      (hnext : nextNonEmptyLeaf s.schedule s.scheduleCursor env.order = some (some next))
      (hkey : next.1 ≠ s.scheduleCursor)
      (hlong : s.scheduleTimerStartedAt.toInt + env.reprovideInterval.toInt
        < (env.sinceCycleStart (s.clock + 1)).toInt)
      (e : Bitstr × Duration) (he : e ∈ s.schedule.entries) (s1 : State)
      (henq : Enqueued ((entriesIter s.schedule env.order).map Prod.fst) (s.tick 2) s1) :
    Handled env s none (s1.alarmFor env e)
  /-- The regions whose time has passed are queued, and the timer is set for the next one. -/
  | due (next : Bitstr × Duration)
      (hnext : nextNonEmptyLeaf s.schedule s.scheduleCursor env.order = some (some next))
      (hkey : next.1 ≠ s.scheduleCursor)
      (hlong : ¬ s.scheduleTimerStartedAt.toInt + env.reprovideInterval.toInt
        < (env.sinceCycleStart (s.clock + 1)).toInt)
      (passed : List (Bitstr × Duration)) (final : Bitstr × Duration)
      (hwalk : LateWalk env s.schedule (s.scheduleTimerStartedAt % env.reprovideInterval)
        (timeBetween env.toConfig (s.scheduleTimerStartedAt % env.reprovideInterval)
          (env.sinceCycleStart s.clock % env.reprovideInterval)) s.schedule.size next passed final)
      (s1 : State) (henq : Enqueued (passed.map Prod.fst) (s.tick 2) s1)
      (r : Option Bitstr) (s' : State)
      (hstart : Started env s.scheduleCursor (s1.alarmFor env final) r s') :
    Handled env s r s'

omit [TrieLib] in
theorem mem_foldl_visit (currentTimeOffset : Duration) (es : List (Bitstr × Duration))
    (loop : NextEntryLoop) :
    (es.foldl (NextEntryLoop.visit currentTimeOffset) loop).nextEntry ∈ loop.nextEntry :: es := by
  refine foldlRecOn es _ (motive := fun l : NextEntryLoop =>
    l.nextEntry ∈ loop.nextEntry :: es) mem_cons_self ?_
  intro l hl e he
  unfold NextEntryLoop.visit
  split
  · exact mem_cons_of_mem _ he
  · exact hl

theorem enqueueSchedule_cases (env : Env) (currentTimeOffset : Duration) (hs : s.reprovideQueue.Inv)
    (hne : s.schedule.entries ≠ []) :
    ∃ e ∈ s.schedule.entries, ∃ s1,
      enqueueSchedule env currentTimeOffset s = some (none, s1.alarmFor env e) ∧
      Enqueued ((entriesIter s.schedule env.order).map Prod.fst) s s1 := by
  have hperm := entriesIter_perm s.schedule env.order
  rw [enqueueSchedule, get_bind]
  cases hiter : entriesIter s.schedule env.order with
  | nil =>
    rw [hiter] at hperm
    exact absurd hperm.nil_eq.symm hne
  | cons first rest =>
    obtain ⟨s1, hforM, henq⟩ := forM_enqueued (first :: rest) hs
    set e := ((first :: rest).foldl (NextEntryLoop.visit currentTimeOffset)
      ⟨first, false⟩).nextEntry with he
    have hmem : e ∈ s.schedule.entries := by
      rw [← hperm.mem_iff, hiter]
      have hvisit := mem_foldl_visit currentTimeOffset (first :: rest) ⟨first, false⟩
      rcases mem_cons.mp hvisit with heq | hvisit
      · rw [he, heq]
        exact mem_cons_self
      · exact hvisit
    refine ⟨e, hmem, s1, ?_, henq⟩
    show ((first :: rest).forM (fun entry => reprovideQueueEnqueue entry.1) s).bind _ = _
    rw [hforM]
    rfl

/-- None of the paths panics, and each does what `Handled` says. -/
theorem handleReprovide_cases (env : Env) (hs : s.Inv)
    (hcursor : s.schedule.entries ≠ [] → s.scheduleCursor ∈ s.schedule.keys) :
    ∃ r s', handleReprovide env s = some (r, s') ∧ Handled env s r s' := by
  rw [handleReprovide, get_bind]
  by_cases hne : s.schedule.entries = []
  · -- nothing is scheduled
    have hempty := hs.schedule.entries_eq_nil.mp hne
    refine ⟨none, s, ?_, .idle hne⟩
    rw [hempty]
    rfl
  · obtain ⟨next, hnext, hmem⟩ := exists_nextNonEmptyLeaf hs.schedule (hcursor hne) env.order
    rw [hnext]
    by_cases hkey : next.1 = s.scheduleCursor
    · -- the cursor is the only prefix
      obtain ⟨r, s', hstartrun, hstart⟩ := startReprovide_cases env s.scheduleCursor
        (s := s.alarmFor env (s.scheduleCursor,
          reprovideTimeForPrefix env.toConfig s.scheduleCursor)) hs.reprovideQueue
      refine ⟨r, s', ?_, .single next hnext hkey r s' hstart⟩
      simp only [if_pos hkey]
      exact hstartrun
    · simp only [if_neg hkey]
      by_cases hlong : s.scheduleTimerStartedAt.toInt + env.reprovideInterval.toInt
          < (env.sinceCycleStart (s.clock + 1)).toInt
      · -- a whole cycle was missed: everything is queued
        obtain ⟨e, he, s1, henqrun, henq⟩ := enqueueSchedule_cases env
          (env.sinceCycleStart s.clock % env.reprovideInterval) (s := s.tick 2)
          hs.reprovideQueue hne
        refine ⟨none, _, ?_, .overdue next hnext hkey hlong e he s1 henq⟩
        show (if _ then _ else _ : ProviderM (Option Bitstr)) (s.tick 2) = _
        rw [if_pos hlong]
        exact henqrun
      · obtain ⟨passed, final, s1, hwalkrun, hwalk, henq⟩ := enqueueLate_walk env hs.schedule
          (s.scheduleTimerStartedAt % env.reprovideInterval)
          (timeBetween env.toConfig (s.scheduleTimerStartedAt % env.reprovideInterval)
            (env.sinceCycleStart s.clock % env.reprovideInterval)) s.schedule.size hmem
          (s := s.tick 2) hs.reprovideQueue
        obtain ⟨r, s', hstartrun, hstart⟩ := startReprovide_cases env s.scheduleCursor
          (s := s1.alarmFor env final) henq.inv
        refine ⟨r, s', ?_, .due next hnext hkey hlong passed final hwalk s1 henq r s' hstart⟩
        show (if _ then _ else _ : ProviderM (Option Bitstr)) (s.tick 2) = _
        rw [if_neg hlong]
        show (enqueueLate env s.schedule _ _ s.schedule.size next (s.tick 2)).bind _ = _
        rw [hwalkrun]
        exact hstartrun

end Paths

end SweepingProvider

end KadDht
