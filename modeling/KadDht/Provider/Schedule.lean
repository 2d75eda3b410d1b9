import KadDht.Provider.State

/-!
# Provider — the reprovide schedule (`provider/provider.go`)

The schedule is a trie of disjoint prefixes with their time offset in the reprovide cycle; the
cursor is the prefix the timer is set for. Scheduling a prefix that a scheduled one covers does
nothing; otherwise the prefix replaces everything scheduled below it.

Neither panics: `NextNonEmptyLeaf` is only asked for the successor of a prefix below which
nothing is scheduled.
-/

namespace KadDht

open BitKey TrieLib

namespace SweepingProvider

open Abstraction

/-! ## Time -/

def now (env : Env) : ProviderM Duration := fun s =>
  some (env.sinceCycleStart s.clock, { s with clock := s.clock + 1 })

def currentTimeOffset (env : Env) : ProviderM Duration := do
  let t ← now env
  pure (t % env.reprovideInterval)

def timeBetween (config : Config) (start stop : Duration) : Duration :=
  (stop - start + config.reprovideInterval - 1) % config.reprovideInterval + 1

def timeUntil (env : Env) (d : Duration) : ProviderM Duration := do
  let offset ← currentTimeOffset env
  pure (timeBetween env.toConfig offset d)

def reprovideTimeForPrefix (config : Config) (pfx : Bitstr) : Duration :=
  if pfx.isEmpty then 0
  else
    let pfx := pfx.take maxPrefixSize
    let maxInt := Int64.ofNat (2 ^ pfx.length)
    let k := List.zipWith xor pfx (config.order.bits.take pfx.length)
    -- `strconv.ParseInt(k, 2, 64)`
    config.reprovideInterval * Int64.ofNat (bitsValue k) / maxInt

/-! ## Scheduling -/

def scheduleNextReprovideNoLock (env : Env) (pfx : Bitstr) (timeUntilReprovide : Duration) :
    ProviderM Unit := do
  modify fun s => { s with scheduleCursor := pfx, scheduleTimer := timeUntilReprovide }
  let startedAt ← now env
  modify fun s => { s with scheduleTimerStartedAt := startedAt }

def unscheduleSubsumedPrefixesNoLock (env : Env) (pfx : Bitstr) : ProviderM Unit := do
  modify fun s => { s with schedule := pruneSubtrie s.schedule pfx }
  let s ← get
  if isBitstrPrefix pfx s.scheduleCursor then
    match nextNonEmptyLeaf s.schedule s.scheduleCursor env.order with
    | none => goPanic
    | some none => scheduleNextReprovideNoLock env pfx env.reprovideInterval
    | some (some next) => do
      let timeUntilReprovide ← timeUntil env next.2
      scheduleNextReprovideNoLock env next.1 timeUntilReprovide
  else pure ()

/-- The time offset `schedulePrefixNoLock` files a prefix under. -/
def nextReprovideTime (env : Env) (pfx : Bitstr) (justReprovided : Bool) : ProviderM Duration :=
  if justReprovided then do
    let offset ← currentTimeOffset env
    let latest := offset + env.reprovideInterval + env.maxReprovideDelay
    pure (min (reprovideTimeForPrefix env.toConfig pfx) latest)
  else pure (reprovideTimeForPrefix env.toConfig pfx)

variable [TrieLib]

/-- The end of `schedulePrefixNoLock`: is the prefix that was just added the next one? -/
def advanceCursor (env : Env) (pfx : Bitstr) (next : Duration) : ProviderM Unit := do
  let s ← get
  if s.schedule.isNonEmptyLeaf then do
    let timeUntilPrefixReprovide ← timeUntil env next
    scheduleNextReprovideNoLock env pfx timeUntilPrefixReprovide
  else
    match nextNonEmptyLeaf s.schedule pfx env.order with
    | some (some following) =>
      if following.1 = s.scheduleCursor then do
        let timeUntilPrefixReprovide ← timeUntil env next
        let scheduledAlarm := (TrieLib.find s.schedule s.scheduleCursor).getD 0
        let timeUntilAlarm ← timeUntil env scheduledAlarm
        if timeUntilPrefixReprovide < timeUntilAlarm % env.reprovideInterval then
          scheduleNextReprovideNoLock env pfx timeUntilPrefixReprovide
        else pure ()
      else pure ()
    | _ => goPanic

def schedulePrefixNoLock (env : Env) (pfx : Bitstr) (justReprovided : Bool) : ProviderM Unit := do
  let next ← nextReprovideTime env pfx justReprovided
  let s ← get
  if (findPrefixOfKey s.schedule pfx).isSome then pure ()
  else do
    unscheduleSubsumedPrefixesNoLock env pfx
    modify fun s => { s with schedule := TrieLib.add s.schedule pfx next }
    advanceCursor env pfx next

def reschedulePrefix (env : Env) (pfx : Bitstr) : ProviderM Unit :=
  schedulePrefixNoLock env pfx true

/-! ## Neither the clock nor the cursor is part of the view -/

variable {s : State}

omit [TrieLib] in
theorem simulatesAt_now (env : Env) (hs : s.Inv) :
    sweeping.SimulatesAt s (now env) (env.sinceCycleStart s.clock, s.view) :=
  ⟨_, rfl, { hs with }, rfl⟩

omit [TrieLib] in
theorem simulatesAt_currentTimeOffset (env : Env) (hs : s.Inv) :
    ∃ t, sweeping.SimulatesAt s (currentTimeOffset env) (t, s.view) :=
  ⟨_, (simulatesAt_now env hs).bindPure fun t => t % env.reprovideInterval⟩

omit [TrieLib] in
theorem simulatesAt_timeUntil (env : Env) (d : Duration) (hs : s.Inv) :
    ∃ t, sweeping.SimulatesAt s (timeUntil env d) (t, s.view) := by
  obtain ⟨t, ht⟩ := simulatesAt_currentTimeOffset env hs
  exact ⟨_, ht.bindPure fun offset => timeBetween env.toConfig offset d⟩

omit [TrieLib] in
theorem simulates_scheduleNextReprovideNoLock (env : Env) (pfx : Bitstr) (d : Duration) :
    sweeping.Simulates (scheduleNextReprovideNoLock env pfx d) (fun v => ((), v)) :=
  fun _ hs =>
    ⟨_, rfl, { hs with }, rfl⟩

omit [TrieLib] in
theorem simulates_timeUntil_scheduleNext (env : Env) (pfx : Bitstr) (d : Duration) :
    sweeping.Simulates (do
      let t ← timeUntil env d
      scheduleNextReprovideNoLock env pfx t) (fun v => ((), v)) := by
  intro s hs
  obtain ⟨t, ht⟩ := simulatesAt_timeUntil env d hs
  refine ht.bind fun s' hs' hview => ?_
  have hnext := simulates_scheduleNextReprovideNoLock env pfx t s' hs'
  rwa [hview] at hnext

/-! ## What the schedule functions do -/

omit [TrieLib] in
/-- **`unscheduleSubsumedPrefixesNoLock`.** Everything scheduled below the prefix goes. -/
theorem simulates_unscheduleSubsumedPrefixesNoLock (env : Env) (pfx : Bitstr) :
    sweeping.Simulates (unscheduleSubsumedPrefixesNoLock env pfx)
      (fun v => ((), v.unschedule pfx)) := by
  intro s hs
  have hwf := pruneSubtrie_wf hs.schedule pfx
  have hview : ({ s with schedule := pruneSubtrie s.schedule pfx } : State).view
      = s.view.unschedule pfx := by
    ext1
    · rfl
    · rfl
    · ext p
      exact mem_keys_pruneSubtrie hs.schedule pfx p
    · rfl
    · rfl
  refine SimulatesAt.bind (r := ((), s.view.unschedule pfx)) ?_ ?_
  · exact SimulatesAt.update { hs with schedule := hwf } hview
  · intro s1 hs1 hview1
    refine SimulatesAt.get ?_
    simp only [sweeping_view] at hview1 ⊢
    rw [← hview1]
    split
    · next hcursor =>
      rw [isBitstrPrefix_iff] at hcursor
      -- nothing below the cursor is left, so the walk stays within the cursor's bits
      have hnothing : NothingBelow s1.schedule s1.scheduleCursor := by
        intro e he hpre
        have hmem : e.1 ∈ s1.view.scheduled := Trie.mem_keys_of_mem he
        rw [hview1] at hmem
        exact absurd (hcursor.trans hpre) hmem.2
      obtain ⟨next, hnext, -, -⟩ :=
        nextNonEmptyLeaf_spec hs1.schedule s1.scheduleCursor env.order hnothing
      rw [hnext]
      cases next with
      | none => exact simulates_scheduleNextReprovideNoLock env pfx _ s1 hs1
      | some next => exact simulates_timeUntil_scheduleNext env next.1 next.2 s1 hs1
    · exact SimulatesAt.pure hs1 ()

/-- The cursor may be set to the prefix that was just added; the schedule stays as it is. -/
theorem simulatesAt_advanceCursor (env : Env) (pfx : Bitstr) (next : Duration)
    (hs : s.Inv) (hmem : pfx ∈ s.schedule.keys) :
    sweeping.SimulatesAt s (advanceCursor env pfx next) ((), s.view) := by
  refine SimulatesAt.get ?_
  split
  · exact simulates_timeUntil_scheduleNext env pfx next s hs
  · -- the prefix is scheduled, so nothing else below it is, and the schedule is not empty
    have hnothing : NothingBelow s.schedule pfx := fun e he hpre =>
      (hs.schedule.eq_of_overlap hmem (Trie.mem_keys_of_mem he) (.inl hpre)).symm
    obtain ⟨following, hfollowing, hnone, -⟩ :=
      nextNonEmptyLeaf_spec hs.schedule pfx env.order hnothing
    rw [hfollowing]
    cases following with
    | none =>
      obtain ⟨d, hd⟩ := Trie.mem_keys.mp hmem
      rw [hnone rfl] at hd
      cases hd
    | some following =>
      simp only []
      split
      · obtain ⟨t, ht⟩ := simulatesAt_timeUntil env next hs
        refine ht.bind fun s1 hs1 hview1 => ?_
        obtain ⟨t', ht'⟩ := simulatesAt_timeUntil env
          ((find s.schedule s.scheduleCursor).getD 0) hs1
        refine ht'.bind fun s2 hs2 hview2 => ?_
        have hview : s.view = s2.view := (hview2.trans hview1).symm
        rw [hview]
        split
        · exact simulates_scheduleNextReprovideNoLock env pfx t s2 hs2
        · exact SimulatesAt.pure hs2 ()
      · exact SimulatesAt.pure hs ()

omit [TrieLib] in
theorem simulatesAt_nextReprovideTime (env : Env) (pfx : Bitstr) (justReprovided : Bool)
    (hs : s.Inv) :
    ∃ t, sweeping.SimulatesAt s (nextReprovideTime env pfx justReprovided) (t, s.view) := by
  cases justReprovided with
  | false => exact ⟨_, SimulatesAt.pure hs _⟩
  | true =>
    obtain ⟨t, ht⟩ := simulatesAt_currentTimeOffset env hs
    exact ⟨_, ht.bindPure fun offset => min (reprovideTimeForPrefix env.toConfig pfx)
      (offset + env.reprovideInterval + env.maxReprovideDelay)⟩

theorem Inv.add_schedule (hs : s.Inv) {pfx : Bitstr}
    (hnew : ∀ p ∈ s.schedule.keys, ¬ Overlap p pfx) (next : Duration) :
    ({ s with schedule := TrieLib.add s.schedule pfx next } : State).Inv ∧
      ∀ p, p ∈ (TrieLib.add s.schedule pfx next).keys ↔ p ∈ s.schedule.keys ∨ p = pfx := by
  have hacc : s.schedule.Accepts pfx := fun p hp hov => absurd hov (hnew p hp)
  exact ⟨{ hs with schedule := add_wf next hs.schedule hacc },
    fun p => mem_keys_add next p hs.schedule hacc⟩

/-- **`schedulePrefixNoLock`.** The schedule absorbs the prefix. -/
theorem simulates_schedulePrefixNoLock (env : Env) (pfx : Bitstr) (justReprovided : Bool) :
    sweeping.Simulates (schedulePrefixNoLock env pfx justReprovided)
      (fun v => ((), v.schedule pfx)) := by
  intro s hs
  obtain ⟨next, hnext⟩ := simulatesAt_nextReprovideTime env pfx justReprovided hs
  refine hnext.bind fun s1 hs1 hview1 => ?_
  refine SimulatesAt.get ?_
  simp only [sweeping_view] at hview1 ⊢
  rw [← hview1]
  have hcovers : (findPrefixOfKey s1.schedule pfx).isSome = true ↔
      Covers s1.view.scheduled pfx := by
    rw [Option.isSome_iff_ne_none, ne_eq, findPrefixOfKey_eq_none hs1.schedule]
    push Not
    exact Iff.rfl
  split
  · next hcov =>
    have heq : s1.view.schedule pfx = s1.view := by
      rw [View.schedule, absorb_of_covers (hcovers.mp hcov)]
    rw [heq]
    exact SimulatesAt.pure hs1 ()
  · next hcov =>
    rw [hcovers] at hcov
    refine (simulates_unscheduleSubsumedPrefixesNoLock env pfx s1 hs1).bind fun s2 hs2 hview2 => ?_
    simp only [sweeping_view] at hview2
    have hmem : ∀ p, p ∈ s2.schedule.keys ↔ p ∈ s1.view.scheduled ∧ ¬ pfx <+: p := by
      intro p
      have hset := congrArg View.scheduled hview2
      exact Set.ext_iff.mp hset p
    have hnew : ∀ p ∈ s2.schedule.keys, ¬ Overlap p pfx := by
      intro p hp hov
      obtain ⟨hp1, hbelow⟩ := (hmem p).mp hp
      rcases hov with hpre | hpre
      · exact hcov ⟨p, hp1, hpre⟩
      · exact hbelow hpre
    obtain ⟨hinv, hadd⟩ := Inv.add_schedule hs2 hnew next
    have hview : ({ s2 with schedule := add s2.schedule pfx next } : State).view
        = s1.view.schedule pfx := by
      have hscheduled : {p | p ∈ (add s2.schedule pfx next).keys}
          = absorb s1.view.scheduled pfx := by
        ext p
        rw [Set.mem_ofPred_eq, hadd p, hmem p, mem_absorb_of_not_covers hcov, or_comm]
      have hothers : { s2.view with scheduled := absorb s1.view.scheduled pfx }
          = s1.view.schedule pfx := by
        rw [hview2]
        rfl
      rw [← hothers, ← hscheduled]
      rfl
    refine SimulatesAt.bind (r := ((), s1.view.schedule pfx)) ?_ fun s3 hs3 hview3 => ?_
    · exact SimulatesAt.update hinv hview
    · have hpfx : pfx ∈ s3.schedule.keys := by
        have hset := congrArg View.scheduled hview3
        refine (Set.ext_iff.mp hset pfx).mpr ?_
        exact (mem_absorb_of_not_covers hcov pfx).mpr (.inl rfl)
      have hcursor := simulatesAt_advanceCursor env pfx next hs3 hpfx
      rw [sweeping_view] at hview3
      rwa [hview3] at hcursor

/-- **`reschedulePrefix`.** -/
theorem simulates_reschedulePrefix (env : Env) (pfx : Bitstr) :
    sweeping.Simulates (reschedulePrefix env pfx) (fun v => ((), v.schedule pfx)) :=
  simulates_schedulePrefixNoLock env pfx true

end SweepingProvider

end KadDht
