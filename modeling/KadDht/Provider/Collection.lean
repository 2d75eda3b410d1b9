import KadDht.Provider.Bootstrap
import KadDht.Provider.ReprovideLog

/-!
# Provider — collecting the reprovide history (`provider/provider.go`)

Garbage collections of the reprovide history, one after the other.

* **`gcRun_exact`** — what each collection leaves, and when the next one comes.
* **`clearHistory`** — the collection of a fresh start, at a time that is meant to be later than all
  entries. The seconds of `maxTime` wrap around, so that it lies in the past and nothing is ever
  collected: **`forgetsHistory_iff`**.
-/

namespace KadDht.SweepingProvider.ReprovideHistory

open List

/-! ## Calls in a row -/

/-- A call of `gcReprovideHistoryIfNeeded`, with the sessions before and after. -/
structure GcCall where
  before : Session HistoryState
  now : Time
  after : Session HistoryState

def GcCall.Collects (env : Env) (c : GcCall) : Prop := gcDue env c.now c.before.caller

instance (env : Env) (c : GcCall) : Decidable (c.Collects env) :=
  inferInstanceAs (Decidable (gcDue _ _ _))

def gcRun (env : Env) : Session HistoryState → List Time → List GcCall
  | _, [] => []
  | s, now :: times =>
    let s' := (gcReprovideHistoryIfNeeded env now s).1
    ⟨s, now, s'⟩ :: gcRun env s' times

section Run

variable {env : Env} {s : Session HistoryState}

structure GcStep (env : Env) (c : GcCall) : Prop where
  healthy : c.after.Healthy
  written : Written c.after.store
  due : c.Collects env →
    c.after.caller.lastReprovideHistoryGC = c.now.unixSec ∧
      ∀ e, e ∈ history c.after.store ↔ e ∈ history c.before.store ∧ Fresh env c.now e
  skip : ¬ c.Collects env → c.after.caller = c.before.caller ∧ c.after.store = c.before.store

theorem gcStep_of_call (hopen : env.closed = false) (hs : s.Healthy) (hwritten : Written s.store)
    (now : Time) : GcStep env ⟨s, now, (gcReprovideHistoryIfNeeded env now s).1⟩ := by
  by_cases hdue : gcDue env now s.caller
  · obtain ⟨d', hreturns, hwritten', hiff⟩ := gcReprovideHistoryIfNeeded_due hopen hdue hwritten
    obtain ⟨s', hrun, hs', hcaller, rfl⟩ := hreturns s hs rfl rfl
    rw [hrun]
    refine ⟨hs', hwritten', fun _ => ⟨?_, hiff⟩, fun hskip => absurd hdue hskip⟩
    show s'.caller.lastReprovideHistoryGC = _
    rw [hcaller]
  · obtain ⟨s', hrun, hs', hcaller, hstore⟩ := gcReprovideHistoryIfNeeded_skip hdue s hs rfl rfl
    rw [hrun]
    exact ⟨hs', hstore ▸ hwritten, fun h => absurd h hdue, fun _ => ⟨hcaller, hstore⟩⟩

theorem GcStep.subset {c : GcCall} (h : GcStep env c) :
    ∀ e ∈ history c.after.store, e ∈ history c.before.store := by
  intro e he
  by_cases hdue : c.Collects env
  · exact ((h.due hdue).2 e |>.mp he).1
  · rwa [(h.skip hdue).2] at he

/-- Each call of a run is a step, and finds no entry that was not there at first. -/
theorem gcRun_steps (hopen : env.closed = false) (hs : s.Healthy) (hwritten : Written s.store)
    (times : List Time) :
    ∀ c ∈ gcRun env s times, GcStep env c ∧ ∀ e ∈ history c.before.store, e ∈ history s.store := by
  induction times generalizing s with
  | nil => exact fun c hc => absurd hc not_mem_nil
  | cons now times ih =>
    have hstep := gcStep_of_call hopen hs hwritten now
    intro c hc
    rcases mem_cons.mp hc with rfl | hc
    · exact ⟨hstep, fun e he => he⟩
    · obtain ⟨hcstep, hsubset⟩ := ih hstep.healthy hstep.written c hc
      exact ⟨hcstep, fun e he => hstep.subset e (hsubset e he)⟩

/-- The calls after a call of a run are a run. -/
theorem gcRun_after {times : List Time} {pre rest : List GcCall} {c : GcCall}
    (h : gcRun env s times = pre ++ c :: rest) : ∃ times', rest = gcRun env c.after times' := by
  induction pre generalizing s times with
  | nil =>
    cases times with
    | nil => cases h
    | cons now times =>
      obtain ⟨rfl, hrest⟩ := cons.inj h
      exact ⟨times, hrest.symm⟩
  | cons c0 pre ih =>
    cases times with
    | nil => cases h
    | cons now times => exact ih (cons.inj h).2

theorem lastReprovideHistoryGC_of_skips {times : List Time} {mid post : List GcCall} {c : GcCall}
    (h : gcRun env s times = mid ++ c :: post) (hsteps : ∀ c ∈ gcRun env s times, GcStep env c)
    (hskips : ∀ m ∈ mid, ¬ m.Collects env) :
    c.before.caller.lastReprovideHistoryGC = s.caller.lastReprovideHistoryGC := by
  induction mid generalizing s times with
  | nil =>
    cases times with
    | nil => cases h
    | cons now times =>
      cases h
      rfl
  | cons m mid ih =>
    cases times with
    | nil => cases h
    | cons now times =>
      obtain ⟨rfl, hrest⟩ := cons.inj h
      have hskip := (hsteps _ mem_cons_self).skip (hskips _ mem_cons_self)
      have hlast := ih hrest (fun c' hc' => hsteps c' (mem_cons_of_mem _ hc'))
        (fun m' hm' => hskips m' (mem_cons_of_mem _ hm'))
      rw [hlast]
      exact congrArg _ hskip.1

theorem gcDue_of_interval {now last : Time} {h : HistoryState}
    (hlast : h.lastReprovideHistoryGC = last.unixSec)
    (hinterval : last.ns + env.reprovideInterval.toInt ≤ now.ns) : gcDue env now h := by
  have hpos : 0 < env.reprovideInterval.toInt := by
    have hpos := env.reprovideInterval_pos
    rwa [Int64.lt_iff_toInt_lt, Int64.toInt_zero] at hpos
  -- the time of the last collection was cut down to seconds
  have hcut := last.ns_unix_unixSec_le
  rw [gcDue, hlast, Time.sub_lt_iff (by omega)]
  omega

/-- **Collections are exact and repeatable.** The history was written by reprovides, and no call on
the datastore fails. Of the calls in a row, each one that passes its guard leaves exactly the
entries that are later than one interval ago. A call passes its guard if at least one interval has
passed since the last call that did. Every key that is left parses back to the second and the
prefix it was written with. -/
theorem gcRun_exact (hopen : env.closed = false) (hs : s.Healthy) (hwritten : Written s.store)
    (times : List Time) :
    (∀ c ∈ gcRun env s times, c.Collects env →
      ∀ e, e ∈ history c.after.store ↔ e ∈ history c.before.store ∧ Fresh env c.now e) ∧
    (∀ pre c mid c' post, gcRun env s times = pre ++ c :: (mid ++ c' :: post) →
      c.Collects env → (∀ m ∈ mid, ¬ m.Collects env) →
      c.now.ns + env.reprovideInterval.toInt ≤ c'.now.ns → c'.Collects env) ∧
    ∀ c ∈ gcRun env s times, ∀ k ∈ historyKeys c.after.store, ∃ e ∈ history s.store,
      k = entryKey e ∧ parseReprovideHistoryKey k.path = .ok (Time.unix e.1 0, e.2) := by
  have hsteps := gcRun_steps hopen hs hwritten times
  refine ⟨fun c hc hdue => ((hsteps c hc).1.due hdue).2, ?_, fun c hc k hk => ?_⟩
  · intro pre c mid c' post hrun hdue hskips hinterval
    have hmem : ∀ x ∈ c :: (mid ++ c' :: post), x ∈ gcRun env s times := fun x hx =>
      hrun ▸ mem_append_right pre hx
    obtain ⟨times', hrest⟩ := gcRun_after hrun
    have hlast := lastReprovideHistoryGC_of_skips hrest.symm
      (fun x hx => (hsteps x (hmem x (mem_cons_of_mem _ (hrest ▸ hx)))).1) hskips
    have hcollected := ((hsteps c (hmem c mem_cons_self)).1.due hdue).1
    exact gcDue_of_interval (hlast.trans hcollected) hinterval
  · obtain ⟨hstep, hsubset⟩ := hsteps c hc
    obtain ⟨hmem, hhistory⟩ := mem_historyKeys.mp hk
    obtain ⟨e, he, rfl⟩ := hstep.written k hmem hhistory
    exact ⟨e, hsubset e (hstep.subset e he), rfl, parse_entryKey he.1⟩

end Run

def twoEntries : Session HistoryState := loggedSession 0 [(1699919000, []), (1699999000, [true])]

/-- The second of three calls comes too early; the third one comes after an interval. -/
theorem gcRun_exact_sample :
    ((gcRun (sampleEnv []) twoEntries
        [Time.unix 1700000000 0, Time.unix 1700000060 0, Time.unix 1700079200 0]).map
      fun c => decide (c.Collects (sampleEnv []))) = [true, false, true] ∧
    ∀ c ∈ gcRun (sampleEnv []) twoEntries
        [Time.unix 1700000000 0, Time.unix 1700000060 0, Time.unix 1700079200 0],
      c.Collects (sampleEnv []) →
        ∀ e, e ∈ history c.after.store ↔
          e ∈ history c.before.store ∧ Fresh (sampleEnv []) c.now e :=
  ⟨by decide +kernel, (gcRun_exact rfl (loggedSession_healthy 0 _)
    (loggedSession_written 0 (by decide)) _).1⟩

/-! ## A fresh start -/

/-- `maxTime`: `time.Unix(math.MaxInt64, 999999999)`. -/
def maxTime : Time := Time.unix Int64.maxValue 999999999

def clearHistory (env : Env) (resumeCycle : Bool) : DsM HistoryState Unit :=
  if resumeCycle then pure () else gcReprovideHistoryIfNeeded env maxTime

/-- The state of a provider that was just created. -/
def HistoryState.new : HistoryState := ⟨0, []⟩

/-- The seconds of `maxTime` wrap around: it is not later than any time, but lies in the past. -/
theorem maxTime_wraps : maxTime.sub (Time.unix 0 0) = Int64.minValue := by decide

theorem not_gcDue_maxTime (env : Env) : ¬ gcDue env maxTime HistoryState.new := by
  have hpos := env.reprovideInterval_pos
  rw [gcDue, not_not]
  show maxTime.sub (Time.unix 0 0) < env.reprovideInterval
  rw [maxTime_wraps]
  rw [Int64.lt_iff_toInt_lt, Int64.toInt_zero] at hpos
  rw [Int64.lt_iff_toInt_lt]
  have hmin : Int64.minValue.toInt = -2 ^ 63 := by decide
  omega

/-- A fresh start forgets the history: `New` leaves no entry, the regions loaded afterwards are
none, and every scheduled prefix is queued for reproviding. -/
def ForgetsHistory [LeafTrieLib] (env : Env) (s : Session HistoryState) : Prop :=
  ∃ s', clearHistory env false s = (s', .ok ()) ∧ historyKeys s'.store = [] ∧
    ∀ now, ∃ s'' regions, loadRecentlyReprovidedRegions env now s' = (s'', .ok regions) ∧
      regions = .emptyLeaf ∧
      ∀ st : State, st.schedule.WF → st.reprovideQueue.Inv → st.reprovideQueue.queue = [] →
        ∃ q : PrefixQueue,
          enqueueExpiredRegionsNoLock env regions st = some ((), { st with reprovideQueue := q }) ∧
          ∀ p ∈ st.schedule.keys, p ∈ q.queue

theorem historyKeys_eq_nil {d : Datastore} :
    historyKeys d = [] ↔ ∀ k ∈ d.keys, isHistoryKey k = false := by
  rw [eq_nil_iff_forall_not_mem]
  constructor
  · intro h k hk
    by_contra hkey
    exact h k (mem_historyKeys.mpr ⟨hk, by simpa using hkey⟩)
  · intro h k hk
    obtain ⟨hmem, hkey⟩ := mem_historyKeys.mp hk
    rw [h k hmem] at hkey
    cases hkey

theorem clearHistory_returns (env : Env) (d : Datastore) :
    DsM.Returns (clearHistory env false) HistoryState.new d () HistoryState.new d :=
  gcReprovideHistoryIfNeeded_skip (not_gcDue_maxTime env)

section FreshStart

variable [LeafTrieLib] {env : Env} {s : Session HistoryState}

/-- **When a fresh start forgets the history.** A provider is created without resuming its cycle,
and no call on the datastore fails. The history is forgotten if and only if there was none. -/
theorem forgetsHistory_iff (hs : s.Healthy) (hnew : s.caller = HistoryState.new) :
    ForgetsHistory env s ↔ ∀ k ∈ s.store.keys, isHistoryKey k = false := by
  obtain ⟨s1, hrun, hs1, hcaller, hstore⟩ := clearHistory_returns env s.store s hs hnew rfl
  constructor
  · rintro ⟨s', hrun', hnil, -⟩
    rw [hrun, Prod.mk.injEq] at hrun'
    rwa [← hrun'.1, hstore, historyKeys_eq_nil] at hnil
  · intro hnone
    have hwritten : Written s1.store := fun k hk hhistory => by
      rw [hstore] at hk
      rw [hnone k hk] at hhistory
      cases hhistory
    refine ⟨s1, hrun, by rwa [hstore, historyKeys_eq_nil], fun now => ?_⟩
    obtain ⟨h', d', regions, hreturns, hwf, hstarts⟩ :=
      loadRecentlyReprovidedRegions_returns (h := s1.caller) env now hwritten
    obtain ⟨s2, hload, -⟩ := hreturns s1 hs1 rfl rfl
    have hempty : ∀ x, ¬ ∃ r ∈ regions.keys, StartsWith x r := by
      intro x hx
      obtain ⟨e, ⟨hrange, hmem⟩, -⟩ := (hstarts x).mp hx
      rw [hstore] at hmem
      have hfalse := hnone _ hmem
      rw [isHistoryKey_entryKey hrange] at hfalse
      cases hfalse
    have hnil : regions = .emptyLeaf := by
      apply hwf.entries_eq_nil.mp
      rw [eq_nil_iff_forall_not_mem]
      intro e he
      obtain ⟨x, hx⟩ := exists_startsWith e.1
      exact hempty x ⟨e.1, Trie.mem_keys_of_mem he, hx⟩
    refine ⟨s2, regions, hload, hnil, fun st hschedule hqueue hidle => ?_⟩
    obtain ⟨q, henqueue, -, hmem⟩ :=
      enqueueExpiredRegionsNoLock_returns env hschedule hqueue hidle hwf
    refine ⟨q, henqueue, fun p hp => (hmem p).mpr ⟨hp, fun hcovers => ?_⟩⟩
    obtain ⟨x, hx⟩ := exists_startsWith p
    exact hempty x (hcovers x hx)

end FreshStart

/-- A reprovide was logged before a restart: the entry is still there. -/
theorem fresh_start_keeps_history :
    ¬ @ForgetsHistory binaryLeafTrie (sampleEnv []) (loggedSession 0 [(1699999000, [true])]) := by
  have hrange : ∀ e ∈ [((1699999000 : Int64), [true])], InRange e.1 := by decide
  rintro ⟨s', hrun, hnil, -⟩
  obtain ⟨s1, hrun1, -, -, hstore⟩ := clearHistory_returns (sampleEnv []) _
    (loggedSession 0 [(1699999000, [true])]) (loggedSession_healthy _ _) rfl rfl
  rw [hrun1, Prod.mk.injEq] at hrun
  rw [← hrun.1, hstore, historyKeys_eq_nil] at hnil
  have hlogged := (mem_history_loggedSession 0 hrange (1699999000, [true])).mpr mem_cons_self
  have hfalse := hnil _ hlogged.2
  rw [isHistoryKey_entryKey hlogged.1] at hfalse
  cases hfalse

/-- The store has keys, but no history. -/
def otherKeys : Session HistoryState :=
  { loggedSession 0 [] with
    store := (Datastore.empty.put (.new ['a', 'v', 'g']) [12]).put (.new ['h', 'i', 's', 't']) [] }

theorem forgetsHistory_otherKeys : @ForgetsHistory binaryLeafTrie (sampleEnv []) otherKeys :=
  (@forgetsHistory_iff binaryLeafTrie (sampleEnv []) _ (fun _ => rfl) rfl).mpr (by decide)

end KadDht.SweepingProvider.ReprovideHistory
