import KadDht.Lib.Weight
import KadDht.Provider.Frame
import Mathlib

/-!
# Provider — the statistics (`provider/stats.go`)

* **`sendProviderRecords_failed_iff`** — which keys are recorded as failed.
* **`Keeps`** — a method leaves the counters as they were, wherever it returns. Queues and schedule
  do not matter here, so that there is no invariant to keep; the triples are composed by `mvcgen`.
* **`provideRegions_counts_iff`** — the keys of a region that is sent count twice.
* **`ongoing_balanced_iff`** — when a call is taken off the ongoing operations as it was added.
-/

namespace KadDht.SweepingProvider

open List Std.Do

set_option mvcgen.warning false

/-! ## Failed keys

`sendProviderRecords` counts the failed copies of each key, and records the keys for which there are
as many as the replication factor. How many copies a key has is known where the allocations come
from: in a region there are as many, or one for each peer, and a key on its own has one for each
peer. -/

/-- The job fails: `provideKeysToPeer` returns an error. -/
def jobFails (env : Env) (job : PeerId × List (List Multihash)) : Bool :=
  (provideKeysToPeer env job.1 job.2).1.isSome

def failures (env : Env) (keysAllocations : Allocations Multihash PeerId) : List Multihash :=
  (failedJobs env keysAllocations).flatMap fun job => job.2.flatten

/-- The keys that `sendProviderRecords` records as failed. -/
def recordedFailed (env : Env) (keysAllocations : Allocations Multihash PeerId) : List Multihash :=
  (failures env keysAllocations).dedup.filter fun k =>
    (failures env keysAllocations).count k == env.replicationFactor

/-- The keys recorded as failed are those for which every peer failed that they were allocated
to. -/
def RecordsExactly (env : Env) (keysAllocations : Allocations Multihash PeerId) : Prop :=
  ∀ k, Allocated keysAllocations k → (k ∈ recordedFailed env keysAllocations ↔
    ∀ job ∈ keysAllocations, k ∈ job.2.flatten → jobFails env job = true)

variable {env : Env} {keysAllocations : Allocations Multihash PeerId} {k : Multihash}

/-- A key is in all copies given to failing jobs exactly when every job that has it fails. -/
theorem count_filter_eq_iff (fails : PeerId × List (List Multihash) → Bool)
    (jobs : Allocations Multihash PeerId) (k : Multihash) :
    ((jobs.filter fails).flatMap fun job => job.2.flatten).count k ≤ holders jobs k ∧
    (((jobs.filter fails).flatMap fun job => job.2.flatten).count k = holders jobs k ↔
      ∀ job ∈ jobs, k ∈ job.2.flatten → fails job = true) := by
  induction jobs with
  | nil => simp [holders]
  | cons job jobs ih =>
    obtain ⟨hle, hiff⟩ := ih
    have hholders : holders (job :: jobs) k = job.2.flatten.count k + holders jobs k := by
      simp [holders]
    rw [forall_mem_cons, ← hiff, hholders, filter_cons]
    split
    · next hfails =>
      rw [flatMap_cons, count_append]
      exact ⟨by omega, by simp [hfails]⟩
    · next hfails =>
      refine ⟨by omega, ?_⟩
      by_cases hk : k ∈ job.2.flatten
      · have hpos := count_pos_iff.mpr hk
        exact iff_of_false (by omega) fun h => hfails (h.1 hk)
      · simp [count_eq_zero_of_not_mem hk, hk]

/-- A key on its own has one copy for each peer. -/
theorem count_singleKey (fails : PeerId × List (List Multihash) → Bool) (peers : List PeerId)
    (k : Multihash) :
    (((peers.map fun p => (p, [[k]])).filter fails).flatMap fun job => job.2.flatten).count k =
      peers.countP fun p => fails (p, [[k]]) := by
  induction peers with
  | nil => rfl
  | cons p peers ih =>
    rw [map_cons, filter_cons, countP_cons]
    split
    · rw [flatMap_cons, count_append, ih]
      simp [Nat.add_comm]
    · exact ih

theorem mem_recordedFailed : k ∈ recordedFailed env keysAllocations ↔
    (failures env keysAllocations).count k = env.replicationFactor := by
  rw [recordedFailed, mem_filter, mem_dedup, beq_iff_eq, and_iff_right_iff_imp]
  intro hcount
  rw [← count_pos_iff, hcount]
  exact env.replicationFactor_pos

section Open

variable (hopen : env.closed = false)
include hopen

theorem failures_eq (keysAllocations : Allocations Multihash PeerId) :
    failures env keysAllocations =
      (keysAllocations.filter (jobFails env)).flatMap fun job => job.2.flatten := by
  simp only [failures, failedJobs, hopen, Bool.false_eq_true, if_false]
  rfl

/-- The failures of a key are compared with the replication factor, and not with the number of its
copies. -/
theorem recordsExactly_iff : RecordsExactly env keysAllocations ↔
    ∀ k, Allocated keysAllocations k →
      ((failures env keysAllocations).count k = env.replicationFactor ↔
        (failures env keysAllocations).count k = holders keysAllocations k) := by
  refine forall_congr' fun k => imp_congr_right fun _ => ?_
  rw [mem_recordedFailed, failures_eq hopen, (count_filter_eq_iff _ keysAllocations k).2]

/-- In a region a key has as many copies as the replication factor says, or one for each peer. In
the second case it is never recorded. -/
theorem recordsExactly_region_iff {r : Region} (h : r.KeysMatch) (hpeers : r.HasPeers) :
    RecordsExactly env (regionAllocations env r) ↔
      env.replicationFactor ≤ r.peers.size ∨ ∀ k, r.keys.HasValue k →
        ∃ job ∈ regionAllocations env r, k ∈ job.2.flatten ∧ jobFails env job = false := by
  have hholders : ∀ k, r.keys.HasValue k →
      holders (regionAllocations env r) k = min env.replicationFactor r.peers.size := by
    rintro _ ⟨e, he, rfl⟩
    have hkeys : (r.keys.entries.map Prod.snd).Nodup :=
      Nodup.map_on (fun e he e' he' hsame =>
        Prod.ext (by rw [h.filed e he, h.filed e' he', hsame]) hsame) h.wf.entries_nodup
    obtain ⟨l, hperm, hsub⟩ := chosen_subperm r.peers 0 env.replicationFactor e.1
    rw [regionAllocations, (allocateToKClosest_gives h.wf hpeers.nodup _).holders_eq hkeys he
      (hperm.nodup_iff.mp (hpeers.nodup.sublist hsub)), length_chosen]
  have hcount := count_filter_eq_iff (jobFails env) (regionAllocations env r)
  rw [recordsExactly_iff hopen]
  simp only [allocated_regionAllocations h hpeers, failures_eq hopen]
  constructor
  · intro hexact
    refine or_iff_not_imp_left.mpr fun hfew k hk => ?_
    by_contra hall
    have hsame := (hcount k).2.mpr fun job hjob hmem => by
      by_contra hok
      exact hall ⟨job, hjob, hmem, Bool.eq_false_iff.mpr hok⟩
    have hfactor := (hexact k hk).mpr hsame
    rw [hholders k hk] at hsame
    omega
  · rintro (hmany | hone) k hk
    · rw [hholders k hk, Nat.min_eq_left hmany]
    · obtain ⟨job, hjob, hmem, hok⟩ := hone k hk
      have hne := mt (hcount k).2.mp fun hall => by
        have hfails := hall job hjob hmem
        rw [hok] at hfails
        cases hfails
      have hle := (hcount k).1
      rw [hholders k hk] at hle hne ⊢
      omega

theorem recordsExactly_single_iff (k : Multihash) {peers : List PeerId} (hne : peers ≠ []) :
    RecordsExactly env (singleKeyAllocations k peers) ↔
      peers.dedup.length = env.replicationFactor ∨
        peers.dedup.countP (fun p => jobFails env (p, [[k]])) ≠ env.replicationFactor ∧
          ∃ p ∈ peers, jobFails env (p, [[k]]) = false := by
  have hfailed : (failures env (singleKeyAllocations k peers)).count k =
      peers.dedup.countP fun p => jobFails env (p, [[k]]) := by
    rw [failures_eq hopen, singleKeyAllocations, count_singleKey]
  have hholders : holders (singleKeyAllocations k peers) k = peers.dedup.length := by
    have hcount := count_singleKey (fun _ => true) peers.dedup k
    rwa [filter_true, countP_true] at hcount
  have hall : (∃ p ∈ peers, jobFails env (p, [[k]]) = false) ↔
      peers.dedup.countP (fun p => jobFails env (p, [[k]])) ≠ peers.dedup.length := by
    simp [countP_eq_length]
  rw [recordsExactly_iff hopen]
  simp only [allocated_singleKeyAllocations, hne, ne_eq, not_false_eq_true, true_and, forall_eq,
    hfailed, hholders, hall]
  omega

/-- **The outcome of the keys.** The keys of a region are recorded as they should be exactly when
the region has as many peers as the replication factor, or each key gets to one of its peers. For a
key on its own there have to be exactly as many peers, or it gets to one, and the number of those it
does not get to is not the replication factor. -/
theorem sendProviderRecords_failed_iff :
    (∀ keysAllocations ≠ [], ∀ nKeys s, ∃ s', sendProviderRecords env keysAllocations nKeys s
        = some (sendOutcome env keysAllocations, s') ∧
      s'.stats.keysFailed = s.stats.keysFailed + (recordedFailed env keysAllocations).length ∧
      s'.stats.keysProvided
        = s.stats.keysProvided + (nKeys - (recordedFailed env keysAllocations).length)) ∧
    (∀ r : Region, r.KeysMatch → r.HasPeers →
      (RecordsExactly env (regionAllocations env r) ↔
        env.replicationFactor ≤ r.peers.size ∨ ∀ k, r.keys.HasValue k →
          ∃ job ∈ regionAllocations env r, k ∈ job.2.flatten ∧ jobFails env job = false)) ∧
    ∀ k peers, peers ≠ [] →
      (RecordsExactly env (singleKeyAllocations k peers) ↔
        peers.dedup.length = env.replicationFactor ∨
          peers.dedup.countP (fun p => jobFails env (p, [[k]])) ≠ env.replicationFactor ∧
            ∃ p ∈ peers, jobFails env (p, [[k]]) = false) := by
  refine ⟨fun keysAllocations hne nKeys s => ?_, fun r => recordsExactly_region_iff hopen,
    fun k peers => recordsExactly_single_iff hopen k⟩
  obtain ⟨job, jobs, rfl⟩ := exists_cons_of_ne_nil hne
  exact ⟨_, rfl, rfl, rfl⟩

end Open

def unreachableEnv : Env := { sampleNetwork [] with unreachable := samplePeers }.env sampleConfig

def pairRegion : Region where
  pfx := []
  peers := .node (.leaf (peerIDToBit256 [0, 1, 0]) [0, 1, 0])
    (.leaf (peerIDToBit256 [0, 1, 4]) [0, 1, 4])
  keys := .leaf (mhToBit256 [0, 1, 5]) [0, 1, 5]

/-- There are as many peers as the replication factor says. None of them answers, and the key is
recorded as failed, in a region and on its own. -/
theorem sendProviderRecords_failed_twoPeers :
    (pairRegion.KeysMatch ∧ pairRegion.HasPeers ∧
      RecordsExactly unreachableEnv (regionAllocations unreachableEnv pairRegion) ∧
      recordedFailed unreachableEnv (regionAllocations unreachableEnv pairRegion) = [[0, 1, 5]]) ∧
    RecordsExactly unreachableEnv (singleKeyAllocations [0, 1, 5] [[0, 1, 0], [0, 1, 4]]) ∧
    recordedFailed unreachableEnv (singleKeyAllocations [0, 1, 5] [[0, 1, 0], [0, 1, 4]])
      = [[0, 1, 5]] := by
  obtain ⟨-, hregion, hsingle⟩ := @sendProviderRecords_failed_iff unreachableEnv rfl
  have hkeys : pairRegion.KeysMatch :=
    ⟨List.nil_prefix, by simp [pairRegion], fun _ _ => nil_prefix⟩
  have hpeers : pairRegion.HasPeers := ⟨by simp [pairRegion], by decide⟩
  exact ⟨⟨hkeys, hpeers, (hregion _ hkeys hpeers).mpr (.inl (by decide)), by decide +kernel⟩,
    (hsingle _ _ (by decide)).mpr (.inl (by decide)), by decide +kernel⟩

/-- A region has one peer, fewer than the replication factor. It does not answer, and its key is
recorded as provided. -/
theorem sendProviderRecords_unrecorded :
    allocateToKClosest (.leaf (mhToBit256 [0, 1, 5]) [0, 1, 5])
      (.leaf (peerIDToBit256 [0, 1, 0]) [0, 1, 0]) unreachableEnv.replicationFactor
        = [([0, 1, 0], [[[0, 1, 5]]])] ∧
    (provideKeysToPeer unreachableEnv [0, 1, 0] [[[0, 1, 5]]]).1.isSome = true ∧
    recordedFailed unreachableEnv [([0, 1, 0], [[[0, 1, 5]]])] = [] ∧
    (sendProviderRecords unreachableEnv [([0, 1, 0], [[[0, 1, 5]]])] 1 State.new).map
      (fun r => (r.2.stats.keysProvided, r.2.stats.keysFailed)) = some (1, 0) :=
  ⟨rfl, by decide, by decide, by decide⟩

/-! ## The provide counter

`recordSend` adds the keys that did not fail to `keysProvided` and to the counter, and
`provideRegions` adds the keys of a region that was sent once more. All other methods keep the
difference of the two. -/

/-- What the calls below leave as it is, or change together. -/
def Stats.balance (st : Stats) : OngoingOpStats × OngoingOpStats × Int :=
  (st.ongoingProvides, st.ongoingReprovides, st.provideCounter - st.keysProvided)

variable {α β : Type} {c : OngoingOpStats × OngoingOpStats × Int}

/-- A triple says what holds after a call that returns. -/
theorem triple_iff {m : ProviderM α} {P : State → Prop} {Q : α → State → Prop} :
    ⦃fun s => ⌜P s⌝⦄ m ⦃⇓? a s => ⌜Q a s⌝⦄ ↔ ∀ s a s', P s → m s = some (a, s') → Q a s' := by
  have hwp (s : State) : (wp⟦m⟧ (⇓? a s => ⌜Q a s⌝) s).down ↔
      ∀ a s', m s = some (a, s') → Q a s' := by
    show (wp⟦m s⟧ (⇓? r => ⌜Q r.1 r.2⌝)).down ↔ _
    cases m s with
    | none => exact iff_of_true trivial fun _ _ h => (by cases h)
    | some r => exact ⟨fun h _ _ heq => by cases heq; exact h, fun h => h _ _ rfl⟩
  exact ⟨fun h s a s' hP heq => (hwp s).mp (h s hP) a s' heq,
    fun h s hP => (hwp s).mpr fun a s' => h s a s' hP⟩

/-- Where the method returns, the balance is as it was. -/
abbrev Keeps (c : OngoingOpStats × OngoingOpStats × Int) (m : ProviderM α) : Prop :=
  ⦃fun s => ⌜s.stats.balance = c⌝⦄ m ⦃⇓? _ s => ⌜s.stats.balance = c⌝⦄

theorem keeps_map {x : State → Option α} {g : State → α → β × State}
    (h : ∀ s a, (g s a).2.stats = s.stats) : Keeps c fun s => (x s).map (g s) :=
  triple_iff.mpr fun s b s' hc heq => by
    obtain ⟨a, -, hg⟩ := Option.map_eq_some_iff.mp heq
    rw [← hc, ← h s a, hg]

attribute [spec] emit modifyStats increaseProvideCounter currentTimeOffset timeUntil
  persistSuccessfulReprovide releaseRegionReprovide selfAddrInfo sendProviderRecords

@[spec] theorem goPanic_keeps : Keeps c (goPanic : ProviderM α) :=
  triple_iff.mpr fun _ _ _ _ h => by cases h

variable (env : Env) (pfx : Bitstr) (keys : List Multihash)

@[spec] theorem now_keeps : Keeps c (now env) :=
  triple_iff.mpr fun _ _ _ hc h => by
    cases h
    exact hc

@[spec] theorem scheduleNextReprovideNoLock_keeps (d : Duration) :
    Keeps c (scheduleNextReprovideNoLock env pfx d) :=
  triple_iff.mpr fun _ _ _ hc h => by
    cases h
    exact hc

@[spec] theorem unscheduleSubsumedPrefixesNoLock_keeps :
    Keeps c (unscheduleSubsumedPrefixesNoLock env pfx) := by
  unfold unscheduleSubsumedPrefixesNoLock
  mvcgen
  all_goals grind

@[spec] theorem recordSend_keeps (keysAllocations : Allocations Multihash PeerId) (nKeys : Nat) :
    Keeps c (recordSend env keysAllocations nKeys) := by
  unfold recordSend
  mvcgen
  grind [Stats.balance]

@[spec] theorem vanillaProvide_keeps (key : Multihash) : Keeps c (vanillaProvide env key) := by
  unfold vanillaProvide
  mvcgen
  grind

variable [TrieLib]

@[spec] theorem reprovideQueueEnqueue_keeps : Keeps c (reprovideQueueEnqueue pfx) :=
  keeps_map fun _ _ => rfl

@[spec] theorem provideQueueEnqueue_keeps : Keeps c (provideQueueEnqueue pfx keys) :=
  keeps_map fun _ _ => rfl

@[spec] theorem provideQueueDequeueMatching_keeps : Keeps c (provideQueueDequeueMatching pfx) :=
  keeps_map fun _ _ => rfl

@[spec] theorem reprovideQueueRemove_keeps : Keeps c (reprovideQueueRemove pfx) :=
  keeps_map fun _ _ => rfl

@[spec] theorem reschedulePrefix_keeps : Keeps c (reschedulePrefix env pfx) := by
  unfold reschedulePrefix schedulePrefixNoLock advanceCursor nextReprovideTime
  mvcgen
  all_goals grind

attribute [spec] failedProvide failedReprovide finishReprovide

@[spec] theorem provideOne_keeps (reprovide success : Bool) (key : Multihash) :
    Keeps c (provideOne env pfx reprovide success key) := by
  unfold provideOne
  mvcgen
  all_goals grind

@[spec] theorem individualProvide_keeps (reprovide : Bool) :
    Keeps c (individualProvide env pfx keys reprovide) := by
  unfold individualProvide concludeSingle concludeAll
  mvcgen invariants
  · ⇓? _ s => ⌜s.stats.balance = c⌝
  all_goals grind

/-- The keys of a region that `provideRegions` adds to the provide counter once more. -/
def recounted (r : Region) : Nat :=
  if (sendOutcome env (allocateToKClosest r.keys r.peers env.replicationFactor)).2.isNone then
    (valuesIter r.keys env.order).length
  else 0

@[spec] theorem provideRegion_counts (reprovide : Bool) (errCount : Nat) (r : Region) :
    ⦃fun s => ⌜s.stats.balance = c⌝⦄ provideRegion env reprovide errCount r
    ⦃⇓? _ s => ⌜s.stats.balance = (c.1, c.2.1, c.2.2 + recounted env r)⌝⦄ := by
  have hempty (h : r.keys.isEmptyLeaf = true) : recounted env r = 0 := by
    rw [recounted, (Trie.isEmptyLeaf_iff _).mp h]
    exact ite_self 0
  unfold provideRegion concludeRegion
  mvcgen
  all_goals grind [Stats.balance, recounted]

@[spec] theorem provideRegions_counts (regions : List Region) (reprovide : Bool) :
    ⦃fun s => ⌜s.stats.balance = c⌝⦄ provideRegions env regions reprovide
    ⦃⇓? _ s => ⌜s.stats.balance = (c.1, c.2.1, c.2.2 + weight (recounted env) regions)⌝⦄ := by
  unfold provideRegions
  mvcgen invariants
  · ⇓? xs s => ⌜s.stats.balance =
      (c.1, c.2.1, c.2.2 + weight (recounted env) ( List.Cursor.prefix xs.1))⌝
  all_goals simp_all [Int.add_assoc]

/-- **The provide counter.** It grows by the number of keys that are recorded as provided, if no
region with keys is sent: `provideRegions` adds the keys of those once more. -/
theorem provideRegions_counts_iff (regions : List Region) (reprovide : Bool) {s s' : State}
    {ok : Bool} (h : provideRegions env regions reprovide s = some (ok, s')) :
    s'.stats.provideCounter - s.stats.provideCounter
        = s'.stats.keysProvided - s.stats.keysProvided ↔
      ∀ r ∈ regions, valuesIter r.keys env.order ≠ [] →
        (sendOutcome env (allocateToKClosest r.keys r.peers env.replicationFactor)).2 ≠ none := by
  have hcount := triple_iff.mp (provideRegions_counts env regions reprovide) s ok s' rfl h
  have hregion (r : Region) : recounted env r = 0 ↔ (valuesIter r.keys env.order ≠ [] →
      (sendOutcome env (allocateToKClosest r.keys r.peers env.replicationFactor)).2 ≠ none) := by
    unfold recounted
    split
    · next hnone => simp [Option.isNone_iff_eq_none.mp hnone]
    · next hnone => simp [mt Option.isNone_iff_eq_none.mpr hnone]
  have hweight := congrArg (fun c => c.2.2) hcount
  simp only [← hregion, ← weight_eq_zero_iff (recounted env)]
  simp only [Stats.balance] at hweight
  omega

def sampleRegion : Region where
  pfx := []
  peers := .leaf (peerIDToBit256 [0, 1, 0]) [0, 1, 0]
  keys := .leaf (mhToBit256 [0, 1, 5]) [0, 1, 5]

omit [TrieLib] in
/-- No peer of the region answers: its key is counted as often as it is recorded. -/
theorem provideRegions_counts_unreachable :
    valuesIter sampleRegion.keys unreachableEnv.order = [[0, 1, 5]] ∧
    ∃ ok s', @provideRegions binaryTrie unreachableEnv [sampleRegion] false State.new =
        some (ok, s') ∧
      s'.stats.provideCounter - State.new.stats.provideCounter
        = s'.stats.keysProvided - State.new.stats.keysProvided :=
  ⟨rfl, _, _, rfl, (@provideRegions_counts_iff unreachableEnv binaryTrie [sampleRegion] false _ _ _
    rfl).mpr (by decide)⟩

omit [TrieLib] in
/-- A key is recorded as provided once, and counted twice. -/
theorem provideRegions_counts_twice :
    (@provideRegions binaryTrie (sampleEnv []) [sampleRegion] false State.new).map
      (fun r => (r.2.stats.keysProvided, r.2.stats.provideCounter)) = some (1, 2) := by
  decide

/-! ## Ongoing operations

A batch is added to the ongoing operations when it begins and taken off by a deferred call. The
counters are as before where the keys added are the keys taken off. -/

attribute [spec] ongoingProvides ongoingReprovides
attribute [grind] OngoingOpStats.start OngoingOpStats.finish OngoingOpStats.addKeys
attribute [ext, grind ext] OngoingOpStats

theorem batchProvide_balances {a : OngoingOpStats} :
    ⦃fun s => ⌜s.stats.ongoingProvides = a⌝⦄ batchProvide env pfx keys
    ⦃⇓? _ s => ⌜s.stats.ongoingProvides = a⌝⦄ := by
  unfold batchProvide
  mvcgen
  all_goals grind [Stats.balance]

@[spec] theorem reprovideClaimed_keeps (regions : List Region) :
    ⦃fun s => ⌜s.stats.balance = c⌝⦄ reprovideClaimed env pfx keys regions
    ⦃⇓? _ s => ⌜s.stats.ongoingReprovides = c.2.1⌝⦄ := by
  unfold reprovideClaimed
  mvcgen
  all_goals grind [Stats.balance]

@[spec] theorem claimRegionReprovide_keeps (regions : List Region) :
    Keeps c (claimRegionReprovide regions) :=
  triple_iff.mpr fun _ _ _ hc h => by
    cases h
    exact hc

/-- The keys of a shorter prefix cannot be loaded. -/
@[grind] def ReprovidePath.loadFails : ReprovidePath → Bool
  | .loadFailed _ _ => true
  | _ => false

/-- On all paths but one the keys taken off are those that were added. Where the keys of a shorter
prefix cannot be loaded, they are those of the nil slice that comes with the error. -/
theorem batchReprovide_balances_iff {a : OngoingOpStats} :
    ⦃fun s => ⌜s.stats.ongoingReprovides = a⌝⦄ batchReprovide env pfx
    ⦃⇓? _ s => ⌜s.stats.ongoingReprovides = a ↔
      (reprovidePath env pfx).loadFails = false⌝⦄ := by
  unfold batchReprovide
  mvcgen
  all_goals grind [Stats.balance, reprovidePath, exploredPath]

/-- **Ongoing operations.** A provide leaves their counters as they were. A reprovide does so,
unless the keys of a shorter prefix cannot be loaded. -/
theorem ongoing_balanced_iff (keys : List Multihash) {s : State} (hs : s.Inv) :
    (∀ s', batchProvide env pfx keys s = some ((), s') →
      s'.stats.ongoingProvides = s.stats.ongoingProvides) ∧
    ((∀ m ∈ keys, pfx <+: (mhToBit256 m).bits) →
      (batchProvide env pfx keys s).isSome = true) ∧
    ∃ s', batchReprovide env pfx s = some ((), s') ∧
      (s'.stats.ongoingReprovides = s.stats.ongoingReprovides ↔
        (reprovidePath env pfx).loadFails = false) := by
  refine ⟨fun s' h => ?_, fun hmatch => ?_, ?_⟩
  · exact triple_iff.mp (batchProvide_balances env pfx keys) s () s' rfl h
  · obtain ⟨s', heq, -⟩ := simulates_batchProvide env hmatch s hs
    rw [heq]
    rfl
  · obtain ⟨s', heq, -⟩ := batchReprovide_follow env pfx hs
    exact ⟨s', heq, triple_iff.mp (batchReprovide_balances_iff env pfx) s () s' rfl heq⟩

omit [TrieLib] in
/-- Three keys below `000` are reprovided, and taken off again. -/
theorem ongoing_balanced_lowKeys : (sampleState [[false, false, false]]).Inv ∧
    ∃ s', @batchReprovide binaryTrie (sampleEnv lowKeys) [false, false, false]
        (sampleState [[false, false, false]]) = some ((), s') ∧
      s'.stats.ongoingReprovides =
        (sampleState [[false, false, false]]).stats.ongoingReprovides := by
  have hs : (sampleState [[false, false, false]]).Inv := sampleState_inv (by decide)
  obtain ⟨-, -, s', heq, hiff⟩ := @ongoing_balanced_iff (sampleEnv lowKeys) [false, false, false]
    binaryTrie lowKeys _ hs
  exact ⟨hs, s', heq, hiff.mpr (by decide +kernel)⟩

omit [TrieLib] in
/-- The keys below `000` are loaded, and those of the covered prefix `00` are not: three keys stay
counted. -/
theorem ongoing_unbalanced :
    (@batchReprovide binaryTrie brokenEnv [false, false, false]
      (sampleState [[false, false, false]])).map (fun r => r.2.stats.ongoingReprovides)
        = some ⟨0, 3⟩ := by
  decide +kernel

end KadDht.SweepingProvider
