import KadDht.Keyspace.Coalesce
import KadDht.Provider.Network

/-!
# Provider — the bootstrap reprovide (`provider/provider.go`)

When the node comes online for the first time, the regions that were reprovided during the last
interval are known from the reprovide history. All other scheduled regions are queued.

* **`enqueueExpiredRegionsNoLock_exact`** — exactly these regions are queued.
-/

namespace KadDht.SweepingProvider

section Model

variable [TrieLib]

/-- `toReprovideTrie` of `enqueueExpiredRegionsNoLock`: the scheduled regions without the recent
ones. -/
def expiredRegions (schedule : Trie Bitstr Duration) (recentlyReprovided : Trie Bitstr Unit) :
    Trie Bitstr Duration :=
  subtractTrie schedule (coalesceTrie recentlyReprovided)

def enqueueExpiredRegionsNoLock (env : Env) (recentlyReprovided : Trie Bitstr Unit) :
    ProviderM Unit := fun s =>
  let toReprovideTrie := expiredRegions s.schedule recentlyReprovided
  (s.reprovideQueue.pushAll (allKeys toReprovideTrie env.order)).map fun q =>
    ((), { s with reprovideQueue := q })

end Model

section Exact

variable [LeafTrieLib] {schedule : Trie Bitstr Duration} {recentlyReprovided : Trie Bitstr Unit}

/-- **The expired regions.** A scheduled region is dropped if the recent regions cover it together;
no single one of them has to. -/
theorem mem_expiredRegions (hschedule : schedule.WF) (hrecent : recentlyReprovided.WF)
    (p : Bitstr) :
    p ∈ (expiredRegions schedule recentlyReprovided).keys ↔
      p ∈ schedule.keys ∧ ¬ JointlyCovers {r | r ∈ recentlyReprovided.keys} p := by
  have hcoalesced : (coalesceTrie recentlyReprovided).WF := (coalesceTrie_sound hrecent).1
  rw [expiredRegions, (subtractTrie_spec hschedule hcoalesced).2, ← covers_coalesceTrie hrecent]
  push Not
  rfl

theorem expiredRegions_wf (hschedule : schedule.WF) (hrecent : recentlyReprovided.WF) :
    (expiredRegions schedule recentlyReprovided).WF :=
  (subtractTrie_spec hschedule (coalesceTrie_sound hrecent).1).1

theorem pushAll_allKeys {q : PrefixQueue} (hq : q.Inv) (hempty : q.queue = [])
    {t : Trie Bitstr Duration} (ht : t.WF) (order : Bit256) :
    ∃ q', q.pushAll (allKeys t order) = some q' ∧ q'.Inv ∧ ∀ p, p ∈ q'.queue ↔ p ∈ t.keys := by
  obtain ⟨q', hpush, hinv, hqueue⟩ := PrefixQueue.pushAll_spec hq (allKeys t order)
  refine ⟨q', hpush, hinv, fun p => ?_⟩
  have hset := setOf_foldl_pushPrefix hq.prefixFree (allKeys t order)
  rw [← hqueue] at hset
  have hmem : p ∈ q'.queue ↔ p ∈ absorbAll {x | x ∈ q.queue} (allKeys t order) :=
    Set.ext_iff.mp hset p
  rw [hmem, ← (allKeys_perm t order).mem_iff]
  constructor
  · intro hp
    rcases mem_or_mem_of_mem_absorbAll hp with hold | hnew
    · rw [hempty] at hold
      cases hold
    · exact hnew
  · intro hp
    -- the keys of the trie are disjoint, so that none absorbs another one
    apply mem_absorbAll_of_not_covers hp
    · intro r hr hpre
      exact ht.eq_of_overlap ((allKeys_perm t order).mem_iff.mp hr)
        ((allKeys_perm t order).mem_iff.mp hp) (.inl hpre)
    · rintro ⟨x, hx, -⟩
      rw [hempty] at hx
      cases hx

theorem enqueueExpiredRegionsNoLock_returns (env : Env) {s : State} (hschedule : s.schedule.WF)
    (hqueue : s.reprovideQueue.Inv) (hempty : s.reprovideQueue.queue = [])
    (hrecent : recentlyReprovided.WF) :
    ∃ q : PrefixQueue,
      enqueueExpiredRegionsNoLock env recentlyReprovided s =
        some ((), { s with reprovideQueue := q }) ∧
      q.Inv ∧ ∀ p, p ∈ q.queue ↔
        p ∈ s.schedule.keys ∧ ¬ JointlyCovers {r | r ∈ recentlyReprovided.keys} p := by
  obtain ⟨q, hpush, hinv, hmem⟩ :=
    pushAll_allKeys hqueue hempty (expiredRegions_wf hschedule hrecent) env.order
  refine ⟨q, ?_, hinv, fun p => (hmem p).trans (mem_expiredRegions hschedule hrecent p)⟩
  show (s.reprovideQueue.pushAll _).map _ = _
  rw [hpush]
  rfl

/-- **Bootstrapping queues exactly the expired regions.** The queue is empty before. After
`enqueueExpiredRegionsNoLock` it holds scheduled prefixes only, and a scheduled prefix is in it if
and only if some infinite bit string that starts with it starts with none of the recently
reprovided prefixes. Nothing else has changed. -/
theorem enqueueExpiredRegionsNoLock_exact (env : Env) {s : State} (hschedule : s.schedule.WF)
    (hqueue : s.reprovideQueue.Inv) (hempty : s.reprovideQueue.queue = [])
    (hrecent : recentlyReprovided.WF) :
    ∃ q : PrefixQueue,
      enqueueExpiredRegionsNoLock env recentlyReprovided s =
        some ((), { s with reprovideQueue := q }) ∧
      q.Inv ∧ (∀ p ∈ q.queue, p ∈ s.schedule.keys) ∧
      ∀ p ∈ s.schedule.keys, p ∈ q.queue ↔
        ∃ x : Nat → Bool, StartsWith x p ∧ ∀ r ∈ recentlyReprovided.keys, ¬ StartsWith x r := by
  obtain ⟨q, henqueue, hinv, hmem⟩ :=
    enqueueExpiredRegionsNoLock_returns env hschedule hqueue hempty hrecent
  refine ⟨q, henqueue, hinv, fun p hp => ((hmem p).mp hp).1, fun p hp => ?_⟩
  rw [hmem, JointlyCovers]
  push Not
  exact and_iff_right hp

end Exact

/-- `00`, `01` and `10` were reprovided: the first two cover `0` together. -/
def recentSample : Trie Bitstr Unit :=
  @TrieLib.addMany binaryTrie _ _ _ .emptyLeaf
    [([false, false], ()), ([false, true], ()), ([true, false], ())]

theorem recentSample_wf : recentSample.WF := by
  apply @TrieLib.addMany_wf binaryTrie _ _ _ _ _ Trie.wf_emptyLeaf
  refine ⟨fun e _ => by simp [Trie.Accepts], ?_⟩
  decide

/-- Of the regions `0`, `10` and `11`, only the last one has expired. -/
theorem enqueueExpiredRegionsNoLock_sample :
    ∃ q : PrefixQueue,
      @enqueueExpiredRegionsNoLock binaryTrie (sampleEnv []) recentSample
        (sampleState [[false], [true, false], [true, true]]) =
          some ((), { sampleState [[false], [true, false], [true, true]] with
            reprovideQueue := q }) ∧
      q.Inv ∧
      (∀ p ∈ q.queue, p ∈ (sampleState [[false], [true, false], [true, true]]).schedule.keys) ∧
      ∀ p ∈ (sampleState [[false], [true, false], [true, true]]).schedule.keys, p ∈ q.queue ↔
        ∃ x : Nat → Bool, StartsWith x p ∧ ∀ r ∈ recentSample.keys, ¬ StartsWith x r := by
  have hs : (sampleState [[false], [true, false], [true, true]]).Inv := sampleState_inv (by decide)
  exact @enqueueExpiredRegionsNoLock_exact binaryLeafTrie _ (sampleEnv []) _ hs.schedule
    hs.reprovideQueue rfl recentSample_wf

end KadDht.SweepingProvider
