import KadDht.Provider.Outcome
import KadDht.Provider.Wakeup

/-!
# Provider — `StopProviding` while workers are running

`StopProviding` deletes a key from the keystore and removes it from the provide queue. The provide
loop takes batches from the queue for its workers. A worker holds the keys of its batch outside of
both, and `failedProvide` puts them back to the queue when they could not be sent.

The loop, the workers and `StopProviding` are tasks that take turns; a step is one operation on the
queue or on the keystore, with the network work that comes before it. Whether a lookup or a send
succeeds, what an exploration returns, and when the node is offline, is open (`Choice`).

* **`final_iff`** — when `StopProviding` is final.
-/

namespace KadDht.SweepingProvider

open List

namespace Stop

/-! ## Workers -/

/-- The provide loop and the goroutines that it starts. -/
inductive Worker where
  /-- `provideLoop` is about to test the queue. -/
  | provideLoop
  /-- `batchProvide` has just begun. -/
  | batchProvide (pfx : Bitstr) (keys : List Multihash)
  /-- A goroutine of `individualProvide`. -/
  | individualProvide (pfx : Bitstr) (key : Multihash)
  /-- `provideRegions` has these regions left. -/
  | provideRegions (regions : List Region)

inductive Choice where
  /-- The node has no address to announce. -/
  | noAddress
  | err
  | ok
  /-- The swarm was explored: the regions split the keyspace below the covered prefix. -/
  | explored (regions : List Region) (coveredPrefix : Bitstr)
      (splits : Splits 256 coveredPrefix (regions.map Region.pfx))

/-- The keys of a worker are below the prefix they are put back under. -/
def Worker.Valid : Worker → Prop
  | .provideLoop => True
  | .batchProvide pfx keys => ∀ m ∈ keys, pfx <+: (mhToBit256 m).bits
  | .individualProvide pfx key => pfx <+: (mhToBit256 key).bits
  | .provideRegions regions => ∀ r ∈ regions, r.KeysMatch

def Worker.Holds (k : Bit256) : Worker → Prop
  | .provideLoop => False
  | .batchProvide _ keys => ∃ m ∈ keys, mhToBit256 m = k
  | .individualProvide _ key => mhToBit256 key = k
  | .provideRegions regions => ∃ r ∈ regions, k ∈ r.keys.keys

/-- The worker is going to take keys from the queue: the loop, and a worker that is going to explore
the swarm. -/
def Worker.Takes : Worker → Prop
  | .provideLoop => True
  | .batchProvide _ keys => individualProvideThreshold < keys.length
  | _ => False

/-- What a step leaves behind cannot have the key either, nor take it from where the step could
not. -/
def Worker.Without (k : Bit256) (w w' : Worker) : Prop :=
  w'.Valid ∧ ¬ w'.Holds k ∧ (w'.Takes → w.Takes)

variable [TrieLib]

/-- `provideQueue.Enqueue`, as `failedProvide` calls it. -/
def failedProvide (pfx : Bitstr) (keys : List Multihash) : StateT ProvideQueue Option Unit :=
  fun q => (q.enqueue pfx keys).map fun q' => ((), q')

/-- One step of a worker, and the goroutines that it leaves behind. -/
def Worker.step (order : Bit256) : Choice → Worker → StateT ProvideQueue Option (List Worker)
  | .ok, .provideLoop => fun q =>
    match q.dequeue with
    | (q, some (pfx, keys)) => some ([.batchProvide pfx keys, .provideLoop], q)
    | (q, none) => some ([.provideLoop], q)
  -- the queue is empty, or the node is offline
  | _, .provideLoop => pure []
  | .noAddress, .batchProvide _ _ => pure []
  | choice, .batchProvide pfx keys =>
    if keys.length ≤ individualProvideThreshold then pure (keys.map (.individualProvide pfx))
    else
      match choice with
      | .explored regions coveredPrefix _ => fun q =>
        (q.dequeueMatching coveredPrefix).map fun r =>
          ([.provideRegions (assignKeysToRegions regions (keys ++ r.2))], r.1)
      | .err => do
        failedProvide pfx keys
        pure []
      | _ => fun _ => none
  | .ok, .individualProvide _ _ => pure []
  | .err, .individualProvide pfx key => do
    failedProvide pfx [key]
    pure []
  | _, .individualProvide _ _ => fun _ => none
  | _, .provideRegions [] => pure []
  | choice, .provideRegions (r :: regions) =>
    if r.keys.isEmptyLeaf then pure [.provideRegions regions]
    else
      match choice with
      | .ok => pure [.provideRegions regions]
      | .err => do
        failedProvide r.pfx (valuesIter r.keys order)
        pure [.provideRegions regions]
      | _ => fun _ => none

/-! ## `StopProviding` -/

/-- What the workers and `StopProviding` share, and whether `keystore.Delete` failed. -/
structure Shared where
  provideQueue : ProvideQueue
  keystore : List Multihash
  deleteFailed : Bool

inductive Task where
  | worker (w : Worker)
  /-- `StopProviding` is about to delete the key, or to remove it from the queue. -/
  | delete
  | remove

def keystoreDelete (keystore : List Multihash) (h : Multihash) : List Multihash :=
  keystore.filter fun m => mhToBit256 m ≠ mhToBit256 h

/-- One step, while `StopProviding` is called with the key `h`. -/
def Task.step (order : Bit256) (visit : MapOrder Bitstr) (h : Multihash) (choice : Choice) :
    Task → StateT Shared Option (List Task)
  | .worker w => fun s =>
    (w.step order choice s.provideQueue).map fun r =>
      (r.1.map .worker, { s with provideQueue := r.2 })
  | .delete =>
    match choice with
    | .err => fun s => some ([.remove], { s with deleteFailed := true })
    | _ => fun s => some ([.remove], { s with keystore := keystoreDelete s.keystore h })
  | .remove => fun s =>
    (s.provideQueue.remove visit [h]).map fun q => ([], { s with provideQueue := q })

/-- `StopProviding` is final: once it has returned without error, and the loop and all workers have
returned, the key is neither in the keystore nor in the provide queue. -/
def Final (order : Bit256) (visit : MapOrder Bitstr) (h : Multihash) (q : ProvideQueue)
    (keystore : List Multihash) (workers : Multiset Worker) : Prop :=
  ∀ c, Crew.Reaches (Task.step order visit h)
      ⟨⟨q, keystore, false⟩, .delete ::ₘ workers.map .worker⟩ c →
    c.tasks = 0 → c.shared.deleteFailed = false →
      mhToBit256 h ∉ c.shared.keystore.map mhToBit256 ∧
      mhToBit256 h ∉ c.shared.provideQueue.keys.keys

/-! ## A worker without the key

A worker puts back only keys that it holds. If it does not hold a key, it cannot bring it to the
queue, and no worker that it starts holds it, unless it takes it from there. -/

variable {q q' : ProvideQueue} {k order : Bit256} {ws : List Worker}

/-- Keys below the prefix are put back without a panic. -/
theorem failedProvide_returns (h : q.Inv) {pfx : Bitstr} {keys : List Multihash} (hne : keys ≠ [])
    (hmatch : ∀ m ∈ keys, pfx <+: (mhToBit256 m).bits) :
    ∃ q', failedProvide pfx keys q = some ((), q') ∧ q'.Inv ∧
      ∀ k, k ∈ q'.keys.keys ↔ k ∈ q.keys.keys ∨ ∃ m ∈ keys, mhToBit256 m = k := by
  obtain ⟨q', heq, hinv, -, hkeys⟩ := ProvideQueue.enqueue_spec h hne hmatch
  refine ⟨q', by rw [failedProvide, heq]; rfl, hinv, fun k => ?_⟩
  rw [hkeys, TrieLib.mem_keys_addMany k h.wf (acceptsAll_bit256 _ _)]
  simp [keyEntry]

omit [TrieLib] in
theorem values_of_region {r : Region} (h : r.KeysMatch) (order : Bit256)
    (hne : r.keys.isEmptyLeaf = false) :
    valuesIter r.keys order ≠ [] ∧
      (∀ m ∈ valuesIter r.keys order, r.pfx <+: (mhToBit256 m).bits) ∧
      ∀ k, k ∈ r.keys.keys ↔ ∃ m ∈ valuesIter r.keys order, mhToBit256 m = k := by
  have hmem : ∀ m, m ∈ valuesIter r.keys order ↔ r.keys.HasValue m := fun m => by
    rw [(valuesIter_perm r.keys order).mem_iff, mem_map]
    rfl
  have hkeys : ∀ k, k ∈ r.keys.keys ↔ ∃ m ∈ valuesIter r.keys order, mhToBit256 m = k :=
    fun k => by simp only [hmem, h.mem_keys_iff]
  refine ⟨fun hnil => ?_, fun m hm => ?_, hkeys⟩
  · have hempty : r.keys.isEmptyLeaf = true := h.isEmptyLeaf_iff.mpr fun k hk => by
      simp [hkeys, hnil] at hk
    rw [hempty] at hne
    cases hne
  · obtain ⟨e, he, rfl⟩ := (hmem m).mp hm
    exact h.filed e he ▸ h.below e he

omit [TrieLib] in
theorem ne_nil_of_many {keys : List Multihash}
    (h : ¬ keys.length ≤ individualProvideThreshold) : keys ≠ [] := fun hnil =>
  h (hnil ▸ Nat.zero_le _)

omit [TrieLib] in
theorem individual_keeps {pfx : Bitstr} {keys : List Multihash}
    (hvalid : (Worker.batchProvide pfx keys).Valid)
    (hnot : ¬ (Worker.batchProvide pfx keys).Holds k) :
    ∀ w ∈ keys.map (Worker.individualProvide pfx), (Worker.batchProvide pfx keys).Without k w := by
  intro w hw
  obtain ⟨m, hm, rfl⟩ := mem_map.mp hw
  exact ⟨hvalid m hm, fun hk => hnot ⟨m, hm, hk⟩, False.elim⟩

theorem failedProvide_keeps (h : q.Inv) {pfx : Bitstr} {keys : List Multihash} (hne : keys ≠ [])
    (hmatch : ∀ m ∈ keys, pfx <+: (mhToBit256 m).bits) (hnot : ∀ m ∈ keys, mhToBit256 m ≠ k)
    (hput : failedProvide pfx keys q = some ((), q')) :
    q'.Inv ∧ (k ∉ q.keys.keys → k ∉ q'.keys.keys) := by
  obtain ⟨q1, heq, hinv, hkeys⟩ := failedProvide_returns h hne hmatch
  obtain ⟨-, rfl⟩ := Prod.mk.inj (Option.some.inj (heq.symm.trans hput))
  refine ⟨hinv, fun hk hk' => ?_⟩
  rcases (hkeys k).mp hk' with hold | ⟨m, hm, heq⟩
  · exact hk hold
  · exact hnot m hm heq

omit [TrieLib] in
theorem regions_keep {r : Region} {regions : List Region}
    (hvalid : (Worker.provideRegions (r :: regions)).Valid)
    (hnot : ¬ (Worker.provideRegions (r :: regions)).Holds k) :
    ∀ w ∈ [Worker.provideRegions regions], (Worker.provideRegions (r :: regions)).Without k w := by
  intro w hw
  obtain rfl := mem_singleton.mp hw
  refine ⟨fun r' hr' => hvalid r' (mem_cons_of_mem r hr'), fun hholds => hnot ?_, False.elim⟩
  obtain ⟨r', hr', hk⟩ := hholds
  exact ⟨r', mem_cons_of_mem r hr', hk⟩

/-- A worker that takes keys from the queue does not get one that is not there. -/
theorem explored_keeps {pfx : Bitstr} {keys : List Multihash} {regions : List Region} {c : Bitstr}
    {extra : List Multihash} (h : q.Inv) (hnot : ¬ (Worker.batchProvide pfx keys).Holds k)
    (hk : k ∉ q.keys.keys) (splits : Splits 256 c (regions.map Region.pfx))
    (hdeq : q.dequeueMatching c = some (q', extra)) :
    q'.Inv ∧ (k ∉ q.keys.keys → k ∉ q'.keys.keys) ∧
      ∀ w ∈ [Worker.provideRegions (assignKeysToRegions regions (keys ++ extra))],
        (Worker.batchProvide pfx keys).Without k w := by
  obtain ⟨q1, extra1, hdeq1, hinv, -, hextra, hentries⟩ := ProvideQueue.dequeueMatching_spec h c
  cases hdeq1.symm.trans hdeq
  refine ⟨hinv, fun _ hk' => ?_, fun w' hw' => ?_⟩
  · obtain ⟨d, hd⟩ := Trie.mem_keys.mp hk'
    exact hk (Trie.mem_keys.mpr ⟨d, ((hentries _).mp hd).1⟩)
  · obtain rfl := mem_singleton.mp hw'
    have hdisj := pairwise_map.mp splits.disjoint
    refine ⟨fun r hr => keysMatch_assignKeysToRegions hdisj _ hr, fun hholds => ?_, False.elim⟩
    obtain ⟨⟨m, hm, hid⟩, -⟩ := (exists_assigned_iff hdisj _ k).mp hholds
    rcases mem_append.mp hm with hm | hm
    · exact hnot ⟨m, hm, hid⟩
    · obtain ⟨e, he, rfl⟩ := mem_map.mp (hextra.mem_iff.mp hm)
      have hmem := (mem_filter.mp he).1
      exact hk (hid ▸ h.filed e hmem ▸ Trie.mem_keys.mpr ⟨e.2, hmem⟩)

/-- The batch that the loop takes: the keys are below its prefix, and no longer in the queue. -/
theorem dequeue_batch (order : Bit256) (h : q.Inv) {pfx : Bitstr} {rest : List Bitstr}
    (hqueue : q.queue.queue = pfx :: rest) :
    ∃ q' keys, Worker.provideLoop.step order .ok q =
        some ([.batchProvide pfx keys, .provideLoop], q') ∧ q'.Inv ∧ q'.queue.queue = rest ∧
      (Worker.batchProvide pfx keys).Valid ∧
      ∀ k, k ∈ q.keys.keys ↔ k ∈ q'.keys.keys ∨ (Worker.batchProvide pfx keys).Holds k := by
  obtain ⟨q', keys, hdeq, hinv, hrest, hperm, hentries⟩ := ProvideQueue.dequeue_spec h hqueue
  have hkeys : ∀ m, m ∈ keys ↔ ∃ e ∈ q.keys.entries, pfx <+: e.1.bits ∧ e.2 = m := fun m => by
    simp [hperm.mem_iff, and_assoc]
  refine ⟨q', keys, by simp only [Worker.step, hdeq], hinv, hrest, fun m hm => ?_, fun k => ?_⟩
  · obtain ⟨e, he, hbelow, rfl⟩ := (hkeys m).mp hm
    exact h.filed e he ▸ hbelow
  · simp only [Trie.mem_keys, Worker.Holds, hkeys, hentries]
    constructor
    · rintro ⟨m, hm⟩
      by_cases hbelow : pfx <+: k.bits
      · exact .inr ⟨m, ⟨(k, m), hm, hbelow, rfl⟩, (h.filed (k, m) hm).symm⟩
      · exact .inl ⟨m, hm, hbelow⟩
    · rintro (⟨m, hm, -⟩ | ⟨m, ⟨e, he, -, rfl⟩, rfl⟩)
      · exact ⟨m, hm⟩
      · exact ⟨e.2, h.filed e he ▸ he⟩

theorem loop_keeps (h : q.Inv) (hk : k ∉ q.keys.keys)
    (hstep : Worker.provideLoop.step order .ok q = some (ws, q')) :
    q'.Inv ∧ (k ∉ q.keys.keys → k ∉ q'.keys.keys) ∧
      ∀ w ∈ ws, Worker.provideLoop.Without k w := by
  have hloop : Worker.provideLoop.Without k .provideLoop := ⟨trivial, id, id⟩
  cases hqueue : q.queue.queue with
  | nil =>
    simp only [Worker.step, ProvideQueue.dequeue_nil hqueue] at hstep
    cases hstep
    exact ⟨h, id, fun w hw => mem_singleton.mp hw ▸ hloop⟩
  | cons pfx rest =>
    obtain ⟨q1, keys, hdeq, hinv, -, hvalid, hkeys⟩ := dequeue_batch order h hqueue
    cases hdeq.symm.trans hstep
    simp only [hkeys, not_or] at hk ⊢
    refine ⟨hinv, And.left, fun w hw => ?_⟩
    rcases mem_pair.mp hw with rfl | rfl
    · exact ⟨hvalid, hk.2, fun _ => trivial⟩
    · exact hloop

/-- **A worker without a key** does not bring it to the queue, and neither do the goroutines that
it leaves behind. -/
theorem Worker.step_keeps {w : Worker} {choice : Choice} (h : q.Inv)
    (hvalid : w.Valid) (hnot : ¬ w.Holds k) (hqueue : k ∉ q.keys.keys ∨ ¬ w.Takes)
    (hstep : w.step order choice q = some (ws, q')) :
    q'.Inv ∧ (k ∉ q.keys.keys → k ∉ q'.keys.keys) ∧ ∀ w' ∈ ws, w.Without k w' := by
  match w with
  | .provideLoop =>
    cases choice with
    | ok => exact loop_keeps h (hqueue.resolve_right fun hno => hno trivial) hstep
    | _ =>
      cases hstep
      exact ⟨h, id, by simp⟩
  | .batchProvide pfx keys =>
    by_cases hfew : keys.length ≤ individualProvideThreshold
    · cases choice with
      | noAddress =>
        cases hstep
        exact ⟨h, id, by simp⟩
      | _ =>
        simp only [Worker.step, if_pos hfew] at hstep
        cases hstep
        exact ⟨h, id, individual_keeps hvalid hnot⟩
    · cases choice with
      | noAddress =>
        cases hstep
        exact ⟨h, id, by simp⟩
      | ok =>
        simp only [Worker.step, if_neg hfew] at hstep
        cases hstep
      | err =>
        simp only [Worker.step, if_neg hfew] at hstep
        obtain ⟨⟨⟩, q1, hput, ⟨⟩⟩ := bind_eq_some.mp hstep
        obtain ⟨hinv, hkeep⟩ := failedProvide_keeps h (ne_nil_of_many hfew) hvalid
          (fun m hm heq => hnot ⟨m, hm, heq⟩) hput
        exact ⟨hinv, hkeep, by simp⟩
      | explored regions c splits =>
        simp only [Worker.step, if_neg hfew] at hstep
        obtain ⟨⟨q1, extra⟩, hdeq, ⟨⟩⟩ := Option.map_eq_some_iff.mp hstep
        have hk : k ∉ q.keys.keys := hqueue.resolve_right fun hno => hno (not_le.mp hfew)
        exact explored_keeps h hnot hk splits hdeq
  | .individualProvide pfx key =>
    cases choice with
    | ok =>
      cases hstep
      exact ⟨h, id, by simp⟩
    | err =>
      obtain ⟨⟨⟩, q1, hput, ⟨⟩⟩ := bind_eq_some.mp hstep
      obtain ⟨hinv, hkeep⟩ := failedProvide_keeps h (cons_ne_nil key [])
        (fun m hm => mem_singleton.mp hm ▸ hvalid) (fun m hm => mem_singleton.mp hm ▸ hnot) hput
      exact ⟨hinv, hkeep, by simp⟩
    | noAddress => cases hstep
    | explored regions c splits => cases hstep
  | .provideRegions [] =>
    simp only [Worker.step] at hstep
    cases hstep
    exact ⟨h, id, by simp⟩
  | .provideRegions (r :: regions) =>
    cases hempty : r.keys.isEmptyLeaf with
    | true =>
      simp only [Worker.step, hempty, if_true] at hstep
      cases hstep
      exact ⟨h, id, regions_keep hvalid hnot⟩
    | false =>
      simp only [Worker.step, hempty, Bool.false_eq_true, if_false] at hstep
      cases choice with
      | ok =>
        cases hstep
        exact ⟨h, id, regions_keep hvalid hnot⟩
      | err =>
        obtain ⟨⟨⟩, q1, hput, ⟨⟩⟩ := bind_eq_some.mp hstep
        obtain ⟨hne, hbelow, hkeys⟩ := values_of_region (hvalid r mem_cons_self) order hempty
        obtain ⟨hinv, hkeep⟩ := failedProvide_keeps h hne hbelow
          (fun m hm heq => hnot ⟨r, mem_cons_self, (hkeys k).mpr ⟨m, hm, heq⟩⟩) hput
        exact ⟨hinv, hkeep, regions_keep hvalid hnot⟩
      | _ => cases hstep

/-! ## When nobody has the key -/

/-- The key with identifier `k` cannot come back: no worker has it, and once `StopProviding` is done
it is in neither place. A worker that is going to take keys from the queue cannot find it there. -/
structure Gone (k : Bit256) (c : Crew Shared Task) : Prop where
  inv : c.shared.provideQueue.Inv
  workers : ∀ w, .worker w ∈ c.tasks → w.Valid ∧ ¬ w.Holds k
  queue : k ∉ c.shared.provideQueue.keys.keys ∨
    (.delete ∈ c.tasks ∨ .remove ∈ c.tasks) ∧ ∀ w, .worker w ∈ c.tasks → ¬ w.Takes
  keystore : .delete ∈ c.tasks ∨ c.shared.deleteFailed = true ∨
    k ∉ c.shared.keystore.map mhToBit256

section Gone

variable {visit : MapOrder Bitstr} {h : Multihash} {s s' : Shared} {ts : List Task}
  {rest : Multiset Task} {choice : Choice}

/-- A step of a worker, by what it may do to the queue. The tasks of `StopProviding` stay as they
are. -/
theorem gone_worker {w : Worker} (hgone : Gone (mhToBit256 h) ⟨s, .worker w ::ₘ rest⟩)
    (hstep : (Task.worker w).step order visit h choice s = some (ts, s')) :
    Gone (mhToBit256 h) ⟨s', ts + rest⟩ := by
  obtain ⟨r, hr, ⟨⟩⟩ := Option.map_eq_some_iff.mp hstep
  have hmem : Task.worker w ∈ Task.worker w ::ₘ rest := Multiset.mem_cons_self _ _
  obtain ⟨hvalid, hnot⟩ := hgone.workers w hmem
  obtain ⟨hinv, hkeep, hnew⟩ := Worker.step_keeps hgone.inv hvalid hnot
    (hgone.queue.imp_right fun hq => hq.2 w hmem) hr
  -- the other tasks are still there, the new ones are harmless
  have hworker : ∀ w', .worker w' ∈ (r.1.map Task.worker : Multiset Task) + rest →
      w' ∈ r.1 ∨ Task.worker w' ∈ Task.worker w ::ₘ rest := by
    intro w' hw'
    rcases Multiset.mem_add.mp hw' with hw' | hw'
    · obtain ⟨w1, hw1, heq⟩ := mem_map.mp hw'
      exact .inl (Task.worker.inj heq ▸ hw1)
    · exact .inr (Multiset.mem_cons_of_mem hw')
  have hother : ∀ t' : Task, (∀ w', t' ≠ .worker w') → t' ∈ Task.worker w ::ₘ rest →
      t' ∈ (r.1.map Task.worker : Multiset Task) + rest := by
    intro t' hne ht'
    exact Multiset.mem_add.mpr (.inr ((Multiset.mem_cons.mp ht').resolve_left (hne w)))
  refine ⟨hinv, fun w' hw' => ?_, hgone.queue.imp hkeep fun hq => ⟨?_, fun w' hw' => ?_⟩, ?_⟩
  · exact (hworker w' hw').elim (fun h' => ⟨(hnew w' h').1, (hnew w' h').2.1⟩) (hgone.workers w')
  · exact hq.1.imp (hother _ (by simp)) (hother _ (by simp))
  · exact (hworker w' hw').elim (fun h' => mt (hnew w' h').2.2 (hq.2 w hmem)) (hq.2 w')
  · exact hgone.keystore.imp_left (hother _ (by simp))

theorem gone_delete (hgone : Gone (mhToBit256 h) ⟨s, .delete ::ₘ rest⟩)
    (hstep : Task.delete.step order visit h choice s = some (ts, s')) :
    Gone (mhToBit256 h) ⟨s', ts + rest⟩ := by
  have hother : ∀ w, .worker w ∈ Task.remove ::ₘ rest → .worker w ∈ Task.delete ::ₘ rest := by
    intro w hw
    exact Multiset.mem_cons_of_mem ((Multiset.mem_cons.mp hw).resolve_left (by simp))
  have hgone' {s' : Shared} (hqueue : s'.provideQueue = s.provideQueue)
      (hkeystore : s'.deleteFailed = true ∨ mhToBit256 h ∉ s'.keystore.map mhToBit256) :
      Gone (mhToBit256 h) ⟨s', .remove ::ₘ rest⟩ := by
    refine ⟨hqueue ▸ hgone.inv, fun w hw => hgone.workers w (hother w hw), ?_, .inr hkeystore⟩
    rw [hqueue]
    exact hgone.queue.imp_right fun hq =>
      ⟨.inr (Multiset.mem_cons_self _ _), fun w hw => hq.2 w (hother w hw)⟩
  cases choice with
  | err =>
    cases hstep
    exact hgone' rfl (.inl rfl)
  | _ =>
    cases hstep
    exact hgone' rfl (.inr (by simp [keystoreDelete]))

theorem gone_remove (hgone : Gone (mhToBit256 h) ⟨s, .remove ::ₘ rest⟩)
    (hstep : Task.remove.step order visit h choice s = some (ts, s')) :
    Gone (mhToBit256 h) ⟨s', ts + rest⟩ := by
  obtain ⟨q, hq, ⟨⟩⟩ := Option.map_eq_some_iff.mp hstep
  obtain ⟨q', hq', hinv, -, hentries⟩ := ProvideQueue.remove_spec hgone.inv visit [h]
  cases hq'.symm.trans hq
  rw [show (([] : List Task) : Multiset Task) + rest = rest from Multiset.zero_add rest]
  refine ⟨hinv, fun w hw => hgone.workers w (Multiset.mem_cons_of_mem hw), .inl fun hk => ?_, ?_⟩
  · obtain ⟨d, hd⟩ := Trie.mem_keys.mp hk
    exact ((hentries _).mp hd).2 (by simp)
  · exact hgone.keystore.imp_left fun hd => (Multiset.mem_cons.mp hd).resolve_left (by simp)

end Gone

/-- **Finality.** No worker has the key, and none can take it from the queue. -/
theorem final_of_free {visit : MapOrder Bitstr} {h : Multihash} {keystore : List Multihash}
    {workers : Multiset Worker} (hq : q.Inv) (hvalid : ∀ w ∈ workers, w.Valid)
    (hfree : ∀ w ∈ workers, ¬ w.Holds (mhToBit256 h))
    (hqueue : mhToBit256 h ∉ q.keys.keys ∨ ∀ w ∈ workers, ¬ w.Takes) :
    Final order visit h q keystore workers := by
  intro c hreaches hdone hdeleted
  have hworker : ∀ w, .worker w ∈ Task.delete ::ₘ workers.map Task.worker → w ∈ workers := by
    intro w hw
    obtain ⟨w', hw', heq⟩ := Multiset.mem_map.mp ((Multiset.mem_cons.mp hw).resolve_left (by simp))
    exact Task.worker.inj heq ▸ hw'
  have hgone : Gone (mhToBit256 h) c := by
    refine hreaches.invariant (fun choice t ts s s' rest hgone hstep => ?_)
      ⟨hq, fun w hw => ⟨hvalid w (hworker w hw), hfree w (hworker w hw)⟩,
        hqueue.imp_right fun htakes => ⟨.inl (Multiset.mem_cons_self _ _),
          fun w hw => htakes w (hworker w hw)⟩,
        .inl (Multiset.mem_cons_self _ _)⟩
    cases t with
    | worker w => exact gone_worker hgone hstep
    | delete => exact gone_delete hgone hstep
    | remove => exact gone_remove hgone hstep
  refine ⟨?_, ?_⟩
  · have hkeystore := hgone.keystore
    simpa [hdone, hdeleted] using hkeystore
  · have hqueue := hgone.queue
    simpa [hdone] using hqueue

/-! ## When a worker has the key

The other workers return first, then `StopProviding`, and the worker that has the key in the end:
its send fails, and the key is queued again. -/

section PutBack

variable (order : Bit256) (visit : MapOrder Bitstr) (h : Multihash)

variable {w : Worker} {q : ProvideQueue} {k : Bit256}

/-- A step of a worker is one of its task. -/
theorem worker_reaches {choice : Choice} {s : Shared} {q' : ProvideQueue}
    (hstep : w.step order choice s.provideQueue = some (ws, q')) :
    Crew.Reaches (Task.step order visit h) ⟨s, {.worker w}⟩
      ⟨{ s with provideQueue := q' }, (ws.map .worker : List Task)⟩ := by
  refine Crew.Reaches.single choice ?_
  show (w.step order choice s.provideQueue).map _ = _
  rw [hstep]
  rfl

theorem step_regions_ok (r : Region) (regions : List Region) (q : ProvideQueue) :
    (Worker.provideRegions (r :: regions)).step order .ok q =
      some ([.provideRegions regions], q) := by
  simp only [Worker.step]
  split <;> rfl

theorem worker_returns (w : Worker) (s : Shared) :
    Crew.Reaches (Task.step order visit h) ⟨s, {.worker w}⟩ ⟨s, 0⟩ := by
  match w with
  | .provideLoop | .batchProvide pfx keys => exact Crew.Reaches.single .noAddress rfl
  | .individualProvide pfx key | .provideRegions [] => exact Crew.Reaches.single .ok rfl
  | .provideRegions (r :: regions) =>
    have hstep := step_regions_ok order r regions s.provideQueue
    exact (worker_reaches order visit h hstep).trans (worker_returns (.provideRegions regions) s)

/-- All workers return but one. -/
theorem others_return (w : Worker) (others : Multiset Worker) (s : Shared) :
    Crew.Reaches (Task.step order visit h) ⟨s, (w ::ₘ others).map .worker⟩ ⟨s, {.worker w}⟩ := by
  induction others using Multiset.induction with
  | empty => exact Crew.Reaches.refl
  | cons w' others ih =>
    have hfirst := (worker_returns order visit h w' s).frame ((w ::ₘ others).map .worker)
    simp only [Crew.join, Multiset.singleton_add, Multiset.zero_add] at hfirst
    rw [Multiset.cons_swap, Multiset.map_cons]
    exact hfirst.trans ih

/-- `StopProviding` can run from any state of the queue. -/
theorem stop_returns {s : Shared} (hinv : s.provideQueue.Inv) :
    ∃ q, Crew.Reaches (Task.step order visit h) ⟨s, {.delete}⟩
        ⟨⟨q, keystoreDelete s.keystore h, s.deleteFailed⟩, 0⟩ ∧ q.Inv := by
  obtain ⟨q, hremove, hinv', -⟩ := ProvideQueue.remove_spec hinv visit [h]
  have hdelete : Task.delete.step order visit h .ok s =
      some ([.remove], { s with keystore := keystoreDelete s.keystore h }) := rfl
  have hstep : Task.remove.step order visit h .ok
      { s with keystore := keystoreDelete s.keystore h } =
        some ([], ⟨q, keystoreDelete s.keystore h, s.deleteFailed⟩) := by
    show (s.provideQueue.remove visit [h]).map _ = _
    rw [hremove]
    rfl
  exact ⟨q, (Crew.Reaches.single .ok hdelete).trans (Crew.Reaches.single .ok hstep), hinv'⟩

/-- Sending the region with the key fails. -/
theorem regions_fail (regions : List Region) (s : Shared) (hinv : s.provideQueue.Inv)
    (hvalid : ∀ r ∈ regions, r.KeysMatch) (hholds : ∃ r ∈ regions, k ∈ r.keys.keys) :
    ∃ q, Crew.Reaches (Task.step order visit h) ⟨s, {.worker (.provideRegions regions)}⟩
        ⟨{ s with provideQueue := q }, 0⟩ ∧ k ∈ q.keys.keys := by
  induction regions with
  | nil => simp at hholds
  | cons r regions ih =>
    by_cases hk : k ∈ r.keys.keys
    · have hmatch := hvalid r mem_cons_self
      have hempty : r.keys.isEmptyLeaf = false := by
        rw [← Bool.not_eq_true]
        exact fun hempty => hmatch.isEmptyLeaf_iff.mp hempty k hk
      obtain ⟨hne, hbelow, hvalues⟩ := values_of_region hmatch order hempty
      obtain ⟨q, hput, -, hkeys⟩ := failedProvide_returns hinv hne hbelow
      have hstep : (Worker.provideRegions (r :: regions)).step order .err s.provideQueue =
          some ([.provideRegions regions], q) := by
        simp only [Worker.step, hempty, Bool.false_eq_true, if_false]
        exact bind_eq_some.mpr ⟨(), q, hput, rfl⟩
      exact ⟨q, (worker_reaches order visit h hstep).trans (worker_returns order visit h _ _),
        (hkeys k).mpr (.inr ((hvalues k).mp hk))⟩
    · rw [exists_mem_cons_iff] at hholds
      obtain ⟨q, hreaches, hmem⟩ :=
        ih (fun r' hr' => hvalid r' (mem_cons_of_mem r hr')) (hholds.resolve_left hk)
      have hstep := step_regions_ok order r regions s.provideQueue
      exact ⟨q, (worker_reaches order visit h hstep).trans hreaches, hmem⟩

/-- **A worker that has the key** can put it back to the queue. -/
theorem Worker.puts_back (hvalid : w.Valid) (hholds : w.Holds k) (s : Shared)
    (hinv : s.provideQueue.Inv) :
    ∃ q, Crew.Reaches (Task.step order visit h) ⟨s, {.worker w}⟩
        ⟨{ s with provideQueue := q }, 0⟩ ∧ k ∈ q.keys.keys := by
  have hindividual {pfx : Bitstr} {key : Multihash} (hbelow : pfx <+: (mhToBit256 key).bits)
      (hkey : mhToBit256 key = k) :
      ∃ q, Crew.Reaches (Task.step order visit h) ⟨s, {.worker (.individualProvide pfx key)}⟩
        ⟨{ s with provideQueue := q }, 0⟩ ∧ k ∈ q.keys.keys := by
    obtain ⟨q, hput, -, hkeys⟩ := failedProvide_returns hinv (cons_ne_nil key [])
      (fun m hm => mem_singleton.mp hm ▸ hbelow)
    have hstep : (Worker.individualProvide pfx key).step order .err s.provideQueue =
        some ([], q) := bind_eq_some.mpr ⟨(), q, hput, rfl⟩
    exact ⟨q, worker_reaches order visit h hstep,
      (hkeys k).mpr (.inr ⟨key, mem_singleton_self key, hkey⟩)⟩
  match w with
  | .provideLoop => exact hholds.elim
  | .batchProvide pfx keys =>
    obtain ⟨key, hkey, hid⟩ := hholds
    by_cases hfew : keys.length ≤ individualProvideThreshold
    · -- the goroutines of the other keys return
      have hstep : (Worker.batchProvide pfx keys).step order .err s.provideQueue =
          some (keys.map (.individualProvide pfx), s.provideQueue) := by
        simp only [Worker.step, if_pos hfew]
        rfl
      obtain ⟨others, hothers⟩ := Multiset.exists_cons_of_mem
        (Multiset.mem_coe.mpr (mem_map_of_mem (f := Worker.individualProvide pfx) hkey))
      have hreturn := others_return order visit h (.individualProvide pfx key) others s
      rw [← hothers] at hreturn
      obtain ⟨q, hback, hmem⟩ := hindividual (hvalid key hkey) hid
      exact ⟨q, ((worker_reaches order visit h hstep).trans hreturn).trans hback, hmem⟩
    · obtain ⟨q, hput, -, hkeys⟩ := failedProvide_returns hinv (ne_nil_of_many hfew) hvalid
      have hstep : (Worker.batchProvide pfx keys).step order .err s.provideQueue =
          some ([], q) := by
        simp only [Worker.step, if_neg hfew]
        exact bind_eq_some.mpr ⟨(), q, hput, rfl⟩
      exact ⟨q, worker_reaches order visit h hstep, (hkeys k).mpr (.inr ⟨key, hkey, hid⟩)⟩
  | .individualProvide pfx key => exact hindividual hvalid hholds
  | .provideRegions regions => exact regions_fail order visit h regions s hinv hvalid hholds

/-- The other workers return, `StopProviding` runs, and then the worker puts the key back. -/
theorem reaches_putBack {w : Worker} (hvalid : w.Valid) (hholds : w.Holds (mhToBit256 h))
    (others : Multiset Worker) {s : Shared} (hinv : s.provideQueue.Inv) :
    ∃ q, Crew.Reaches (Task.step order visit h) ⟨s, .delete ::ₘ (w ::ₘ others).map .worker⟩
        ⟨⟨q, keystoreDelete s.keystore h, s.deleteFailed⟩, 0⟩ ∧ mhToBit256 h ∈ q.keys.keys := by
  obtain ⟨q1, hstop, hinv1⟩ := stop_returns order visit h hinv
  obtain ⟨q2, hback, hmem⟩ := Worker.puts_back order visit h hvalid hholds
    ⟨q1, keystoreDelete s.keystore h, s.deleteFailed⟩ hinv1
  have hothers := (others_return order visit h w others s).frame {.delete}
  rw [Crew.join, Multiset.add_comm, Multiset.singleton_add] at hothers
  have hstop' := hstop.frame {.worker w}
  exact ⟨q2, (hothers.trans (by simpa [Crew.join, Multiset.add_comm] using hstop')).trans hback,
    hmem⟩

/-- The loop takes one batch after the other, until it has the one with the key. -/
theorem loop_takes {s : Shared} (hinv : s.provideQueue.Inv) (hk : k ∈ s.provideQueue.keys.keys) :
    ∃ w q, Crew.Reaches (Task.step order visit h) ⟨s, {.worker .provideLoop}⟩
        ⟨{ s with provideQueue := q }, {.worker w}⟩ ∧ q.Inv ∧ w.Valid ∧ w.Holds k := by
  induction hqueue : s.provideQueue.queue.queue generalizing s with
  | nil =>
    obtain ⟨p, hp, -⟩ := hinv.covered k hk
    rw [hqueue] at hp
    cases hp
  | cons pfx rest ih =>
    obtain ⟨q1, keys, hdeq, hinv1, hrest, hvalid, hkeys⟩ := dequeue_batch order hinv hqueue
    have hstart := worker_reaches order visit h hdeq
    rcases (hkeys k).mp hk with hk1 | hholds
    · -- the worker returns, the loop goes on
      obtain ⟨w, q2, hreaches, hw⟩ := ih (s := { s with provideQueue := q1 }) hinv1 hk1 hrest
      have hreturn := others_return order visit h .provideLoop {.batchProvide pfx keys}
        { s with provideQueue := q1 }
      rw [show Worker.provideLoop ::ₘ {.batchProvide pfx keys}
        = {.batchProvide pfx keys, .provideLoop} from Multiset.pair_comm _ _] at hreturn
      exact ⟨w, q2, hstart.trans (hreturn.trans hreaches), hw⟩
    · exact ⟨_, q1, hstart.trans (others_return order visit h (.batchProvide pfx keys)
        {.provideLoop} _), hinv1, hvalid, hholds⟩

/-- A worker that takes keys from the queue can get any key there. -/
theorem Worker.takes_any (htakes : w.Takes) {s : Shared} (hinv : s.provideQueue.Inv)
    (hk : k ∈ s.provideQueue.keys.keys) :
    ∃ w' q, Crew.Reaches (Task.step order visit h) ⟨s, {.worker w}⟩
        ⟨{ s with provideQueue := q }, {.worker w'}⟩ ∧ q.Inv ∧ w'.Valid ∧ w'.Holds k := by
  match w with
  | .provideLoop => exact loop_takes order visit h hinv hk
  | .batchProvide pfx keys =>
    have hmany : ¬ keys.length ≤ individualProvideThreshold := not_le.mpr htakes
    obtain ⟨q, extra, hdeq, hinv', -, hextra, -⟩ :=
      ProvideQueue.dequeueMatching_spec hinv ([] : Bitstr)
    -- the peers found share no bit, and make up one region
    let region : Region := ⟨[], .emptyLeaf, .emptyLeaf⟩
    have hsplits : Splits 256 [] ([region].map Region.pfx) := Splits.single 256 []
    have hdisj := pairwise_map.mp hsplits.disjoint
    have hstep : (Worker.batchProvide pfx keys).step order (.explored [region] [] hsplits)
        s.provideQueue =
          some ([.provideRegions (assignKeysToRegions [region] (keys ++ extra))], q) := by
      simp only [Worker.step, if_neg hmany, hdeq, Option.map_some]
    refine ⟨_, q, worker_reaches order visit h hstep, hinv',
      fun r hr => keysMatch_assignKeysToRegions hdisj (keys ++ extra) hr, ?_⟩
    obtain ⟨m, hm⟩ := Trie.mem_keys.mp hk
    refine (exists_assigned_iff hdisj (keys ++ extra) k).mpr ⟨⟨m, ?_, ?_⟩, region,
      mem_singleton_self region, nil_prefix⟩
    · refine mem_append_right _ (hextra.mem_iff.mpr (mem_map.mpr ⟨(k, m), ?_, rfl⟩))
      exact mem_filter.mpr ⟨hm, decide_eq_true nil_prefix⟩
    · exact (hinv.filed _ hm).symm

end PutBack

/-- **`StopProviding` is final** exactly when no running worker has the key, and none is going to
take keys from the queue while the key is in it. -/
theorem final_iff (order : Bit256) (visit : MapOrder Bitstr) (h : Multihash) {q : ProvideQueue}
    (hq : q.Inv) (keystore : List Multihash) {workers : Multiset Worker}
    (hvalid : ∀ w ∈ workers, w.Valid) :
    Final order visit h q keystore workers ↔
      (∀ w ∈ workers, ¬ w.Holds (mhToBit256 h)) ∧
        (mhToBit256 h ∉ q.keys.keys ∨ ∀ w ∈ workers, ¬ w.Takes) := by
  constructor
  · intro hfinal
    by_contra hcond
    -- somebody has the key, or can take it first
    obtain ⟨w, hw, hgets⟩ : ∃ w ∈ workers, w.Holds (mhToBit256 h) ∨
        w.Takes ∧ mhToBit256 h ∈ q.keys.keys := by
      by_contra hnone
      simp only [not_exists, not_and, not_or] at hnone
      refine hcond ⟨fun w hw => (hnone w hw).1, ?_⟩
      by_cases hk : mhToBit256 h ∈ q.keys.keys
      · exact .inr fun w hw htakes => (hnone w hw).2 htakes hk
      · exact .inl hk
    obtain ⟨others, rfl⟩ := Multiset.exists_cons_of_mem hw
    obtain ⟨w', q1, htake, hinv1, hvalid', hholds⟩ : ∃ w' q1,
        Crew.Reaches (Task.step order visit h) ⟨⟨q, keystore, false⟩, {.worker w}⟩
          ⟨⟨q1, keystore, false⟩, {.worker w'}⟩ ∧
        q1.Inv ∧ w'.Valid ∧ w'.Holds (mhToBit256 h) := by
      rcases hgets with hholds | ⟨htakes, hk⟩
      · exact ⟨w, q, Crew.Reaches.refl, hq, hvalid w hw, hholds⟩
      · exact Worker.takes_any order visit h htakes (s := ⟨q, keystore, false⟩) hq hk
    obtain ⟨q2, hreaches, hmem⟩ := reaches_putBack order visit h hvalid' hholds others
      (s := ⟨q1, keystore, false⟩) hinv1
    have hstart : ∀ w : Worker, ({.worker w} : Multiset Task) + .delete ::ₘ others.map .worker =
        .delete ::ₘ (w ::ₘ others).map .worker := by
      intro w
      rw [Multiset.singleton_add, Multiset.map_cons, Multiset.cons_swap]
    have hboth := (htake.frame (.delete ::ₘ others.map .worker)).trans
      (by simpa [Crew.join, hstart] using hreaches)
    rw [Crew.join, hstart] at hboth
    exact (hfinal _ hboth rfl rfl).2 hmem
  · intro hcond
    exact final_of_free hq hvalid hcond.1 hcond.2

end Stop

/-- A worker is sending the only key of its batch. `StopProviding` deletes the key and finds nothing
to remove from the queue; then sending fails, and the key is back in the queue. -/
theorem Stop.stopped_key_comes_back :
    ¬ @Stop.Final binaryTrie zeroKey ⟨id, List.Perm.refl⟩ [0, 1, 2] .new [[0, 1, 2]]
      {.batchProvide [] [[0, 1, 2]]} := by
  intro hfinal
  obtain ⟨q, hreaches, hmem⟩ := @Stop.reaches_putBack binaryTrie zeroKey ⟨id, List.Perm.refl⟩
    [0, 1, 2] (.batchProvide [] [[0, 1, 2]]) (fun _ _ => nil_prefix)
    ⟨[0, 1, 2], mem_singleton_self _, rfl⟩ 0 ⟨.new, [[0, 1, 2]], false⟩ ProvideQueue.inv_new
  exact (hfinal _ hreaches rfl rfl).2 hmem

/-- The key is in the keystore only. A worker is sending another one, and the loop is going to take
a third one from the queue. -/
theorem Stop.final_otherKeys : ∃ q : ProvideQueue,
    q.Inv ∧ mhToBit256 [0, 1, 4] ∈ q.keys.keys ∧
    @Stop.Final binaryTrie zeroKey ⟨id, List.Perm.refl⟩ [0, 1, 2] q
      [[0, 1, 2], [0, 1, 3], [0, 1, 4]] {.provideLoop, .batchProvide [] [[0, 1, 3]]} := by
  have h3 : mhToBit256 [0, 1, 3] ≠ mhToBit256 [0, 1, 2] := by decide +kernel
  have h4 : mhToBit256 [0, 1, 4] ≠ mhToBit256 [0, 1, 2] := by decide +kernel
  obtain ⟨q, -, hinv, hkeys⟩ := @Stop.failedProvide_returns binaryTrie .new ProvideQueue.inv_new []
    [[0, 1, 4]] (cons_ne_nil _ _) (fun _ _ => nil_prefix)
  refine ⟨q, hinv, (hkeys _).mpr (.inr ⟨_, mem_singleton_self _, rfl⟩), ?_⟩
  refine (@Stop.final_iff binaryTrie zeroKey ⟨id, List.Perm.refl⟩ [0, 1, 2] q hinv
    [[0, 1, 2], [0, 1, 3], [0, 1, 4]] {.provideLoop, .batchProvide [] [[0, 1, 3]]} ?_).mpr
    ⟨?_, .inl ?_⟩
  · simp [Stop.Worker.Valid]
  · simp [Stop.Worker.Holds, h3]
  · simp [hkeys, h4, ProvideQueue.new]

end KadDht.SweepingProvider
