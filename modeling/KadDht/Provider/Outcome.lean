import KadDht.Provider.Abstract

/-!
# Provider — what sending regions leaves behind

`View.provideRegions` handles the regions one after the other. Since no round reads what another
one has written, the outcome can be said at once for all of them.

* **`provideRegions_reprovide`**, **`provideRegions_provide`** — what is scheduled, released and
  queued.
-/

namespace KadDht

open List Trie

/-! ## The keys of a region -/

variable {r : Region}

theorem Region.KeysMatch.isEmptyLeaf_iff (h : r.KeysMatch) :
    r.keys.isEmptyLeaf = true ↔ ∀ k, k ∉ r.keys.keys := by
  rw [Trie.isEmptyLeaf_iff, ← h.wf.entries_eq_nil]
  simp [Trie.keys, eq_nil_iff_forall_not_mem]

theorem Region.KeysMatch.isEmptyLeaf_of_mem (h : r.KeysMatch) {k : Bit256} (hk : k ∈ r.keys.keys) :
    r.keys.isEmptyLeaf = false := by
  rw [Bool.eq_false_iff]
  exact fun hempty => h.isEmptyLeaf_iff.mp hempty k hk

theorem Region.KeysMatch.mem_keys_iff (h : r.KeysMatch) (k : Bit256) :
    k ∈ r.keys.keys ↔ ∃ m, r.keys.HasValue m ∧ mhToBit256 m = k := by
  constructor
  · intro hk
    obtain ⟨m, hm⟩ := mem_keys.mp hk
    exact ⟨m, ⟨(k, m), hm, rfl⟩, (h.filed _ hm).symm⟩
  · intro hm
    obtain ⟨m, ⟨e, he, rfl⟩, rfl⟩ := hm
    exact h.filed e he ▸ mem_keys_of_mem he

namespace SweepingProvider

/-! ## Keys that were sent -/

/-- The keys handed to a `sendProviderRecords` whose error, if any, is as wanted. -/
def Event.sentKeys (wanted : Option String → Bool) : Event → List Multihash
  | .sendProviderRecords keysAllocations err =>
    if wanted err then keysAllocations.flatMap fun job => job.2.flatten else []
  | _ => []

/-- A key with this identifier was handed to such a `sendProviderRecords`. -/
def SentWith (wanted : Option String → Bool) (events : List Event) (k : Bit256) : Prop :=
  ∃ e ∈ events, ∃ m ∈ e.sentKeys wanted, mhToBit256 m = k

/-- The key was handed to a `sendProviderRecords` that returned no error. -/
abbrev Sent (events : List Event) (k : Bit256) : Prop := SentWith Option.isNone events k

abbrev Handed (events : List Event) (k : Bit256) : Prop := SentWith (fun _ => true) events k

section Sent

variable {wanted : Option String → Bool} {events es es' : List Event} {k : Bit256}

instance : Decidable (SentWith wanted events k) :=
  inferInstanceAs (Decidable (∃ e ∈ events, ∃ m ∈ e.sentKeys wanted, mhToBit256 m = k))

theorem sentWith_iff :
    SentWith wanted events k ↔ ∃ keysAllocations err m,
      .sendProviderRecords keysAllocations err ∈ events ∧ wanted err = true ∧
        Allocated keysAllocations m ∧ mhToBit256 m = k := by
  have hsent : ∀ (allocs : Allocations Multihash PeerId) (err : Option String) (m : Multihash),
      m ∈ (Event.sendProviderRecords allocs err).sentKeys wanted ↔
        wanted err = true ∧ Allocated allocs m := by
    intro allocs err m
    cases hwanted : wanted err <;> simp [Event.sentKeys, Allocated, hwanted]
  constructor
  · intro h
    obtain ⟨e, he, m, hm, rfl⟩ := h
    cases e with
    | sendProviderRecords allocs err =>
      exact ⟨allocs, err, m, he, ((hsent _ _ _).mp hm).1, ((hsent _ _ _).mp hm).2, rfl⟩
    | _ => simp [Event.sentKeys] at hm
  · intro h
    obtain ⟨allocs, err, m, he, hwanted, hm, rfl⟩ := h
    exact ⟨_, he, m, (hsent _ _ _).mpr ⟨hwanted, hm⟩, rfl⟩

theorem sentWith_append :
    SentWith wanted (es ++ es') k ↔ SentWith wanted es k ∨ SentWith wanted es' k := by
  simp only [SentWith, mem_append, or_and_right, exists_or]

theorem sentWith_flatMap {α : Type} {l : List α} {f : α → List Event} :
    SentWith wanted (l.flatMap f) k ↔ ∃ a ∈ l, SentWith wanted (f a) k := by
  induction l with
  | nil => simp [SentWith]
  | cons a l ih => rw [flatMap_cons, sentWith_append, ih, exists_mem_cons_iff]

theorem not_sentWith (h : ∀ allocs err, .sendProviderRecords allocs err ∉ es) :
    ¬ SentWith wanted es k := by
  rw [sentWith_iff]
  exact fun ⟨allocs, err, _, hmem, _⟩ => h allocs err hmem

end Sent

/-! ## One region -/

def regionTrace (env : Env) (r : Region) : List Event :=
  if r.keys.isEmptyLeaf then []
  else regionEvents env r ++
    match regionErr env r with
    | none => []
    | some err => [.warn (regionError r.pfx err), .triggerCheck]

def Event.ofSending : Event → Bool
  | .warn _ | .triggerCheck | .addLocalRecord _ | .sendProviderRecords _ _ => true
  | _ => false

variable {env : Env} {r : Region}

theorem ofSending_regionTrace {e : Event} (he : e ∈ regionTrace env r) : e.ofSending = true := by
  unfold regionTrace regionEvents at he
  split at he
  · simp at he
  · simp only [mem_append, mem_map, mem_singleton] at he
    rcases he with (⟨m, -, rfl⟩ | rfl) | he
    · rfl
    · rfl
    · split at he
      · simp at he
      · simp only [mem_cons, not_mem_nil, or_false] at he
        rcases he with rfl | rfl <;> rfl

theorem sent_or_fails (h : r.KeysMatch) (env : Env) {k : Bit256} (hk : k ∈ r.keys.keys) :
    (regionErr env r).isNone = true ∨ regionFails env r = true := by
  cases herr : regionErr env r with
  | none => exact .inl rfl
  | some err => exact .inr (by simp [regionFails, h.isEmptyLeaf_of_mem hk, herr])

theorem allocated_regionAllocations (h : r.KeysMatch) (hpeers : r.HasPeers) (env : Env)
    (m : Multihash) : Allocated (regionAllocations env r) m ↔ r.keys.HasValue m := by
  have hchosen : ∀ x, chosen r.peers 0 env.replicationFactor x ≠ [] := fun x => by
    rw [← length_pos_iff, length_chosen, size_eq_length_entries]
    exact lt_min env.replicationFactor_pos (length_pos_iff.mpr hpeers.nonempty)
  rw [regionAllocations, (allocateToKClosest_gives h.wf hpeers.nodup _).allocated_iff]
  simp [hchosen, Trie.HasValue]

/-- **One region.** Exactly the keys of the region are handed over. -/
theorem sentWith_regionTrace {wanted : Option String → Bool} (h : r.KeysMatch)
    (hpeers : r.HasPeers) (k : Bit256) :
    SentWith wanted (regionTrace env r) k ↔
      wanted (regionErr env r) = true ∧ k ∈ r.keys.keys := by
  have halloc := allocated_regionAllocations h hpeers env
  unfold regionTrace
  split
  · next hempty =>
    have hnone := h.isEmptyLeaf_iff.mp hempty k
    exact ⟨fun hs => absurd hs (not_sentWith (by simp)), fun hk => absurd hk.2 hnone⟩
  · rw [h.mem_keys_iff, sentWith_iff]
    constructor
    · intro hs
      obtain ⟨allocs, err, m, hmem, hwanted, hm, rfl⟩ := hs
      have heq : allocs = regionAllocations env r ∧ err = regionErr env r := by
        cases herr : regionErr env r <;> simpa [regionEvents, herr] using hmem
      rw [heq.1] at hm
      exact ⟨heq.2 ▸ hwanted, m, (halloc m).mp hm, rfl⟩
    · intro hk
      obtain ⟨hwanted, m, hm, rfl⟩ := hk
      exact ⟨regionAllocations env r, regionErr env r, m, by simp [regionEvents], hwanted,
        (halloc m).mpr hm, rfl⟩

/-! ## All regions -/

def livePrefixes (regions : List Region) : List Bitstr :=
  (regions.filter fun r => !r.keys.isEmptyLeaf).map Region.pfx

/-- The regions that could not be sent, as prefixes. -/
def failedPrefixes (env : Env) (regions : List Region) : List Bitstr :=
  (regions.filter (regionFails env)).map Region.pfx

def regionsTrace (env : Env) (regions : List Region) : List Event :=
  regions.flatMap (regionTrace env)

theorem ofSending_regionsTrace {regions : List Region} {e : Event}
    (he : e ∈ regionsTrace env regions) : e.ofSending = true := by
  obtain ⟨r, -, hr⟩ := mem_flatMap.mp he
  exact ofSending_regionTrace hr

namespace View

variable [TrieLib]

theorem provideRegion_reprovide (env : Env) (r : Region) (v : View) :
    v.provideRegion env true r =
      { v with
        scheduled := absorbAll v.scheduled (livePrefixes [r])
        active := {x | x ∈ v.active ∧ ¬ r.pfx <+: x}
        reprovideQueue := (failedPrefixes env [r]).foldl pushPrefix v.reprovideQueue
        trace := v.trace ++ regionTrace env r } := by
  unfold provideRegion concludeRegion regionTrace livePrefixes failedPrefixes regionFails
  cases hempty : r.keys.isEmptyLeaf with
  | true => simp [release, hempty]
  | false =>
    cases herr : regionErr env r with
    | none => simp [release, schedule, emitAll, hempty, herr]
    | some err => simp [release, schedule, emitAll, failedReprovide, enqueueReprovide, hempty, herr]

/-- **A reprovide.** The regions with keys are scheduled, all of them are released, and those that
could not be sent are queued. -/
theorem provideRegions_reprovide (env : Env) (regions : List Region) (v : View) :
    v.provideRegions env regions true =
      { v with
        scheduled := absorbAll v.scheduled (livePrefixes regions)
        active := {x | x ∈ v.active ∧ ∀ r ∈ regions, ¬ r.pfx <+: x}
        reprovideQueue := (failedPrefixes env regions).foldl pushPrefix v.reprovideQueue
        trace := v.trace ++ regionsTrace env regions } := by
  unfold provideRegions
  induction regions generalizing v with
  | nil => simp [livePrefixes, failedPrefixes, regionsTrace]
  | cons r regions ih =>
    rw [foldl_cons, ih, provideRegion_reprovide]
    have hlive : livePrefixes (r :: regions) = livePrefixes [r] ++ livePrefixes regions := by
      rw [livePrefixes, ← singleton_append, filter_append, map_append]
      rfl
    have hfailed : failedPrefixes env (r :: regions)
        = failedPrefixes env [r] ++ failedPrefixes env regions := by
      rw [failedPrefixes, ← singleton_append, filter_append, map_append]
      rfl
    rw [hlive, hfailed]
    simp [absorbAll, regionsTrace, and_assoc]

theorem enqueue_region (env : Env) {r : Region} (hr : r.KeysMatch)
    (hfails : regionFails env r = true) {q : ProvideQueue} (hq : q.Inv) :
    ∃ q', q.enqueue r.pfx (valuesIter r.keys env.order) = some q' ∧ q'.Inv ∧
      ∀ k, k ∈ q'.keys.keys ↔ k ∈ q.keys.keys ∨ k ∈ r.keys.keys := by
  have hvalue : ∀ m, m ∈ valuesIter r.keys env.order ↔ r.keys.HasValue m := fun m =>
    (valuesIter_perm r.keys env.order).mem_iff.trans mem_map
  have hne : valuesIter r.keys env.order ≠ [] := by
    intro hnil
    have hempty : r.keys.isEmptyLeaf = true := hr.isEmptyLeaf_iff.mpr fun k hk => by
      obtain ⟨m, hm, -⟩ := (hr.mem_keys_iff k).mp hk
      exact not_mem_nil (hnil ▸ (hvalue m).mpr hm)
    simp [regionFails, hempty] at hfails
  have hbelow : ∀ m ∈ valuesIter r.keys env.order, r.pfx <+: (mhToBit256 m).bits := by
    intro m hm
    obtain ⟨e, he, rfl⟩ := (hvalue m).mp hm
    exact hr.filed e he ▸ hr.below e he
  obtain ⟨q', heq, hinv, -, hkeys⟩ := ProvideQueue.enqueue_spec hq hne hbelow
  refine ⟨q', heq, hinv, fun k => ?_⟩
  rw [hkeys, TrieLib.mem_keys_addMany k hq.wf (acceptsAll_bit256 _ _), hr.mem_keys_iff]
  simp [keyEntry, hvalue]

/-- The provide queue once the keys of the failed regions are back in it. -/
def enqueueFailed (env : Env) (regions : List Region) (q : ProvideQueue) : ProvideQueue :=
  (regions.filter (regionFails env)).foldl
    (fun q r => (q.enqueue r.pfx (valuesIter r.keys env.order)).getD q) q

theorem enqueueFailed_spec (env : Env) {regions : List Region} (hr : ∀ r ∈ regions, r.KeysMatch)
    {q : ProvideQueue} (hq : q.Inv) :
    (enqueueFailed env regions q).Inv ∧
      ∀ k, k ∈ (enqueueFailed env regions q).keys.keys ↔
        k ∈ q.keys.keys ∨ ∃ r ∈ regions, regionFails env r = true ∧ k ∈ r.keys.keys := by
  unfold enqueueFailed
  induction regions generalizing q with
  | nil => exact ⟨hq, by simp⟩
  | cons r regions ih =>
    have hrest := fun q' hq' => ih (fun r' hr' => hr r' (mem_cons_of_mem r hr')) (q := q') hq'
    cases hfails : regionFails env r with
    | false =>
      rw [filter_cons_of_neg (by simp [hfails])]
      refine ⟨(hrest q hq).1, fun k => ?_⟩
      rw [(hrest q hq).2]
      simp [hfails]
    | true =>
      rw [filter_cons_of_pos hfails, foldl_cons]
      have hmatch := hr r mem_cons_self
      obtain ⟨q', heq, hinv, hkeys⟩ := enqueue_region env hmatch hfails hq
      rw [heq, Option.getD_some]
      refine ⟨(hrest q' hinv).1, fun k => ?_⟩
      rw [(hrest q' hinv).2, hkeys]
      simp [hfails, or_assoc]

/-- **A provide.** The keys of the regions that could not be sent are queued again. -/
theorem provideRegions_provide (env : Env) (regions : List Region) (v : View) :
    v.provideRegions env regions false =
      { v with
        provideQueue := enqueueFailed env regions v.provideQueue
        trace := v.trace ++ regionsTrace env regions } := by
  unfold provideRegions enqueueFailed
  induction regions generalizing v with
  | nil => simp [regionsTrace]
  | cons r regions ih =>
    rw [foldl_cons, ih, filter_cons]
    unfold provideRegion concludeRegion
    cases hempty : r.keys.isEmptyLeaf with
    | true => simp [regionsTrace, regionTrace, regionFails, hempty]
    | false =>
      cases herr : regionErr env r with
      | none => simp [regionsTrace, regionTrace, regionFails, hempty, herr, emitAll]
      | some err =>
        simp [regionsTrace, regionTrace, regionFails, hempty, herr, emitAll, failedProvide,
          enqueueProvide]

end View

/-! ## Dequeued keys -/

section Dequeue

variable [TrieLib]

theorem View.dequeueMatching_spec {v : View} (hq : v.provideQueue.Inv) (p : Bitstr) :
    ∃ q ks, v.dequeueMatching p = (ks,
        { v with provideQueue := q, trace := v.trace ++ [.dequeueMatching ks] }) ∧ q.Inv ∧
      (∀ k, k ∈ q.keys.keys ↔ k ∈ v.provideQueue.keys.keys ∧ ¬ p <+: k.bits) ∧
      ∀ k, (∃ m ∈ ks, mhToBit256 m = k) ↔ k ∈ v.provideQueue.keys.keys ∧ p <+: k.bits := by
  obtain ⟨q, ks, heq, hinv, -, hks, hentries⟩ := ProvideQueue.dequeueMatching_spec hq p
  refine ⟨q, ks, ?_, hinv, fun k => ?_, fun k => ?_⟩
  · rw [View.dequeueMatching, heq]
  · simp only [Trie.mem_keys, hentries, exists_and_right]
  · -- a queued key is filed under its own identifier
    have hmem : ∀ m, m ∈ ks ↔ ∃ e ∈ v.provideQueue.keys.entries, p <+: e.1.bits ∧ e.2 = m := by
      intro m
      rw [hks.mem_iff, mem_map]
      simp only [mem_filter, decide_eq_true_eq, and_assoc]
    constructor
    · intro hk
      obtain ⟨m, hm, rfl⟩ := hk
      obtain ⟨e, he, hpre, rfl⟩ := (hmem m).mp hm
      rw [← hq.filed e he]
      exact ⟨mem_keys_of_mem he, hpre⟩
    · intro hk
      obtain ⟨m, hm⟩ := mem_keys.mp hk.1
      exact ⟨m, (hmem m).mpr ⟨(k, m), hm, hk.2, rfl⟩, (hq.filed _ hm).symm⟩

end Dequeue

/-! ## Assigned regions -/

section Assigned

variable [TrieLib] {env : Env} {regions : List Region} {keys : List Multihash}

theorem peers_assignKeysToRegions (hpeers : ∀ r ∈ regions, r.HasPeers)
    (hdisj : Separate regions) {r : Region} (hr : r ∈ assignKeysToRegions regions keys) :
    r.HasPeers := by
  obtain ⟨⟨r0, hr0, -, heq⟩, -⟩ := assignKeysToRegions_spec hdisj keys hr
  obtain ⟨hne, hnodup⟩ := hpeers r0 hr0
  exact ⟨heq ▸ hne, heq ▸ hnodup⟩

/-- **All regions.** Exactly the assigned keys are handed over, each with the outcome of its
region. -/
theorem sentWith_regionsTrace (hpeers : ∀ r ∈ regions, r.HasPeers)
    (hdisj : Separate regions) (wanted : Option String → Bool) (k : Bit256) :
    SentWith wanted (regionsTrace env (assignKeysToRegions regions keys)) k ↔
      ∃ r ∈ assignKeysToRegions regions keys,
        wanted (regionErr env r) = true ∧ k ∈ r.keys.keys := by
  rw [regionsTrace, sentWith_flatMap]
  refine exists_congr fun r => and_congr_right fun hr => ?_
  exact sentWith_regionTrace (keysMatch_assignKeysToRegions hdisj keys hr)
    (peers_assignKeysToRegions hpeers hdisj hr) k

/-- A region with keys is one of the regions, and there is a key below it. -/
theorem exists_mem_of_mem_livePrefixes {p : Bitstr} (hdisj : Separate regions)
    (hp : p ∈ livePrefixes (assignKeysToRegions regions keys)) :
    (∃ r ∈ regions, p = r.pfx) ∧ ∃ m ∈ keys, p <+: (mhToBit256 m).bits := by
  obtain ⟨r, hr, rfl⟩ := mem_map.mp hp
  obtain ⟨hr, hlive⟩ := mem_filter.mp hr
  obtain ⟨⟨r0, hr0, hpfx, -⟩, hkeys⟩ := assignKeysToRegions_spec hdisj keys hr
  refine ⟨⟨r0, hr0, hpfx⟩, ?_⟩
  by_contra hnone
  have hempty := (keysMatch_assignKeysToRegions hdisj keys hr).isEmptyLeaf_iff.mpr fun k hk => by
    obtain ⟨m, hm, hpre, -⟩ := (hkeys k).mp hk
    exact hnone ⟨m, hm, hpre⟩
  simp [hempty] at hlive

theorem covered_livePrefixes (hdisj : Separate regions) {m : Multihash} (hm : m ∈ keys) :
    (∃ p ∈ livePrefixes (assignKeysToRegions regions keys), p <+: (mhToBit256 m).bits) ↔
      ∃ r ∈ regions, r.pfx <+: (mhToBit256 m).bits := by
  constructor
  · rintro ⟨p, hp, hpre⟩
    obtain ⟨⟨r, hr, rfl⟩, -⟩ := exists_mem_of_mem_livePrefixes hdisj hp
    exact ⟨r, hr, hpre⟩
  · intro h
    obtain ⟨r, hr, hk⟩ := (exists_assigned_iff hdisj keys _).mpr ⟨⟨m, hm, rfl⟩, h⟩
    have hmatch := keysMatch_assignKeysToRegions hdisj keys hr
    have hlive := hmatch.isEmptyLeaf_of_mem hk
    obtain ⟨d, hd⟩ := mem_keys.mp hk
    exact ⟨r.pfx, mem_map_of_mem (mem_filter.mpr ⟨hr, by simp [hlive]⟩), hmatch.below _ hd⟩

end Assigned

end SweepingProvider

end KadDht
