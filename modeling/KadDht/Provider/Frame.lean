import KadDht.Provider.Swallowed

/-!
# Provider — what `batchReprovide` takes, and what it gives back

A reprovide claims its regions and takes the keys below its prefix out of the provide queue.

* **`batchReprovide_releases_iff`** — when the claims are released.
* **`batchReprovide_keeps_queued_iff`** — when the keys taken out of the provide queue are sent.
* **`batchReprovide_empties_iff`** — when a prefix without stored keys leaves the schedule.
-/

namespace KadDht.SweepingProvider

open Abstraction List

/-! ## Paths without regions -/

section Frame

variable [TrieLib] {env : Env} {p : Bitstr} {v : View}

theorem View.individualProvide_frame {keys : List Multihash} (hne : keys ≠ []) :
    (v.individualProvide env p keys true).active = v.active ∧
      ∃ es, (v.individualProvide env p keys true).trace = v.trace ++ es ∧
        ∀ ks, .dequeueMatching ks ∉ es := by
  refine ⟨?_, individualTrace env p keys, View.individualProvide_trace env p hne v, ?_⟩
  · rw [View.individualProvide_reprovide env p hne]
    cases (individualResult env p keys).2 <;> rfl
  · intro ks hmem
    rcases mem_append.mp hmem with hmem | hmem
    · exact Bool.false_ne_true (ofSending_flatMap_vanillaEvents hmem)
    · split at hmem <;> simp at hmem

theorem View.follow_frame (h : ¬ ∃ keys regions c, Explores env p keys regions c) :
    (v.follow env p (reprovidePath env p)).active = v.active ∧
      ∃ es, (v.follow env p (reprovidePath env p)).trace = v.trace ++ es ∧
        ∀ ks, .dequeueMatching ks ∉ es := by
  rcases reprovidePath_cases env p with hex | ⟨events, hevents, hpath⟩ | ⟨err, hpath⟩ |
    ⟨keys, hne, -, -, hpath⟩
  · exact absurd hex h
  · rw [hpath]
    exact ⟨rfl, events, rfl, fun ks hmem => Bool.false_ne_true (hevents _ hmem)⟩
  · rw [hpath]
    exact ⟨rfl, [.warn err, .triggerCheck], View.failedReprovide_trace p err v, by simp⟩
  · rw [hpath]
    exact View.individualProvide_frame hne

/-! ## The claims -/

omit [TrieLib] in
theorem State.Inv.alone_iff {s : State} (hs : s.Inv) :
    s.activeReprovides = .emptyLeaf ↔ s.view.active = ∅ := by
  rw [← hs.activeReprovides.entries_eq_nil]
  show _ ↔ {x | x ∈ s.activeReprovides.keys} = ∅
  rw [Trie.keys, Set.eq_empty_iff_forall_notMem, eq_nil_iff_forall_not_mem]
  constructor
  · intro h x hx
    obtain ⟨e, he, -⟩ := mem_map.mp hx
    exact h e he
  · intro h e he
    exact h e.1 (mem_map_of_mem he)

theorem View.active_sweep {keys : List Multihash} {regions : List Region}
    (halone : v.active = ∅) (hq : v.provideQueue.Inv) (p' : Bitstr) :
    ((v.claim regions).reprovideClaimed env p' keys (v.claimed regions)).active = ∅ := by
  obtain ⟨q, dequeued, hdequeue, -⟩ := View.dequeueMatching_spec (v := v.claim regions) hq p'
  rw [View.sweep_eq env p' keys _ hdequeue, View.claimed_of_alone halone]
  refine Set.eq_empty_iff_forall_notMem.mpr fun x hx => ?_
  -- what is claimed is the prefix of a region, and every region is released
  have hmem : x ∈ regions.map Region.pfx := by
    rcases mem_or_mem_of_mem_absorbAll hx.1 with hold | hnew
    · rw [halone] at hold
      exact absurd hold (Set.notMem_empty x)
    · exact hnew
  rw [← map_pfx_assignKeysToRegions regions keys] at hmem
  obtain ⟨r, hr, rfl⟩ := mem_map.mp hmem
  exact hx.2 r hr prefix_rfl

theorem exploreSwarm_ne_nil {c : Bitstr} {regions : List Region}
    (h : exploreSwarm env p = .ok (regions, c)) : regions ≠ [] := by
  obtain ⟨peers, hne, heq⟩ := exploreSwarm_ok h
  obtain ⟨peer, hpeer⟩ := exists_mem_of_ne_nil _ hne
  have hc : c <+: (peerIDToBit256 peer).bits := by
    have hshared := (regionsFromPeers_commonPrefix hne env.replicationFactor env.order c).mp
    rw [← heq] at hshared
    exact hshared prefix_rfl peer hpeer
  obtain ⟨r, hr, -⟩ := (exploreSwarm_region_iff h _).mpr hc
  exact ne_nil_of_mem hr

/-- **Claims are released**, unless the second loading of keys fails. -/
theorem batchReprovide_releases_iff {s : State} (hs : s.Inv)
    (halone : s.activeReprovides = .emptyLeaf) :
    ∃ s', batchReprovide env p s = some ((), s') ∧
      (s'.activeReprovides = .emptyLeaf ↔
        ¬ ∃ keys regions c err, Explores env p keys regions c ∧ c.length < p.length ∧
          env.keystoreGet c = .error err) := by
  obtain ⟨s', heq, hinv, hview⟩ := batchReprovide_follow env p hs
  refine ⟨s', heq, ?_⟩
  have hnone : s.view.active = ∅ := State.view_active_of_alone halone
  rw [hinv.alone_iff, hview]
  by_cases hex : ∃ keys regions c, Explores env p keys regions c
  · obtain ⟨keys, regions, c, hexplores⟩ := hex
    rw [hexplores.path]
    rcases exploredPath_cases env p c keys regions with ⟨err, hlt, hget, hpath⟩ |
      ⟨p', loaded, hloads, hpath⟩
    · -- the claims are still there
      refine iff_of_false ?_ (not_not_intro ⟨keys, regions, c, err, hexplores, hlt, hget⟩)
      obtain ⟨r, hr⟩ := exists_mem_of_ne_nil _ (exploreSwarm_ne_nil hexplores.explored)
      obtain ⟨x, hx, -⟩ : Covers (absorbAll s.view.active (regions.map Region.pfx)) r.pfx :=
        covers_absorbAll.mpr (.inr ⟨r.pfx, mem_map_of_mem hr, prefix_rfl⟩)
      rw [hpath]
      exact fun hempty => Set.notMem_empty x (hempty ▸ hx)
    · rw [hpath]
      refine iff_of_true (View.active_sweep hnone hs.provideQueue p') ?_
      rintro ⟨keys', regions', c', err, hexplores', hlt, herr⟩
      obtain ⟨rfl, rfl, rfl⟩ := hexplores.unique hexplores'
      exact hloads.not_error hlt herr
  · rw [(View.follow_frame hex).1]
    refine iff_of_true hnone ?_
    rintro ⟨keys, regions, c, err, hexplores, -⟩
    exact hex ⟨keys, regions, c, hexplores⟩

end Frame

def lowKeys : List Multihash := [[0, 1, 21], [0, 1, 34], [0, 1, 39]]

theorem batchReprovide_releases_lowKeys :
    (sampleState [[false, false, false]]).Inv ∧
    (sampleState [[false, false, false]]).activeReprovides = .emptyLeaf ∧
    ∃ s', @batchReprovide binaryTrie (sampleEnv lowKeys) [false, false, false]
        (sampleState [[false, false, false]]) = some ((), s') ∧
      s'.activeReprovides = .emptyLeaf := by
  refine ⟨sampleState_inv (by decide), rfl, ?_⟩
  obtain ⟨s', heq, hiff⟩ := @batchReprovide_releases_iff binaryTrie (sampleEnv lowKeys)
    [false, false, false] (sampleState [[false, false, false]]) (sampleState_inv (by decide)) rfl
  refine ⟨s', heq, hiff.mpr ?_⟩
  rintro ⟨keys, regions, c, err, -, -, hget⟩
  cases hget

/-- The sample environment, with a keystore that fails to load the keys of short prefixes. -/
def brokenEnv : Env :=
  { sampleEnv lowKeys with
    keystoreGet := fun q =>
      if q.length < 3 then .error "keystore is closed" else (sampleEnv lowKeys).keystoreGet q }

/-- The keys below `000` are loaded, but the peers found cover `00`, whose keys are not: the region
`00` stays claimed. -/
theorem batchReprovide_leaves_claim :
    (sampleState [[false, false, false]]).Inv ∧
    (sampleState [[false, false, false]]).activeReprovides = .emptyLeaf ∧
    ∃ s', @batchReprovide binaryTrie brokenEnv [false, false, false]
        (sampleState [[false, false, false]]) = some ((), s') ∧
      s'.activeReprovides.keys = [[false, false]] := by
  refine ⟨sampleState_inv (by decide), rfl, ?_⟩
  have hrun : (@batchReprovide binaryTrie brokenEnv [false, false, false]
      (sampleState [[false, false, false]])).any (fun r =>
        r.2.activeReprovides.keys == [[false, false]]) = true := by
    decide +kernel
  obtain ⟨⟨⟨⟩, s'⟩, heq, hend⟩ := (Option.any_eq_true _ _).mp hrun
  exact ⟨s', heq, beq_iff_eq.mp hend⟩

/-! ## The provide queue -/

section Queue

variable [TrieLib] {env : Env} {p : Bitstr} {v : View}

/-- A sweep keeps the keys it dequeues exactly when they are loaded and in a claimed region. -/
theorem View.sweep_keeps_iff (env : Env) (p' : Bitstr) (loaded : List Multihash)
    {claimed : List Region} (hdisj : Separate claimed) (hq : v.provideQueue.Inv) :
    ∃ q es, (v.reprovideClaimed env p' loaded claimed).provideQueue = q ∧
      (v.reprovideClaimed env p' loaded claimed).trace = v.trace ++ es ∧
      ((∀ ks, .dequeueMatching ks ∈ es → ∀ m ∈ ks,
          (∃ regions, .assignKeysToRegions regions ∈ es ∧
            ∃ r ∈ regions, mhToBit256 m ∈ r.keys.keys) ∨ mhToBit256 m ∈ q.keys.keys) ↔
        ∀ k ∈ v.provideQueue.keys.keys, p' <+: k.bits →
          (∃ m ∈ loaded, mhToBit256 m = k) ∧ ∃ r ∈ claimed, r.pfx <+: k.bits) := by
  obtain ⟨q, dequeued, hdequeue, -, hqkeys, hdequeued⟩ := View.dequeueMatching_spec hq p'
  set assigned := assignKeysToRegions claimed loaded with hassigned
  refine ⟨q, sweepTrace env p' dequeued assigned, ?_, ?_, ?_⟩
  · rw [View.sweep_eq env p' loaded claimed hdequeue]
  · rw [View.sweep_eq env p' loaded claimed hdequeue]
  have hks : ∀ ks, .dequeueMatching ks ∈ sweepTrace env p' dequeued assigned ↔ ks = dequeued := by
    intro ks
    refine ⟨fun hmem => ?_, fun heq => by simp [sweepTrace, heq]⟩
    simpa [Event.ofSending] using mem_sweepTrace hmem
  have hrs : ∀ rs, .assignKeysToRegions rs ∈ sweepTrace env p' dequeued assigned ↔
      rs = assigned := by
    intro rs
    refine ⟨fun hmem => ?_, fun heq => by simp [sweepTrace, heq]⟩
    simpa [Event.ofSending] using mem_sweepTrace hmem
  simp only [hks, hrs, forall_eq, exists_eq_left]
  constructor
  · intro hall k hk hp'
    obtain ⟨m, hm, rfl⟩ := (hdequeued k).mpr ⟨hk, hp'⟩
    have hkept := (hall m hm).resolve_right fun hin => ((hqkeys _).mp hin).2 hp'
    rwa [hassigned, exists_assigned_iff hdisj] at hkept
  · intro hall m hm
    obtain ⟨hk, hp'⟩ := (hdequeued _).mp ⟨m, hm, rfl⟩
    rw [hassigned, exists_assigned_iff hdisj]
    exact .inl (hall _ hk hp')

/-- **Dequeued keys are reprovided**, as long as they are stored and no other call has claimed
their region. -/
theorem batchReprovide_keeps_queued_iff {s : State} (hs : s.Inv) :
    ∃ s', batchReprovide env p s = some ((), s') ∧
      ((∀ ks, .dequeueMatching ks ∈ newEvents s s' → ∀ m ∈ ks,
          (∃ regions, .assignKeysToRegions regions ∈ newEvents s s' ∧
            ∃ r ∈ regions, mhToBit256 m ∈ r.keys.keys) ∨
          mhToBit256 m ∈ s'.provideQueue.keys.keys) ↔
        ∀ keys regions c p' loaded, Explores env p keys regions c → Loads env p c keys p' loaded →
          ∀ k ∈ s.provideQueue.keys.keys, p' <+: k.bits →
            (∃ m ∈ loaded, mhToBit256 m = k) ∧
              ∃ r ∈ regions, r.pfx <+: k.bits ∧ ∀ x ∈ s.activeReprovides.keys, ¬ x <+: r.pfx) := by
  obtain ⟨s', heq, -, hview⟩ := batchReprovide_follow env p hs
  refine ⟨s', heq, ?_⟩
  by_cases hex : ∃ keys regions c, Explores env p keys regions c
  · obtain ⟨keys, regions, c, hexplores⟩ := hex
    rw [hexplores.path] at hview
    rcases exploredPath_cases env p c keys regions with ⟨err, hlt, hget, hpath⟩ |
      ⟨p', loaded, hloads, hpath⟩
    · -- the call returns before it dequeues keys
      rw [hpath] at hview
      have hnew : newEvents s s' = [.warn (loadError err), .triggerCheck] := newEvents_eq <|
        (congrArg View.trace hview).trans (View.failedReprovide_trace p _ (s.view.claim regions))
      rw [hnew]
      refine iff_of_true (by simp) ?_
      intro keys' regions' c' p' loaded hexplores' hloads
      obtain ⟨rfl, rfl, rfl⟩ := hexplores.unique hexplores'
      exact absurd hget (hloads.not_error hlt)
    · rw [hpath, View.follow] at hview
      have hdisj := View.claimed_disjoint (exploreSwarm_disjoint hexplores.explored) s.view
      obtain ⟨q, es, hqueue, htrace, hiff⟩ := View.sweep_keeps_iff env p' loaded
        (v := s.view.claim regions) hdisj hs.provideQueue
      rw [← hview] at hqueue htrace
      have hqueue : s'.provideQueue = q := hqueue
      rw [newEvents_eq htrace, hqueue, hiff]
      simp only [View.mem_claimed, and_assoc]
      constructor
      · intro hall keys' regions' c' p'' loaded' hexplores' hloads' k hk hpre
        obtain ⟨rfl, rfl, rfl⟩ := hexplores.unique hexplores'
        obtain ⟨rfl, rfl⟩ := hloads.unique hloads'
        obtain ⟨hstored, r, hr, hfree, hrk⟩ := hall k hk hpre
        exact ⟨hstored, r, hr, hrk, not_covers.mp hfree⟩
      · intro hall k hk hpre
        obtain ⟨hstored, r, hr, hrk, hfree⟩ :=
          hall keys regions c p' loaded hexplores hloads k hk hpre
        exact ⟨hstored, r, hr, not_covers.mpr hfree, hrk⟩
  · obtain ⟨es, htrace, hes⟩ := (View.follow_frame (v := s.view) hex).2
    rw [← hview] at htrace
    rw [newEvents_eq htrace]
    refine iff_of_true (fun ks hks => absurd hks (hes ks)) ?_
    intro keys regions c p' loaded hexplores
    exact absurd ⟨keys, regions, c, hexplores⟩ hex

end Queue

/-- A provider with `0` scheduled and one key below `000` waiting to be provided. -/
def queuedState (key : Multihash) : State :=
  (sampleState [[false]]).withQueued [false, false, false] [key]

theorem queuedState_inv (key : Multihash) (h : [false, false, false] <+: (mhToBit256 key).bits) :
    (queuedState key).Inv :=
  (sampleState_inv (by decide)).withQueued (by simp) (by simpa using h)

example : (queuedState [0, 1, 34]).provideQueue.keys.keys = [mhToBit256 [0, 1, 34]] := by
  decide +kernel

theorem batchReprovide_keeps_stored :
    (queuedState [0, 1, 34]).Inv ∧
    ∃ s', @batchReprovide binaryTrie (sampleEnv lowKeys) [false] (queuedState [0, 1, 34])
        = some ((), s') ∧
      ∀ ks, .dequeueMatching ks ∈ newEvents (queuedState [0, 1, 34]) s' → ∀ m ∈ ks,
        (∃ regions, .assignKeysToRegions regions ∈ newEvents (queuedState [0, 1, 34]) s' ∧
          ∃ r ∈ regions, mhToBit256 m ∈ r.keys.keys) ∨
        mhToBit256 m ∈ s'.provideQueue.keys.keys := by
  have hinv := queuedState_inv [0, 1, 34] (by decide +kernel)
  refine ⟨hinv, ?_⟩
  obtain ⟨s', heq, hiff⟩ := @batchReprovide_keeps_queued_iff binaryTrie (sampleEnv lowKeys) [false]
    (queuedState [0, 1, 34]) hinv
  refine ⟨s', heq, hiff.mpr fun keys regions c p' loaded hexplores hloads k hk _ => ?_⟩
  have hpeers : @closestPeersToPrefix binaryTrie (sampleEnv lowKeys) [false]
      = .ok peersBelowZero := by decide +kernel
  have hget : (sampleEnv lowKeys).keystoreGet [false] = .ok lowKeys := by decide +kernel
  have hc : @coveredPrefix binaryTrie (sampleEnv lowKeys) peersBelowZero = [false, false] := by
    decide +kernel
  have hqueue : (queuedState [0, 1, 34]).provideQueue.keys.keys = [mhToBit256 [0, 1, 34]] := by
    decide +kernel
  -- the call sweeps all stored keys, in the regions below `00`
  have hfound : @Explores binaryTrie (sampleEnv lowKeys) [false] lowKeys
      (@foundRegions binaryTrie (sampleEnv lowKeys) peersBelowZero)
      (@coveredPrefix binaryTrie (sampleEnv lowKeys) peersBelowZero) :=
    @Explores.mk binaryTrie _ _ _ _ _ rfl (cons_ne_nil _ _) hget (by decide)
      (@exploreSwarm_of_peers binaryTrie _ _ _ hpeers (by decide))
  obtain ⟨hkeys, -, hcov⟩ := @Explores.unique binaryTrie _ _ _ _ _ _ _ _ hexplores hfound
  rw [hcov, hc] at hexplores hloads
  have hloaded : loaded = lowKeys := by
    rcases hloads with ⟨hlt, -⟩ | ⟨-, -, heq⟩
    · exact absurd hlt (by decide)
    · exact heq.trans hkeys
  rw [hqueue, mem_singleton] at hk
  subst hk hloaded
  refine ⟨⟨[0, 1, 34], by decide, rfl⟩, ?_⟩
  have hexplored := @Explores.explored binaryTrie _ _ _ _ _ hexplores
  obtain ⟨r, hr, hpre⟩ := (@exploreSwarm_region_iff binaryTrie _ _ _ _ hexplored
    (mhToBit256 [0, 1, 34])).mpr (by decide +kernel)
  exact ⟨r, hr, hpre, fun x hx => absurd hx not_mem_nil⟩

/-- A key that is not stored waits in the provide queue. The reprovide of `0` dequeues it, and
neither sends it nor puts it back. -/
theorem batchReprovide_drops_queued :
    (queuedState [0, 1, 71]).Inv ∧ (sampleEnv lowKeys).Stores {m | m ∈ lowKeys} ∧
    [0, 1, 71] ∉ lowKeys ∧
    ∃ s', @batchReprovide binaryTrie (sampleEnv lowKeys) [false] (queuedState [0, 1, 71])
        = some ((), s') ∧
      .dequeueMatching [[0, 1, 71]] ∈ newEvents (queuedState [0, 1, 71]) s' ∧
      (∀ regions, .assignKeysToRegions regions ∈ newEvents (queuedState [0, 1, 71]) s' →
        ∀ r ∈ regions, mhToBit256 [0, 1, 71] ∉ r.keys.keys) ∧
      mhToBit256 [0, 1, 71] ∉ s'.provideQueue.keys.keys := by
  refine ⟨queuedState_inv [0, 1, 71] (by decide +kernel), Network.stores _ _, by decide, ?_⟩
  have hrun : (@batchReprovide binaryTrie (sampleEnv lowKeys) [false]
      (queuedState [0, 1, 71])).any (fun r =>
        decide (.dequeueMatching [[0, 1, 71]] ∈ newEvents (queuedState [0, 1, 71]) r.2) &&
        ((newEvents (queuedState [0, 1, 71]) r.2).all fun e =>
          match e with
          | .assignKeysToRegions regions =>
            regions.all fun r => !decide (mhToBit256 [0, 1, 71] ∈ r.keys.keys)
          | _ => true) &&
        !decide (mhToBit256 [0, 1, 71] ∈ r.2.provideQueue.keys.keys)) = true := by
    decide +kernel
  obtain ⟨⟨⟨⟩, s'⟩, heq, hend⟩ := (Option.any_eq_true _ _).mp hrun
  simp only [Bool.and_eq_true, decide_eq_true_eq, all_eq_true, Bool.not_eq_true',
    decide_eq_false_iff_not] at hend
  refine ⟨s', heq, hend.1.1, fun regions hmem r hr => ?_, hend.2⟩
  have hregions := hend.1.2 _ hmem
  simp only [all_eq_true, Bool.not_eq_true', decide_eq_false_iff_not] at hregions
  exact hregions r hr

/-! ## Prefixes without keys -/

section Empty

variable [TrieLib] {env : Env} {p x : Bitstr} {v : View} {stored : Set Multihash}

/-- What is scheduled after a call was so before, or is above a stored key, or is the prefix of the
call. -/
theorem View.mem_scheduled_follow (hstores : env.Stores stored) (hq : v.provideQueue.Inv)
    (hx : x ∈ (v.follow env p (reprovidePath env p)).scheduled) :
    x ∈ v.scheduled ∨ x = p ∨ ∃ m ∈ stored, x <+: (mhToBit256 m).bits := by
  rcases reprovidePath_cases env p with ⟨keys, regions, c, hexplores⟩ | ⟨events, -, hpath⟩ |
    ⟨err, hpath⟩ | ⟨keys, hne, hget, -, hpath⟩
  · rw [hexplores.path] at hx
    rcases exploredPath_cases env p c keys regions with ⟨err, -, -, hpath⟩ |
      ⟨p', loaded, hloads, hpath⟩
    · rw [hpath] at hx
      exact (mem_or_eq_of_mem_absorb hx).imp_right .inl
    · rw [hpath] at hx
      have hloaded : ∃ p', env.keystoreGet p' = .ok loaded := by
        rcases hloads with ⟨-, -, hget⟩ | ⟨-, -, rfl⟩
        · exact ⟨c, hget⟩
        · exact ⟨p, hexplores.loaded⟩
      obtain ⟨p', hget⟩ := hloaded
      obtain ⟨q, dequeued, hdequeue, -⟩ := View.dequeueMatching_spec (v := v.claim regions) hq _
      rw [View.follow, View.sweep_eq env _ loaded _ hdequeue] at hx
      rcases mem_or_mem_of_mem_absorbAll hx with hold | hlive
      · exact .inl hold.1
      · have hdisj := View.claimed_disjoint (exploreSwarm_disjoint hexplores.explored) v
        obtain ⟨m, hm, hxm⟩ := (exists_mem_of_mem_livePrefixes hdisj hlive).2
        exact .inr (.inr ⟨m, ((hstores p' loaded hget m).mp hm).1, hxm⟩)
  · rw [hpath] at hx
    exact .inl hx
  · rw [hpath] at hx
    exact (mem_or_eq_of_mem_absorb hx).imp_right .inl
  · rw [hpath, View.follow, View.individualProvide_reprovide env p hne] at hx
    have hfinish (v : View) (c : Bitstr) (err : Option String) :
        (v.finishReprovide c err).scheduled = absorb v.scheduled c := by cases err <;> rfl
    rw [hfinish] at hx
    rcases mem_or_eq_of_mem_absorb hx with hold | rfl
    · exact .inl hold
    right
    unfold individualResult
    split
    · next key =>
      by_cases hok : (vanillaOutcome env key).2 = none
      · right
        simp only [hok, Option.isNone_none, if_true]
        exact ⟨key, ((hstores p _ hget key).mp mem_cons_self).1, vanillaOutcome_below hok⟩
      · left
        simp [hok]
    · exact .inl rfl

/-- **Prefixes without keys.** After a call for a scheduled prefix, every scheduled prefix from
there down has a stored key if and only if the prefix of the call has one: without keys it stays
as it is. -/
theorem batchReprovide_empties_iff {s : State} (hs : s.Inv) (hp : p ∈ s.schedule.keys)
    (hstores : env.Stores stored) :
    ∃ s', batchReprovide env p s = some ((), s') ∧
      ((∀ x ∈ s'.schedule.keys, p <+: x → ∃ m ∈ stored, x <+: (mhToBit256 m).bits) ↔
        ∃ m ∈ stored, p <+: (mhToBit256 m).bits) := by
  obtain ⟨s', heq, -, hview⟩ := batchReprovide_follow env p hs
  refine ⟨s', heq, fun hall => by_contra fun hnone => ?_, fun ⟨m, hm, hpm⟩ x hx hpx => ?_⟩
  · -- without keys the schedule stays as it is
    have hempty {keys : List Multihash} (hget : env.keystoreGet p = .ok keys) : keys = [] := by
      refine eq_nil_iff_forall_not_mem.mpr fun m hm => hnone ⟨m, ?_⟩
      exact (hstores p keys hget m).mp hm
    have hkept : s'.view.scheduled = s.view.scheduled := by
      rw [hview]
      rcases reprovidePath_cases env p with ⟨keys, regions, c, hexplores⟩ | ⟨events, -, hpath⟩ |
        ⟨err, hpath⟩ | ⟨keys, hne, hget, -, hpath⟩
      · have hmany := hexplores.many
        rw [hempty hexplores.loaded] at hmany
        exact absurd hmany (by decide)
      · rw [hpath]
        rfl
      · rw [hpath]
        exact absorb_of_covers ⟨p, hp, prefix_rfl⟩
      · exact absurd (hempty hget) hne
    exact hnone (hall p (show p ∈ s'.view.scheduled from hkept ▸ hp) prefix_rfl)
  · have hx : x ∈ s'.view.scheduled := hx
    rw [hview] at hx
    rcases View.mem_scheduled_follow hstores hs.provideQueue hx with hold | rfl | hkey
    · rw [← hs.prefixFree_scheduled p hp x hold hpx]
      exact ⟨m, hm, hpm⟩
    · exact ⟨m, hm, hpm⟩
    · exact hkey

end Empty

/-- The regions below `0` have keys. -/
theorem batchReprovide_empties_lowKeys :
    (sampleState [[false]]).Inv ∧ (sampleEnv lowKeys).Stores {m | m ∈ lowKeys} ∧
    [false] ∈ (sampleState [[false]]).schedule.keys ∧
    ∃ s', @batchReprovide binaryTrie (sampleEnv lowKeys) [false] (sampleState [[false]])
        = some ((), s') ∧
      ∀ x ∈ s'.schedule.keys, [false] <+: x → ∃ m ∈ lowKeys, x <+: (mhToBit256 m).bits := by
  have hinv : (sampleState [[false]]).Inv := sampleState_inv (by decide)
  have hmem : [false] ∈ (sampleState [[false]]).schedule.keys := by decide +kernel
  refine ⟨hinv, Network.stores _ _, hmem, ?_⟩
  obtain ⟨s', heq, hiff⟩ := @batchReprovide_empties_iff binaryTrie (sampleEnv lowKeys) [false] _ _
    hinv hmem (Network.stores _ _)
  exact ⟨s', heq, hiff.mpr ⟨[0, 1, 21], by decide, by decide +kernel⟩⟩

/-- Nothing is stored, and the schedule keeps `0`. -/
theorem batchReprovide_keeps_empty :
    (sampleState [[false]]).Inv ∧ (sampleEnv []).Flawless ∧ (sampleEnv []).Stores {m | m ∈ []} ∧
    (sampleState [[false]]).activeReprovides = .emptyLeaf ∧
    @batchReprovide binaryTrie (sampleEnv []) [false] (sampleState [[false]])
      = some ((), sampleState [[false]]) ∧
    [false] ∈ (sampleState [[false]]).schedule.keys :=
  ⟨sampleState_inv (by decide), sampleEnv_flawless _, Network.stores _ _, rfl, by decide +kernel,
    by decide +kernel⟩

end KadDht.SweepingProvider
