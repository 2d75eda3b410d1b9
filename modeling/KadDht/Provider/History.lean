import KadDht.Provider.Coverage

/-!
# Provider — what the reprovide history says

`persistSuccessfulReprovide` logs a prefix as reprovided. An entry does not promise that every
stored key below the prefix was sent: a sweep is logged when *some* region was sent, and the
regions that failed go to the reprovide queue; several keys provided one by one are logged when
*one* of them was sent.

* **`batchReprovide_history`** — an entry of a call.
-/

namespace KadDht.SweepingProvider

open Abstraction List

section Specs

variable [TrieLib] {env : Env} {p : Bitstr}

/-- **An entry of a sweep.** Some claimed region was sent with all its loaded keys, and every loaded
key in a claimed region was sent or is covered by the reprovide queue. -/
theorem sweep_logged {regions claimed : List Region} {c : Bitstr} (p' q : Bitstr)
    (loaded : List Multihash) {v : View} (hexplore : exploreSwarm env p = .ok (regions, c))
    (hclaimed : claimed = v.claimed regions) (hq : v.provideQueue.Inv)
    (hfree : PrefixFree {x | x ∈ v.reprovideQueue}) :
    ∃ es, ((v.claim regions).reprovideClaimed env p' loaded claimed).trace = v.trace ++ es ∧
      (.persistSuccessfulReprovide q ∈ es → q = p' ∧
        (∃ r ∈ claimed, ∀ m ∈ loaded, r.pfx <+: (mhToBit256 m).bits → Sent es (mhToBit256 m)) ∧
        ∀ r ∈ claimed, ∀ m ∈ loaded, r.pfx <+: (mhToBit256 m).bits →
          Sent es (mhToBit256 m) ∨ ∃ x ∈ ((v.claim regions).reprovideClaimed env p' loaded
            claimed).reprovideQueue, x <+: (mhToBit256 m).bits) := by
  have hdisj : Separate claimed :=
    hclaimed ▸ View.claimed_disjoint (exploreSwarm_disjoint hexplore) v
  have hpeers : ∀ r ∈ claimed, r.HasPeers := by
    intro r hr
    rw [hclaimed, View.mem_claimed] at hr
    exact exploreSwarm_peers hexplore hr.1
  obtain ⟨pq, dequeued, hdequeue, -⟩ := View.dequeueMatching_spec (v := v.claim regions) hq p'
  rw [View.sweep_eq env p' loaded claimed hdequeue]
  set assigned := assignKeysToRegions claimed loaded with hassigned
  refine ⟨sweepTrace env p' dequeued assigned, rfl, fun hmem => ?_⟩
  obtain ⟨hpq, hlt⟩ : Event.persistSuccessfulReprovide q = .persistSuccessfulReprovide p' ∧
      assigned.countP (regionFails env) < assigned.length := by
    simpa [Event.ofSending] using mem_sweepTrace hmem
  -- the key of a region that did not fail was sent
  have hsent : ∀ r ∈ assigned, regionFails env r = false → ∀ k ∈ r.keys.keys,
      Sent (sweepTrace env p' dequeued assigned) k := by
    intro r hr hok k hk
    have hmatch := keysMatch_assignKeysToRegions hdisj loaded hr
    have herr := (sent_or_fails hmatch env hk).resolve_right (by simp [hok])
    rw [Sent, sweepTrace, sentWith_append, sentWith_append]
    exact .inl (.inr ((sentWith_regionsTrace hpeers hdisj _ k).mpr ⟨r, hr, herr, hk⟩))
  refine ⟨by simpa using hpq, ?_, ?_⟩
  · obtain ⟨r, hr, hok⟩ : ∃ r ∈ assigned, regionFails env r = false := by
      by_contra hall
      push Not at hall
      exact hlt.ne (countP_eq_length.mpr fun r hr => by simpa using hall r hr)
    obtain ⟨⟨r0, hr0, hpfx, -⟩, hkeys⟩ := assignKeysToRegions_spec hdisj loaded hr
    refine ⟨r0, hr0, fun m hm hpre => hsent r hr hok _ ?_⟩
    exact (hkeys _).mpr ⟨m, hm, hpfx ▸ hpre, rfl⟩
  · intro r0 hr0 m hm hpre
    obtain ⟨r, hr, hk⟩ := (exists_assigned_iff hdisj loaded _).mpr ⟨⟨m, hm, rfl⟩, r0, hr0, hpre⟩
    cases hfails : regionFails env r with
    | false => exact .inl (hsent r hr hfails _ hk)
    | true =>
      obtain ⟨m', -, hpre', hid⟩ := ((assignKeysToRegions_spec hdisj loaded hr).2 _).mp hk
      have hcov : Covers {x | x ∈ (failedPrefixes env assigned).foldl pushPrefix
          (v.reprovideQueue.filter fun x => !p'.isPrefixOf x)} (mhToBit256 m).bits := by
        rw [setOf_sweptQueue hfree, covers_absorbAll]
        exact .inr ⟨r.pfx, mem_map_of_mem (mem_filter.mpr ⟨hr, hfails⟩), hid ▸ hpre'⟩
      exact .inr hcov

omit [TrieLib] in
/-- **An entry of a few keys.** All of them were provided, and one was sent without an error; a
single key is below the logged prefix. -/
theorem individual_logged {keys : List Multihash} (hne : keys ≠ []) {q : Bitstr}
    (hlogged : .persistSuccessfulReprovide q ∈ individualTrace env p keys) :
    (∀ m ∈ keys, .addLocalRecord m ∈ individualTrace env p keys) ∧
      (∃ m ∈ keys, ∃ peers,
        .sendProviderRecords (singleKeyAllocations m peers) none ∈ individualTrace env p keys) ∧
      ((∃ m, keys = [m] ∧ q <+: (mhToBit256 m).bits) ∨ q = p) := by
  have hresult : (individualResult env p keys).2 = none ∧ q = (individualResult env p keys).1 := by
    rcases mem_append.mp hlogged with hmem | hmem
    · exact absurd (ofSending_flatMap_vanillaEvents hmem) Bool.false_ne_true
    · cases herr : (individualResult env p keys).2 with
      | none => simpa [herr] using hmem
      | some err => simp [herr] at hmem
  have hsent : ∀ m ∈ keys, (vanillaOutcome env m).2 = none → ∃ peers,
      .sendProviderRecords (singleKeyAllocations m peers) none ∈ individualTrace env p keys := by
    intro m hm hok
    obtain ⟨peers, hmem⟩ := mem_vanillaEvents_of_ok hok
    exact ⟨peers, mem_append_left _ (mem_flatMap.mpr ⟨m, hm, hmem⟩)⟩
  refine ⟨fun m hm => ?_, ?_⟩
  · refine mem_append_left _ (mem_flatMap.mpr ⟨m, hm, ?_⟩)
    unfold vanillaEvents
    split <;> exact mem_cons_self
  match keys, hne, hresult, hsent with
  | [], hne, _, _ => exact absurd rfl hne
  | [m], _, hresult, hsent =>
    have hok : (vanillaOutcome env m).2 = none := hresult.1
    refine ⟨⟨m, mem_singleton_self m, hsent m (mem_singleton_self m) hok⟩, .inl ⟨m, rfl, ?_⟩⟩
    rw [hresult.2]
    simp only [individualResult, hok, Option.isNone_none, if_true]
    exact vanillaOutcome_below hok
  | m :: m' :: rest, _, hresult, hsent =>
    have hany : ((m :: m' :: rest).any fun key => (vanillaOutcome env key).2.isNone) = true := by
      by_contra hnone
      rw [individualResult, if_neg hnone] at hresult
      · cases hresult.1
      · simp
    obtain ⟨key, hkey, hok⟩ := any_eq_true.mp hany
    exact ⟨⟨key, hkey, hsent key hkey (Option.isNone_iff_eq_none.mp hok)⟩, .inr hresult.2⟩

omit [TrieLib] in
/-- The loaded keys are the stored ones below the prefix that is swept. -/
theorem Loads.mem_iff {c p' : Bitstr} {keys loaded : List Multihash} {stored : Set Multihash}
    (hstores : env.Stores stored) (hget : env.keystoreGet p = .ok keys)
    (h : Loads env p c keys p' loaded) (m : Multihash) :
    m ∈ loaded ↔ m ∈ stored ∧ p' <+: (mhToBit256 m).bits := by
  rcases h with ⟨-, rfl, hgetc⟩ | ⟨-, rfl, rfl⟩
  · exact hstores _ _ hgetc m
  · exact hstores _ _ hget m

/-- **What an entry of the history means.** With at most two keys, all of them were provided, and
one was sent without an error. Otherwise a claimed region was sent with all stored keys below the
logged prefix, and each such key in a claimed region was sent without an error or is covered by the
reprovide queue. -/
theorem batchReprovide_history {s : State} {stored : Set Multihash} (hs : s.Inv)
    (hstores : env.Stores stored) :
    ∃ s', batchReprovide env p s = some ((), s') ∧
      ∀ q, .persistSuccessfulReprovide q ∈ newEvents s s' →
        (∃ keys, env.keystoreGet p = .ok keys ∧ keys.length ≤ individualProvideThreshold ∧
          (∀ m ∈ keys, .addLocalRecord m ∈ newEvents s s') ∧
          (∃ m ∈ keys, ∃ peers,
            .sendProviderRecords (singleKeyAllocations m peers) none ∈ newEvents s s') ∧
          ((∃ m, keys = [m] ∧ q <+: (mhToBit256 m).bits) ∨ q = p)) ∨
        (∃ keys regions c loaded, Explores env p keys regions c ∧ Loads env p c keys q loaded ∧
          (∃ r ∈ regions, (∀ x ∈ s.activeReprovides.keys, ¬ x <+: r.pfx) ∧
            ∀ m ∈ stored, q <+: (mhToBit256 m).bits → r.pfx <+: (mhToBit256 m).bits →
              Sent (newEvents s s') (mhToBit256 m)) ∧
          ∀ r ∈ regions, (∀ x ∈ s.activeReprovides.keys, ¬ x <+: r.pfx) →
            ∀ m ∈ stored, q <+: (mhToBit256 m).bits → r.pfx <+: (mhToBit256 m).bits →
              Sent (newEvents s s') (mhToBit256 m) ∨
                ∃ x ∈ s'.reprovideQueue.queue, x <+: (mhToBit256 m).bits) := by
  obtain ⟨s', heq, -, hview⟩ := batchReprovide_follow env p hs
  refine ⟨s', heq, fun q hlogged => ?_⟩
  rcases reprovidePath_cases env p with ⟨keys, regions, c, hexplores⟩ | ⟨events, hevents, hpath⟩ |
    ⟨err, hpath⟩ | ⟨keys, hne, hget, hfew, hpath⟩
  · rw [hexplores.path] at hview
    rcases exploredPath_cases env p c keys regions with ⟨err, -, -, hpath⟩ |
      ⟨p', loaded, hloads, hpath⟩
    · -- nothing is logged
      rw [hpath] at hview
      rw [newEvents_eq ((congrArg View.trace hview).trans
        (View.failedReprovide_trace p _ (s.view.claim regions)))] at hlogged
      simp at hlogged
    · rw [hpath, View.follow] at hview
      obtain ⟨es, htrace, hspec⟩ := sweep_logged (v := s.view) p' q loaded
        hexplores.explored rfl hs.provideQueue hs.prefixFree_reprovideQueue
      rw [← hview] at htrace hspec
      rw [newEvents_eq htrace] at hlogged ⊢
      obtain ⟨rfl, ⟨r, hr, hsent⟩, hkept⟩ := hspec hlogged
      have hmem := hloads.mem_iff hstores hexplores.loaded
      have hfree : ∀ r, r ∈ s.view.claimed regions ↔
          r ∈ regions ∧ ∀ x ∈ s.activeReprovides.keys, ¬ x <+: r.pfx := by
        intro r
        rw [View.mem_claimed, not_covers]
        rfl
      refine .inr ⟨keys, regions, c, loaded, hexplores, hloads, ⟨r, ((hfree r).mp hr).1,
        ((hfree r).mp hr).2, fun m hm hq => hsent m ((hmem m).mpr ⟨hm, hq⟩)⟩, ?_⟩
      intro r' hr' hunclaimed m hm hq
      exact hkept r' ((hfree r').mpr ⟨hr', hunclaimed⟩) m ((hmem m).mpr ⟨hm, hq⟩)
  · rw [hpath] at hview
    rw [newEvents_eq (congrArg View.trace hview)] at hlogged
    exact absurd (hevents _ hlogged) Bool.false_ne_true
  · rw [hpath] at hview
    rw [newEvents_eq ((congrArg View.trace hview).trans
      (View.failedReprovide_trace p err s.view))] at hlogged
    simp at hlogged
  · rw [hpath] at hview
    have hnew : newEvents s s' = individualTrace env p keys := newEvents_eq
      ((congrArg View.trace hview).trans (View.individualProvide_trace env p hne s.view))
    rw [hnew] at hlogged ⊢
    exact .inl ⟨keys, hget, hfew, individual_logged hne hlogged⟩

end Specs

/-- The three sample peers, of which the one below `000` does not answer, and stored keys on both
sides of `00`. -/
def halfReachable : Network where
  peers := samplePeers
  unreachable := [[0, 1, 17]]
  preimages := [[0, 1, 6], [0, 1, 3]]
  stored := [[0, 1, 5], [0, 1, 21], [0, 1, 34]]

def halfReachableEnv : Env :=
  halfReachable.env { sampleConfig with replicationFactor := 1, replicationFactor_pos := by decide }

theorem halfReachable_logs :
    (@batchReprovide binaryTrie halfReachableEnv [false] (sampleState [[false]])).any (fun r =>
      decide (.persistSuccessfulReprovide [false] ∈ newEvents (sampleState [[false]]) r.2) &&
      !decide (Sent (newEvents (sampleState [[false]]) r.2) (mhToBit256 [0, 1, 21]))) = true := by
  decide +kernel

theorem batchReprovide_history_halfReachable :
    (sampleState [[false]]).Inv ∧ halfReachableEnv.Stores {m | m ∈ halfReachable.stored} ∧
    ∃ s', @batchReprovide binaryTrie halfReachableEnv [false] (sampleState [[false]])
        = some ((), s') ∧
      .persistSuccessfulReprovide [false] ∈ newEvents (sampleState [[false]]) s' ∧
      ∃ keys regions c loaded, @Explores binaryTrie halfReachableEnv [false] keys regions c ∧
        Loads halfReachableEnv [false] c keys [false] loaded ∧
        ∀ r ∈ regions, ∀ m ∈ halfReachable.stored, [false] <+: (mhToBit256 m).bits →
          r.pfx <+: (mhToBit256 m).bits →
          Sent (newEvents (sampleState [[false]]) s') (mhToBit256 m) ∨
            ∃ x ∈ s'.reprovideQueue.queue, x <+: (mhToBit256 m).bits := by
  have hinv : (sampleState [[false]]).Inv := sampleState_inv (by decide)
  refine ⟨hinv, Network.stores _ _, ?_⟩
  obtain ⟨s', heq, hhistory⟩ := @batchReprovide_history binaryTrie halfReachableEnv [false]
    (sampleState [[false]]) {m | m ∈ halfReachable.stored} hinv (Network.stores _ _)
  obtain ⟨⟨⟨⟩, s''⟩, heq', hend⟩ := (Option.any_eq_true _ _).mp halfReachable_logs
  obtain ⟨⟨⟩, rfl⟩ : () = () ∧ s' = s'' := Prod.mk.inj (Option.some.inj (heq.symm.trans heq'))
  have hlogged := of_decide_eq_true (Bool.and_eq_true _ _ ▸ hend : _ ∧ _).1
  refine ⟨s', heq, hlogged, ?_⟩
  rcases hhistory [false] hlogged with ⟨keys, hget, hfew, -⟩ |
    ⟨keys, regions, c, loaded, hexplores, hloads, -, hkept⟩
  · -- three keys are stored below `0`
    have hkeys : halfReachableEnv.keystoreGet [false] = .ok halfReachable.stored := by
      decide +kernel
    rw [Except.ok.inj (hget.symm.trans hkeys)] at hfew
    exact absurd hfew (by decide)
  · exact ⟨keys, regions, c, loaded, hexplores, hloads, fun r hr => hkept r hr
      fun x hx => absurd hx not_mem_nil⟩

/-- The stored key below `000` is below the logged prefix `0`, but sending it failed. -/
theorem batchReprovide_logs_unsent :
    (sampleState [[false]]).Inv ∧ halfReachableEnv.Stores {m | m ∈ halfReachable.stored} ∧
    ∃ s', @batchReprovide binaryTrie halfReachableEnv [false] (sampleState [[false]])
        = some ((), s') ∧
      .persistSuccessfulReprovide [false] ∈ newEvents (sampleState [[false]]) s' ∧
      [0, 1, 21] ∈ halfReachable.stored ∧ [false] <+: (mhToBit256 [0, 1, 21]).bits ∧
      ¬ Sent (newEvents (sampleState [[false]]) s') (mhToBit256 [0, 1, 21]) := by
  refine ⟨sampleState_inv (by decide), Network.stores _ _, ?_⟩
  obtain ⟨⟨⟨⟩, s'⟩, heq, hend⟩ := (Option.any_eq_true _ _).mp halfReachable_logs
  simp only [Bool.and_eq_true, decide_eq_true_eq, Bool.not_eq_true', decide_eq_false_iff_not]
    at hend
  exact ⟨s', heq, hend.1, by decide, by decide +kernel, hend.2⟩

end KadDht.SweepingProvider
