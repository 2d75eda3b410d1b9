import KadDht.Provider.Coverage

/-!
# Provider — is a scheduled region swallowed unsent?

A reprovide of one prefix may take other prefixes out of the schedule: those below the prefix it
sweeps, and those below the prefix it schedules instead. Their keys should be among the keys it
sends.

* **`batchReprovide_swallows_iff`** — the two together.
-/

namespace KadDht.SweepingProvider

open Abstraction List

/-- Nothing goes wrong: the keystore answers, every lookup finds peers, every message is
answered. -/
structure Env.Flawless (env : Env) : Prop where
  opened : env.closed = false
  addrs : env.selfAddrs ≠ []
  keystore : ∀ q err, env.keystoreGet q ≠ .error err
  lookup : ∀ k, ∃ peers, env.getClosestPeers k = .ok peers ∧ peers ≠ []
  send : ∀ p m, env.sendMessage p m = none

/-! ## A few keys -/

variable {env : Env}

theorem handed_vanillaEvents (h : env.Flawless) (key : Multihash) (k : Bit256) :
    Handed (vanillaEvents env key) k ↔ k = mhToBit256 key := by
  obtain ⟨peers, hpeers, hne⟩ := h.lookup key
  have hevents : vanillaEvents env key = [.addLocalRecord key,
      .sendProviderRecords (singleKeyAllocations key peers)
        (sendOutcome env (singleKeyAllocations key peers)).2] := by
    simp [vanillaEvents, hpeers]
  rw [Handed, hevents, sentWith_iff]
  constructor
  · intro hk
    obtain ⟨allocs, err, m, hmem, -, hm, rfl⟩ := hk
    simp only [mem_cons, reduceCtorEq, Event.sendProviderRecords.injEq, not_mem_nil,
      or_false, false_or] at hmem
    rw [hmem.1, allocated_singleKeyAllocations] at hm
    rw [hm.2]
  · rintro rfl
    exact ⟨_, _, key, mem_cons_of_mem _ mem_cons_self, rfl,
      (allocated_singleKeyAllocations _ _ _).mpr ⟨hne, rfl⟩, rfl⟩

theorem handed_flatMap_vanillaEvents (h : env.Flawless) (keys : List Multihash) (k : Bit256) :
    Handed (keys.flatMap (vanillaEvents env)) k ↔ ∃ m ∈ keys, mhToBit256 m = k := by
  rw [Handed, sentWith_flatMap]
  refine exists_congr fun m => and_congr_right fun _ => ?_
  exact (handed_vanillaEvents h m k).trans eq_comm

theorem vanillaOutcome_ok (h : env.Flawless) (key : Multihash) :
    (vanillaOutcome env key).2 = none := by
  obtain ⟨peers, hpeers, -⟩ := h.lookup key
  simp [vanillaOutcome, hpeers, sendOutcome_ok h.opened h.send]

theorem View.individualProvide_flawless [TrieLib] (h : env.Flawless) (p : Bitstr)
    {keys : List Multihash} (hne : keys ≠ []) (v : View) :
    v.individualProvide env p keys true =
      { v with
        scheduled := absorb v.scheduled (individualResult env p keys).1
        trace := v.trace ++ (keys.flatMap (vanillaEvents env) ++
          [.persistSuccessfulReprovide (individualResult env p keys).1]) } := by
  have hok : (individualResult env p keys).2 = none := by
    match keys with
    | [] => exact absurd rfl hne
    | [key] => exact vanillaOutcome_ok h key
    | key :: key' :: rest => simp [individualResult, vanillaOutcome_ok h]
  rw [View.individualProvide_reprovide env p hne, hok]
  simp [View.finishReprovide, View.schedule, View.emitAll]

/-- **A single key.** Scheduling a prefix swallows nothing but what it covers. -/
theorem swallowed_single_iff {scheduled : Set Bitstr} (queued : Set Bitstr) {p c : Bitstr}
    {stored : Set Multihash} {k : Bit256} :
    (∀ q ∈ scheduled, q ≠ p → q ∉ absorb scheduled c →
        (∀ m ∈ stored, q <+: (mhToBit256 m).bits → mhToBit256 m = k) ∨ Covers queued q) ↔
      Covers scheduled c ∨ ∀ q ∈ scheduled, q ≠ p → c <+: q →
        (∀ m ∈ stored, q <+: (mhToBit256 m).bits → mhToBit256 m = k) ∨ Covers queued q := by
  by_cases hcov : Covers scheduled c
  · refine ⟨fun _ => .inl hcov, fun _ q hq _ hgone => ?_⟩
    rw [absorb_of_covers hcov] at hgone
    exact absurd hq hgone
  · rw [or_iff_right hcov]
    refine forall₃_congr fun q hq _ => ?_
    have hgone : q ∉ absorb scheduled c ↔ c <+: q := by
      rw [mem_absorb_of_not_covers hcov]
      constructor
      · intro h
        by_contra hcq
        exact h (.inr ⟨hq, hcq⟩)
      · rintro hcq (rfl | hkept)
        · exact hcov ⟨q, hq, hcq⟩
        · exact hkept.2 hcq
    rw [hgone]

/-! ## A sweep -/

/-- What a sweep takes out of the schedule lies below its prefix, and what lies below its prefix
afterwards is a region. -/
theorem mem_absorbAll_sweep {scheduled : Set Bitstr} {p q : Bitstr} {live : List Bitstr}
    (hlive : ∀ x ∈ live, p <+: x) (hq : q ∈ scheduled) :
    (q ∉ absorbAll {x | x ∈ scheduled ∧ ¬ p <+: x} live → p <+: q) ∧
      (p <+: q → q ∈ absorbAll {x | x ∈ scheduled ∧ ¬ p <+: x} live → q ∈ live) := by
  constructor
  · intro hgone
    by_contra hpq
    exact hgone (mem_absorbAll_of_mem ⟨hq, hpq⟩ fun x hx hxq => hpq ((hlive x hx).trans hxq))
  · intro hpq hmem
    rcases mem_or_mem_of_mem_absorbAll hmem with hkept | hmem
    · exact absurd hpq hkept.2
    · exact hmem

section Sweep

variable [TrieLib] {env : Env} {p c : Bitstr} {regions : List Region}

omit [TrieLib] in
theorem regionErr_flawless (h : env.Flawless) (r : Region) : regionErr env r = none :=
  sendOutcome_ok h.opened h.send _

theorem handed_sweepTrace (hexplore : exploreSwarm env p = .ok (regions, c)) (p' : Bitstr)
    (dequeued keys : List Multihash) (k : Bit256) :
    Handed (sweepTrace env p' dequeued (assignKeysToRegions regions keys)) k ↔
      (∃ m ∈ keys, mhToBit256 m = k) ∧ c <+: k.bits := by
  have hdisj := exploreSwarm_disjoint hexplore
  rw [← exploreSwarm_region_iff hexplore, ← exists_assigned_iff hdisj]
  set assigned := assignKeysToRegions regions keys
  rw [Handed, sweepTrace, sentWith_append, sentWith_append, or_iff_left, or_iff_right,
    sentWith_regionsTrace (fun r => exploreSwarm_peers hexplore) hdisj]
  · simp [assigned]
  · exact not_sentWith (by simp)
  · exact not_sentWith (by split <;> simp)

variable {keys : List Multihash} {stored : Set Multihash} {s s' : State}

/-- The regions with keys lie below the covered prefix, and below a prefix of all loaded keys
that is not longer. -/
theorem prefix_livePrefixes (hexplore : exploreSwarm env p = .ok (regions, c)) {x : Bitstr}
    (hx : x ∈ livePrefixes (assignKeysToRegions regions keys)) :
    c <+: x ∧ ∀ p', (∀ m ∈ keys, p' <+: (mhToBit256 m).bits) → p'.length ≤ c.length → p' <+: x := by
  obtain ⟨⟨r, hr, rfl⟩, m, hm, hpre⟩ :=
    exists_mem_of_mem_livePrefixes (exploreSwarm_disjoint hexplore) hx
  have hc : c <+: r.pfx := (exploreSwarm_splits hexplore).below _ (mem_map_of_mem hr)
  -- a key of the region starts with both prefixes
  refine ⟨hc, fun p' hall hlen => ?_⟩
  exact prefix_of_prefix_length_le (hall m hm) hpre (hlen.trans hc.length_le)

theorem View.sweep_flawless (h : env.Flawless) (p' : Bitstr) (keys : List Multihash)
    (regions : List Region) {v : View} (hq : v.provideQueue.Inv) :
    ∃ dequeued,
      (v.reprovideClaimed env p' keys regions).scheduled
        = absorbAll {x | x ∈ v.scheduled ∧ ¬ p' <+: x}
          (livePrefixes (assignKeysToRegions regions keys)) ∧
      (v.reprovideClaimed env p' keys regions).reprovideQueue
        = v.reprovideQueue.filter (fun x => !p'.isPrefixOf x) ∧
      (v.reprovideClaimed env p' keys regions).trace
        = v.trace ++ sweepTrace env p' dequeued (assignKeysToRegions regions keys) := by
  obtain ⟨q, dequeued, hdequeue, -⟩ := View.dequeueMatching_spec hq p'
  have hfailed : failedPrefixes env (assignKeysToRegions regions keys) = [] := by
    simp [failedPrefixes, regionFails, regionErr_flawless h]
  rw [View.sweep_eq env p' keys regions hdequeue, hfailed]
  exact ⟨dequeued, rfl, rfl, rfl⟩

/-- Every prefix other than `p` that leaves the schedule between two states had its stored keys
handed over, or lies below a prefix in the reprovide queue. -/
def NoneSwallowed (stored : Set Multihash) (p : Bitstr) (s s' : State) : Prop :=
  ∀ q ∈ s.schedule.keys, q ≠ p → q ∉ s'.schedule.keys →
    (∀ m ∈ stored, q <+: (mhToBit256 m).bits → Handed (newEvents s s') (mhToBit256 m)) ∨
      ∃ x ∈ s'.reprovideQueue.queue, x <+: q

theorem noneSwallowed_sweep_covered (h : env.Flawless)
    (hexplore : exploreSwarm env p = .ok (regions, c)) (keys : List Multihash)
    (hloaded : ∀ m ∈ stored, c <+: (mhToBit256 m).bits → m ∈ keys) (hs : s.Inv)
    (hview : s'.view = (s.view.claim regions).reprovideClaimed env c keys regions) :
    NoneSwallowed stored p s s' := by
  obtain ⟨dequeued, hsched, -, htrace⟩ := View.sweep_flawless (v := s.view.claim regions) h c keys
    regions hs.provideQueue
  rw [← hview] at hsched htrace
  have hnew : newEvents s s' = sweepTrace env c dequeued (assignKeysToRegions regions keys) :=
    newEvents_eq htrace
  intro q hq _ hgone
  have hcq : c <+: q := (mem_absorbAll_sweep (fun x hx => (prefix_livePrefixes hexplore hx).1)
    hq).1 fun hmem => hgone (hsched ▸ hmem : q ∈ s'.view.scheduled)
  refine .inl fun m hm hqm => ?_
  rw [hnew, handed_sweepTrace hexplore]
  exact ⟨⟨m, hloaded m hm (hcq.trans hqm), rfl⟩, hcq.trans hqm⟩

/-- **A sweep** of the keys below the requested prefix swallows nothing exactly when a shorter
prefix is queued, or all stored keys below the other scheduled prefixes start with the covered
prefix. -/
theorem swallowed_sweep_iff (h : env.Flawless) (hexplore : exploreSwarm env p = .ok (regions, c))
    (hlen : p.length ≤ c.length) (hkeys : ∀ m, m ∈ keys ↔ m ∈ stored ∧ p <+: (mhToBit256 m).bits)
    (hs : s.Inv) (hview : s'.view = (s.view.claim regions).reprovideClaimed env p keys regions) :
    NoneSwallowed stored p s s' ↔
      (∃ x ∈ s.reprovideQueue.queue, x <+: p ∧ x ≠ p) ∨
        ∀ q ∈ s.schedule.keys, q ≠ p → p <+: q →
          ∀ m ∈ stored, q <+: (mhToBit256 m).bits → c <+: (mhToBit256 m).bits := by
  obtain ⟨dequeued, hsched, hqueue, htrace⟩ := View.sweep_flawless (v := s.view.claim regions) h p
    keys regions hs.provideQueue
  rw [← hview] at hsched hqueue htrace
  have hnew : newEvents s s' = sweepTrace env p dequeued (assignKeysToRegions regions keys) :=
    newEvents_eq htrace
  have hlive : ∀ x ∈ livePrefixes (assignKeysToRegions regions keys), p <+: x := fun x hx =>
    (prefix_livePrefixes hexplore hx).2 p (fun m hm => ((hkeys m).mp hm).2) hlen
  have hsched : {x | x ∈ s'.schedule.keys} = absorbAll {x | x ∈ s.schedule.keys ∧ ¬ p <+: x}
    (livePrefixes (assignKeysToRegions regions keys)) := hsched
  have hmem : ∀ q, q ∈ s'.schedule.keys ↔ q ∈ absorbAll {x | x ∈ s.schedule.keys ∧ ¬ p <+: x}
    (livePrefixes (assignKeysToRegions regions keys)) := fun q => by
      rw [← hsched]
      exact Iff.rfl
  have habove : ∀ q, p <+: q → ((∃ x ∈ s'.reprovideQueue.queue, x <+: q) ↔
      ∃ x ∈ s.reprovideQueue.queue, x <+: p ∧ x ≠ p) := by
    intro q hpq
    have hx : ∀ x, x ∈ s'.reprovideQueue.queue ↔ x ∈ s.reprovideQueue.queue ∧ ¬ p <+: x := by
      intro x
      rw [show s'.reprovideQueue.queue = _ from hqueue, mem_filter, not_isPrefixOf_iff]
      exact Iff.rfl
    simp only [hx, and_assoc]
    refine exists_congr fun x => and_congr_right fun _ => ?_
    exact ⟨fun hand => proper_of_prefixes hand.2 hpq hand.1,
      fun hand => ⟨fun hpx => hand.2 (prefix_antisymm hand.1 hpx), hand.1.trans hpq⟩⟩
  have hhanded : ∀ m ∈ stored, p <+: (mhToBit256 m).bits →
      (Handed (newEvents s s') (mhToBit256 m) ↔ c <+: (mhToBit256 m).bits) := by
    intro m hm hp
    rw [hnew, handed_sweepTrace hexplore, and_iff_right ⟨m, (hkeys m).mpr ⟨hm, hp⟩, rfl⟩]
  constructor
  · intro hall
    by_cases hqueued : ∃ x ∈ s.reprovideQueue.queue, x <+: p ∧ x ≠ p
    · exact .inl hqueued
    · refine .inr fun q hq hne hpq m hm hqm => ?_
      by_cases hstay : q ∈ s'.schedule.keys
      · -- the prefix is one of the regions
        have hregion := (mem_absorbAll_sweep hlive hq).2 hpq ((hmem q).mp hstay)
        exact (prefix_livePrefixes hexplore hregion).1.trans hqm
      · have hsent := (hall q hq hne hstay).resolve_right fun hex => hqueued ((habove q hpq).mp hex)
        exact (hhanded m hm (hpq.trans hqm)).mp (hsent m hm hqm)
  · intro hcond q hq hne hgone
    have hpq : p <+: q := (mem_absorbAll_sweep hlive hq).1 fun hin => hgone ((hmem q).mpr hin)
    rcases hcond with hqueued | hall
    · exact .inr ((habove q hpq).mpr hqueued)
    · refine .inl fun m hm hqm => ?_
      exact (hhanded m hm (hpq.trans hqm)).mpr (hall q hq hne hpq m hm hqm)

theorem noneSwallowed_individual_iff (h : env.Flawless) (hne : keys ≠ [])
    (hview : s'.view = s.view.individualProvide env p keys true) :
    NoneSwallowed stored p s s' ↔
      ∀ q ∈ s.schedule.keys, q ≠ p →
        q ∉ absorb {x | x ∈ s.schedule.keys} (individualResult env p keys).1 →
        (∀ m ∈ stored, q <+: (mhToBit256 m).bits → ∃ m' ∈ keys, mhToBit256 m' = mhToBit256 m) ∨
          ∃ x ∈ s.reprovideQueue.queue, x <+: q := by
  rw [View.individualProvide_flawless h p hne] at hview
  have hsched : {x | x ∈ s'.schedule.keys} = absorb {x | x ∈ s.schedule.keys}
    (individualResult env p keys).1 := congrArg View.scheduled hview
  have hqueue : s'.reprovideQueue.queue = s.reprovideQueue.queue :=
    congrArg View.reprovideQueue hview
  have hnew : newEvents s s' = keys.flatMap (vanillaEvents env) ++
    [.persistSuccessfulReprovide (individualResult env p keys).1] :=
      newEvents_eq (congrArg View.trace hview)
  have hhanded : ∀ k, Handed (newEvents s s') k ↔ ∃ m ∈ keys, mhToBit256 m = k := by
    intro k
    rw [hnew, ← handed_flatMap_vanillaEvents h, Handed, sentWith_append, or_iff_left]
    exact not_sentWith (by simp)
  simp only [NoneSwallowed, hhanded, hqueue, ← hsched, Set.mem_ofPred_eq]

/-- **Scheduled regions that are swallowed unsent.** With one key, nothing is swallowed when the
prefix covered by its lookup is covered by the schedule, or the other prefixes below it hold no
other stored key or are queued; with more than two, when the covered prefix is shorter than the
requested one, a prefix above the requested one is queued, or the stored keys below the other
prefixes start with the covered prefix. -/
theorem batchReprovide_swallows_iff {s : State} {stored : Set Multihash} {keys : List Multihash}
    {peers : List PeerId} (hs : s.Inv) (h : env.Flawless) (hstores : env.Stores stored)
    (hget : env.keystoreGet p = .ok keys) (halone : s.activeReprovides = .emptyLeaf)
    (hpeers : closestPeersToPrefix env p = .ok peers) (hne : peers ≠ []) :
    ∃ s', batchReprovide env p s = some ((), s') ∧
      (NoneSwallowed stored p s s' ↔
        (∀ key, keys = [key] →
          (∃ x ∈ s.schedule.keys, x <+: (vanillaOutcome env key).1) ∨
          ∀ q ∈ s.schedule.keys, q ≠ p → (vanillaOutcome env key).1 <+: q →
            (∀ m ∈ stored, q <+: (mhToBit256 m).bits → mhToBit256 m = mhToBit256 key) ∨
              ∃ x ∈ s.reprovideQueue.queue, x <+: q) ∧
        (individualProvideThreshold < keys.length →
          (coveredPrefix env peers).length < p.length ∨
          (∃ x ∈ s.reprovideQueue.queue, x <+: p ∧ x ≠ p) ∨
          ∀ q ∈ s.schedule.keys, q ≠ p → p <+: q → ∀ m ∈ stored, q <+: (mhToBit256 m).bits →
            coveredPrefix env peers <+: (mhToBit256 m).bits)) := by
  obtain ⟨s', heq, -, hview⟩ := batchReprovide_follow env p hs
  refine ⟨s', heq, ?_⟩
  have hexplore := exploreSwarm_of_peers hpeers hne
  have hclaimed := View.claimed_of_alone (State.view_active_of_alone halone)
    (foundRegions env peers)
  have hloaded := hstores p keys hget
  rw [reprovidePath_of_peers h.opened h.addrs hget hpeers hne] at hview
  match keys with
  | [] =>
    -- nothing leaves the schedule
    have hsame : {x | x ∈ s'.schedule.keys} = {x | x ∈ s.schedule.keys} :=
      congrArg View.scheduled hview
    refine iff_of_true (fun q hq _ hgone => ?_) ⟨by simp, by simp⟩
    exact absurd (hsame ▸ hq : q ∈ {x | x ∈ s'.schedule.keys}) hgone
  | [key] =>
    have hout : individualResult env p [key] = ((vanillaOutcome env key).1, none) := by
      simp [individualResult, vanillaOutcome_ok h]
    have hfew : ¬ individualProvideThreshold < [key].length := by simp [individualProvideThreshold]
    rw [noneSwallowed_individual_iff h (cons_ne_nil key []) hview, hout]
    simp only [mem_singleton, exists_eq_left, hfew, false_implies, and_true,
      cons.injEq, forall_eq', eq_comm (a := mhToBit256 key)]
    exact swallowed_single_iff {x | x ∈ s.reprovideQueue.queue}
  | [key, key'] =>
    -- what is swallowed lies below the prefix, and so do its keys
    have hfew : ¬ individualProvideThreshold < [key, key'].length := by
      simp [individualProvideThreshold]
    rw [noneSwallowed_individual_iff h (cons_ne_nil key [key']) hview]
    refine iff_of_true (fun q hq _ hgone => .inl fun m hm hqm => ?_) ⟨by simp, fun hlt => ?_⟩
    · have hpq : p <+: q := by
        by_contra hpq
        exact hgone (mem_absorb_of_mem hq hpq)
      exact ⟨m, (hloaded m).mpr ⟨hm, hpq.trans hqm⟩, rfl⟩
    · exact absurd hlt hfew
  | key :: key' :: key'' :: rest =>
    have hmany : individualProvideThreshold < (key :: key' :: key'' :: rest).length := by
      simp [individualProvideThreshold]
    rw [if_neg (by simp), if_neg (Nat.not_le.mpr hmany), exploredPath] at hview
    simp only [hmany, true_implies]
    by_cases hlt : (coveredPrefix env peers).length < p.length
    · cases hgetc : env.keystoreGet (coveredPrefix env peers) with
      | error err => exact absurd hgetc (h.keystore _ err)
      | ok allKeys =>
        rw [if_pos hlt, hgetc] at hview
        refine iff_of_true ?_ ⟨by simp, .inl hlt⟩
        refine noneSwallowed_sweep_covered h hexplore allKeys ?_ hs ?_
        · exact fun m hm hc => (hstores _ _ hgetc m).mpr ⟨hm, hc⟩
        · rw [hview, View.follow, hclaimed]
    · rw [if_neg hlt] at hview
      rw [swallowed_sweep_iff h hexplore (Nat.not_lt.mp hlt) hloaded hs]
      · simp [hlt]
      · rw [hview, View.follow, hclaimed]

end Sweep

theorem sampleEnv_flawless (stored : List Multihash) : (sampleEnv stored).Flawless where
  opened := rfl
  addrs := cons_ne_nil _ _
  keystore := fun q err h => by cases h
  lookup := fun k => by
    refine ⟨_, rfl, fun hnil => ?_⟩
    have hlen := congrArg length hnil
    have hsort := length_insertionSort
      (fun p q => xorDistance (keyToBytes (mhToBit256 k).bits) p
        ≤ xorDistance (keyToBytes (mhToBit256 k).bits) q) samplePeers
    rw [length_take, sortByDistance, show (sampleNetwork stored).peers = samplePeers from rfl,
      hsort] at hlen
    exact absurd hlen (by decide)
  send := fun p m => by simp [sampleEnv, Network.env, sampleNetwork]

def siblings : State := sampleState [[false, false], [false, true]]

theorem siblings_inv : siblings.Inv := sampleState_inv (by decide)

theorem siblings_schedule : siblings.schedule.keys = [[false, false], [false, true]] := by
  decide +kernel

theorem batchReprovide_swallows_nothing :
    siblings.Inv ∧ (sampleEnv [[0, 1, 21]]).Flawless ∧
    (sampleEnv [[0, 1, 21]]).Stores {m | m ∈ [[0, 1, 21]]} ∧
    (sampleEnv [[0, 1, 21]]).keystoreGet [false, false] = .ok [[0, 1, 21]] ∧
    @closestPeersToPrefix binaryTrie (sampleEnv [[0, 1, 21]]) [false, false]
      = .ok peersBelowZero ∧
    ∃ s', @batchReprovide binaryTrie (sampleEnv [[0, 1, 21]]) [false, false] siblings
        = some ((), s') ∧
      NoneSwallowed {m | m ∈ [[0, 1, 21]]} [false, false] siblings s' := by
  have hget : (sampleEnv [[0, 1, 21]]).keystoreGet [false, false] = .ok [[0, 1, 21]] := by
    decide +kernel
  have hpeers : @closestPeersToPrefix binaryTrie (sampleEnv [[0, 1, 21]]) [false, false]
      = .ok peersBelowZero := by decide +kernel
  refine ⟨siblings_inv, sampleEnv_flawless _, Network.stores _ _, hget, hpeers, ?_⟩
  obtain ⟨s', heq, hiff⟩ := @batchReprovide_swallows_iff binaryTrie (sampleEnv [[0, 1, 21]])
    [false, false] siblings {m | m ∈ [[0, 1, 21]]} [[0, 1, 21]] peersBelowZero siblings_inv
    (sampleEnv_flawless _) (Network.stores _ _) hget rfl hpeers (by decide)
  refine ⟨s', heq, hiff.mpr ⟨fun key hkey => .inr fun q _ _ _ => .inl fun m hm _ => ?_, ?_⟩⟩
  · rw [cons.injEq] at hkey
    rw [mem_singleton.mp hm, hkey.1]
  · exact fun hlt => absurd hlt (by decide)

/-- `00` and `01` are scheduled, with one stored key each. The lookup for the key below `00` covers
`0`, so that the reprovide of `00` schedules `0` in place of both; the key below `01` is not
sent. -/
theorem batchReprovide_swallows_sibling :
    siblings.Inv ∧ (sampleEnv [[0, 1, 21], [0, 1, 6]]).Flawless ∧
    (sampleEnv [[0, 1, 21], [0, 1, 6]]).Stores {m | m ∈ [[0, 1, 21], [0, 1, 6]]} ∧
    siblings.activeReprovides = .emptyLeaf ∧
    @closestPeersToPrefix binaryTrie (sampleEnv [[0, 1, 21], [0, 1, 6]]) [false, false]
      = .ok peersBelowZero ∧
    ∃ s', @batchReprovide binaryTrie (sampleEnv [[0, 1, 21], [0, 1, 6]]) [false, false] siblings
        = some ((), s') ∧
      ¬ NoneSwallowed {m | m ∈ [[0, 1, 21], [0, 1, 6]]} [false, false] siblings s' := by
  refine ⟨siblings_inv, sampleEnv_flawless _, Network.stores _ _, rfl, by decide +kernel, ?_⟩
  have hrun : (@batchReprovide binaryTrie (sampleEnv [[0, 1, 21], [0, 1, 6]]) [false, false]
      siblings).any (fun r => r.2.schedule.keys == [[false]] && r.2.reprovideQueue.queue == [] &&
        !decide (Handed (newEvents siblings r.2) (mhToBit256 [0, 1, 6]))) = true := by
    decide +kernel
  obtain ⟨⟨⟨⟩, s'⟩, heq, hend⟩ := (Option.any_eq_true _ _).mp hrun
  simp only [Bool.and_eq_true, beq_iff_eq, Bool.not_eq_true', decide_eq_false_iff_not] at hend
  refine ⟨s', heq, fun hnone => ?_⟩
  have hsibling : [false, true] <+: (mhToBit256 [0, 1, 6]).bits := by decide +kernel
  rcases hnone [false, true] (by rw [siblings_schedule]; decide) (by decide)
    (by rw [hend.1.1]; decide) with hsent | hqueued
  · exact hend.2 (hsent [0, 1, 6] (by decide) hsibling)
  · rw [hend.1.2] at hqueued
    simp at hqueued

end KadDht.SweepingProvider
