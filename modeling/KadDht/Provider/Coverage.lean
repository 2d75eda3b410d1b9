import KadDht.Provider.Network
import KadDht.Provider.Reprovide

/-!
# Provider — does the schedule keep covering the stored keys?

A reprovide takes what lies below its prefix out of the schedule and out of the reprovide queue,
and schedules the regions it found instead. A stored key stays covered by one of them as long as
it falls into such a region.

* **`batchReprovide_covers_iff`** — when all keys stay covered.
-/

namespace KadDht.SweepingProvider

open Abstraction

/-- The bit string is covered by the schedule or by the reprovide queue. -/
def View.Covered (v : View) (k : Bitstr) : Prop :=
  Covers v.scheduled k ∨ Covers {x | x ∈ v.reprovideQueue} k

theorem failedPrefixes_subset (env : Env) (regions : List Region) :
    failedPrefixes env regions ⊆ livePrefixes regions := by
  intro x hx
  obtain ⟨r, hr, rfl⟩ := List.mem_map.mp hx
  obtain ⟨hmem, hfails⟩ := List.mem_filter.mp hr
  refine List.mem_map_of_mem (List.mem_filter.mpr ⟨hmem, ?_⟩)
  exact (Bool.and_eq_true _ _ ▸ hfails : _ ∧ _).1

/-- The reprovide queue after a sweep, as a set: what was not below the prefix, and the regions
that could not be sent. -/
theorem setOf_sweptQueue {l : List Bitstr} (hfree : PrefixFree {x | x ∈ l}) (p : Bitstr)
    (failed : List Bitstr) :
    {x | x ∈ failed.foldl pushPrefix (l.filter fun x => !p.isPrefixOf x)}
      = absorbAll {x | x ∈ l ∧ ¬ p <+: x} failed := by
  have hkept : {x | x ∈ l.filter fun x => !p.isPrefixOf x} = {x | x ∈ l ∧ ¬ p <+: x} := by
    ext x
    simp [List.mem_filter, ← List.isPrefixOf_iff_prefix]
  rw [setOf_foldl_pushPrefix (hkept ▸ hfree.mono fun x hx => hx.1), hkept]

section Specs

variable [TrieLib]

variable {env : Env} {p : Bitstr} {v : View} {keys : List Multihash}

theorem View.covered_reprovideClaimed (keys : List Multihash) (claimed : List Region)
    (hq : v.provideQueue.Inv) (hfree : PrefixFree {x | x ∈ v.reprovideQueue}) (k : Bitstr) :
    (v.reprovideClaimed env p keys claimed).Covered k ↔
      (∃ x, (x ∈ v.scheduled ∨ x ∈ v.reprovideQueue) ∧ ¬ p <+: x ∧ x <+: k) ∨
        ∃ x ∈ livePrefixes (assignKeysToRegions claimed keys), x <+: k := by
  obtain ⟨q, dequeued, hdequeue, -⟩ := View.dequeueMatching_spec hq p
  rw [View.sweep_eq env p keys claimed hdequeue]
  rw [View.Covered, setOf_sweptQueue hfree, covers_absorbAll, covers_absorbAll]
  constructor
  · rintro ((⟨x, hx, hxk⟩ | hlive) | ⟨x, hx, hxk⟩ | ⟨x, hx, hxk⟩)
    · exact .inl ⟨x, .inl hx.1, hx.2, hxk⟩
    · exact .inr hlive
    · exact .inl ⟨x, .inr hx.1, hx.2, hxk⟩
    · exact .inr ⟨x, failedPrefixes_subset env _ hx, hxk⟩
  · rintro (⟨x, hx | hx, hpx, hxk⟩ | hlive)
    · exact .inl (.inl ⟨x, ⟨hx, hpx⟩, hxk⟩)
    · exact .inr (.inl ⟨x, ⟨hx, hpx⟩, hxk⟩)
    · exact .inl (.inr hlive)

/-- **A loaded key after a sweep**: it is covered by something not below the prefix, or it falls
into a claimed region. -/
theorem View.covered_sweep_iff {claimed : List Region} (hdisj : Separate claimed)
    (hq : v.provideQueue.Inv) (hfree : PrefixFree {x | x ∈ v.reprovideQueue}) {m : Multihash}
    (hm : m ∈ keys) :
    (v.reprovideClaimed env p keys claimed).Covered (mhToBit256 m).bits ↔
      (∃ x, (x ∈ v.scheduled ∨ x ∈ v.reprovideQueue) ∧ ¬ p <+: x ∧ x <+: (mhToBit256 m).bits) ∨
        ∃ r ∈ claimed, r.pfx <+: (mhToBit256 m).bits := by
  rw [View.covered_reprovideClaimed keys claimed hq hfree, covered_livePrefixes hdisj hm]

omit [TrieLib] in
theorem View.covered_finishReprovide {err : Option String} {k : Bitstr} (h : Covers v.scheduled k) :
    (v.finishReprovide p err).Covered k := by
  have habsorb : Covers (absorb v.scheduled p) k := covers_absorb.mpr (.inl h)
  cases err with
  | none | some err => exact .inl habsorb

omit [TrieLib] in
theorem View.claimed_of_alone (halone : v.active = ∅) (regions : List Region) :
    v.claimed regions = regions := by
  refine List.filter_eq_self.mpr fun r _ => ?_
  simp [halone, Covers]

theorem View.covered_individualProvide (hne : keys ≠ []) {k : Bitstr} (h : Covers v.scheduled k) :
    (v.individualProvide env p keys true).Covered k := by
  rw [View.individualProvide_reprovide env p hne]
  exact View.covered_finishReprovide h

omit [TrieLib] in
theorem State.view_active_of_alone {s : State} (halone : s.activeReprovides = .emptyLeaf) :
    s.view.active = ∅ := by
  simp [State.view, halone]

theorem View.covered_sweep_covered {c : Bitstr} {regions : List Region}
    (hexplore : exploreSwarm env p = .ok (regions, c)) (hq : v.provideQueue.Inv)
    (hfree : PrefixFree {x | x ∈ v.reprovideQueue}) {m : Multihash}
    (hloaded : c <+: (mhToBit256 m).bits → m ∈ keys)
    (hcov : Covers v.scheduled (mhToBit256 m).bits) :
    (v.reprovideClaimed env c keys regions).Covered (mhToBit256 m).bits := by
  by_cases hc : c <+: (mhToBit256 m).bits
  · rw [View.covered_sweep_iff (exploreSwarm_disjoint hexplore) hq hfree (hloaded hc)]
    exact .inr ((exploreSwarm_region_iff hexplore _).mpr hc)
  · -- what covers the key is not below the covered prefix
    obtain ⟨x, hx, hxm⟩ := hcov
    rw [View.covered_reprovideClaimed keys regions hq hfree]
    exact .inl ⟨x, .inl hx, fun hcx => hc (hcx.trans hxm), hxm⟩

/-- **Coverage is preserved**, except for keys outside the peers' common prefix. -/
theorem batchReprovide_covers_iff {env : Env} {p : Bitstr} {s : State} {stored : Set Multihash}
    {keys : List Multihash} {peers : List PeerId} (hs : s.Inv) (hopen : env.closed = false)
    (haddr : env.selfAddrs ≠ []) (hstores : env.Stores stored)
    (hnoerr : ∀ q err, env.keystoreGet q ≠ .error err) (hget : env.keystoreGet p = .ok keys)
    (halone : s.activeReprovides = .emptyLeaf) (hpeers : closestPeersToPrefix env p = .ok peers)
    (hne : peers ≠ [])
    (hcov : ∀ m ∈ stored, (p <+: (mhToBit256 m).bits ∨
        ((coveredPrefix env peers).length < p.length ∧
          coveredPrefix env peers <+: (mhToBit256 m).bits)) →
      ∃ x ∈ s.schedule.keys, x <+: (mhToBit256 m).bits) :
    ∃ s', batchReprovide env p s = some ((), s') ∧
      ((∀ m ∈ stored, (p <+: (mhToBit256 m).bits ∨
            ((coveredPrefix env peers).length < p.length ∧
              coveredPrefix env peers <+: (mhToBit256 m).bits)) →
          (∃ x ∈ s'.schedule.keys, x <+: (mhToBit256 m).bits) ∨
            ∃ x ∈ s'.reprovideQueue.queue, x <+: (mhToBit256 m).bits) ↔
        (keys.length ≤ individualProvideThreshold ∨ (coveredPrefix env peers).length < p.length ∨
          (∃ x, (x ∈ s.schedule.keys ∨ x ∈ s.reprovideQueue.queue) ∧ x <+: p ∧ x ≠ p) ∨
          ∀ m ∈ stored, p <+: (mhToBit256 m).bits →
            coveredPrefix env peers <+: (mhToBit256 m).bits)) := by
  obtain ⟨s', heq, -, hview⟩ := batchReprovide_follow env p hs
  refine ⟨s', heq, ?_⟩
  have hexplore := exploreSwarm_of_peers hpeers hne
  have hpath := reprovidePath_of_peers hopen haddr hget hpeers hne
  set c := coveredPrefix env peers
  set regions := foundRegions env peers
  have hq : s.view.provideQueue.Inv := hs.provideQueue
  have hfree := hs.prefixFree_reprovideQueue
  have hclaimed := View.claimed_of_alone (State.view_active_of_alone halone) regions
  show (∀ m ∈ stored, _ → s'.view.Covered (mhToBit256 m).bits) ↔ _
  by_cases hempty : keys.isEmpty = true
  · -- nothing is done
    rw [hpath, if_pos hempty] at hview
    have hlen : keys.length ≤ individualProvideThreshold := by
      simp [List.isEmpty_iff.mp hempty]
    exact ⟨fun _ => .inl hlen, fun _ m hm hp => .inl (hview ▸ hcov m hm hp)⟩
  by_cases hfew : keys.length ≤ individualProvideThreshold
  · -- a few keys are provided one by one
    rw [hpath, if_neg hempty, if_pos hfew] at hview
    refine ⟨fun _ => .inl hfew, fun _ m hm hp => ?_⟩
    rw [hview]
    exact View.covered_individualProvide (by simpa using hempty) (hcov m hm hp)
  rw [hpath, if_neg hempty, if_neg hfew, exploredPath] at hview
  by_cases hlt : c.length < p.length
  · -- all keys below the covered prefix are loaded
    cases hgetc : env.keystoreGet c with
    | error err => exact absurd hgetc (hnoerr c err)
    | ok allKeys =>
      rw [if_pos hlt, hgetc] at hview
      refine ⟨fun _ => .inr (.inl hlt), fun _ m hm hp => ?_⟩
      rw [hview, View.follow, hclaimed]
      exact View.covered_sweep_covered (v := s.view.claim regions) hexplore hq hfree
        (fun hc => (hstores c allKeys hgetc m).mpr ⟨hm, hc⟩) (hcov m hm hp)
  · rw [if_neg hlt] at hview
    have hkey : ∀ m ∈ stored, p <+: (mhToBit256 m).bits → (s'.view.Covered (mhToBit256 m).bits ↔
        (∃ x, (x ∈ s.schedule.keys ∨ x ∈ s.reprovideQueue.queue) ∧ x <+: p ∧ x ≠ p) ∨
          c <+: (mhToBit256 m).bits) := by
      intro m hm hp
      have hloaded : m ∈ keys := (hstores p keys hget m).mpr ⟨hm, hp⟩
      rw [hview, View.follow, hclaimed, View.covered_sweep_iff (v := s.view.claim regions)
        (exploreSwarm_disjoint hexplore) hq hfree hloaded, exploreSwarm_region_iff hexplore]
      refine or_congr_left (exists_congr fun x => and_congr_right fun _ => ?_)
      exact ⟨fun h => proper_of_prefixes h.2 hp h.1,
        fun h => ⟨fun hpx => h.2 (prefix_antisymm h.1 hpx), h.1.trans hp⟩⟩
    constructor
    · intro hall
      by_cases habove : ∃ x, (x ∈ s.schedule.keys ∨ x ∈ s.reprovideQueue.queue) ∧ x <+: p ∧ x ≠ p
      · exact .inr (.inr (.inl habove))
      · refine .inr (.inr (.inr fun m hm hp => ?_))
        exact ((hkey m hm hp).mp (hall m hm (.inl hp))).resolve_left habove
    · intro hcond m hm hp
      have hp : p <+: (mhToBit256 m).bits := hp.resolve_right fun h => hlt h.1
      rw [hkey m hm hp]
      rcases hcond with hlen | hlen | habove | hall
      · exact absurd hlen hfew
      · exact absurd hlen hlt
      · exact .inl habove
      · exact .inr (hall m hm hp)

end Specs

theorem coveredKeys_stay_covered :
    (sampleState [[false]]).Inv ∧ (sampleEnv coveredKeys).Stores {m | m ∈ coveredKeys} ∧
    (sampleEnv coveredKeys).keystoreGet [false] = .ok coveredKeys ∧
    @closestPeersToPrefix binaryTrie (sampleEnv coveredKeys) [false] = .ok peersBelowZero ∧
    ∃ s', @batchReprovide binaryTrie (sampleEnv coveredKeys) [false] (sampleState [[false]])
        = some ((), s') ∧
      ∀ m ∈ coveredKeys, [false] <+: (mhToBit256 m).bits →
        (∃ x ∈ s'.schedule.keys, x <+: (mhToBit256 m).bits) ∨
          ∃ x ∈ s'.reprovideQueue.queue, x <+: (mhToBit256 m).bits := by
  have hstores : (sampleEnv coveredKeys).Stores {m | m ∈ coveredKeys} := Network.stores _ _
  have hget : (sampleEnv coveredKeys).keystoreGet [false] = .ok coveredKeys := by decide +kernel
  have hpeers : @closestPeersToPrefix binaryTrie (sampleEnv coveredKeys) [false]
      = .ok peersBelowZero := by decide +kernel
  have hc : @coveredPrefix binaryTrie (sampleEnv coveredKeys) peersBelowZero = [false, false] := by
    decide +kernel
  refine ⟨sampleState_inv (by decide), hstores, hget, hpeers, ?_⟩
  obtain ⟨s', heq, hiff⟩ := @batchReprovide_covers_iff binaryTrie (sampleEnv coveredKeys) [false]
    (sampleState [[false]]) {m | m ∈ coveredKeys} coveredKeys peersBelowZero
    (sampleState_inv (by decide)) rfl
    (by decide) hstores (fun q err h => by cases h) hget rfl hpeers (by decide)
    fun m hm _ =>
      ⟨[false], by decide +kernel, List.IsPrefix.trans (by decide) (coveredKeys_below m hm)⟩
  have hcovered := hiff.mpr (.inr (.inr (.inr fun m hm _ => hc ▸ coveredKeys_below m hm)))
  exact ⟨s', heq, fun m hm hp => hcovered m hm (.inl hp)⟩

/-- `0` is the only scheduled prefix. Its reprovide finds peers below `00` only and schedules `00`
instead, so that nothing covers the stored key below `01` any more. -/
theorem batchReprovide_uncovers_key :
    (sampleState [[false]]).Inv ∧ (sampleEnv uncoveredKeys).closed = false ∧
    (sampleEnv uncoveredKeys).selfAddrs ≠ [] ∧
    (sampleEnv uncoveredKeys).Stores {m | m ∈ uncoveredKeys} ∧
    (sampleState [[false]]).activeReprovides = .emptyLeaf ∧
    @closestPeersToPrefix binaryTrie (sampleEnv uncoveredKeys) [false] = .ok peersBelowZero ∧
    (@coveredPrefix binaryTrie (sampleEnv uncoveredKeys) peersBelowZero).length ≥ 1 ∧
    (∀ m ∈ uncoveredKeys, [false] <+: (mhToBit256 m).bits) ∧
    (∀ m ∈ uncoveredKeys, ∃ x ∈ (sampleState [[false]]).schedule.keys, x <+: (mhToBit256 m).bits) ∧
    ∃ s', @batchReprovide binaryTrie (sampleEnv uncoveredKeys) [false] (sampleState [[false]])
        = some ((), s') ∧
      ∃ m ∈ uncoveredKeys, (∀ x ∈ s'.schedule.keys, ¬ x <+: (mhToBit256 m).bits) ∧
        ∀ x ∈ s'.reprovideQueue.queue, ¬ x <+: (mhToBit256 m).bits := by
  refine ⟨sampleState_inv (by decide), rfl, by decide, Network.stores _ _, rfl, by decide +kernel,
    by decide +kernel, by decide +kernel, by decide +kernel, ?_⟩
  have hrun : (@batchReprovide binaryTrie (sampleEnv uncoveredKeys) [false]
      (sampleState [[false]])).any (fun r =>
        r.2.schedule.keys == [[false, false]] && r.2.reprovideQueue.queue == []) = true := by
    decide +kernel
  obtain ⟨⟨⟨⟩, s'⟩, heq, hend⟩ := (Option.any_eq_true _ _).mp hrun
  obtain ⟨hsched, hqueue⟩ := Bool.and_eq_true _ _ ▸ hend
  have hsched : s'.schedule.keys = [[false, false]] := beq_iff_eq.mp hsched
  have hqueue : s'.reprovideQueue.queue = [] := beq_iff_eq.mp hqueue
  refine ⟨s', heq, [0, 1, 6], by decide, ?_, ?_⟩
  · rw [hsched]
    decide +kernel
  · simp [hqueue]

end KadDht.SweepingProvider
