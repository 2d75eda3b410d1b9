import KadDht.Provider.Network
import KadDht.Provider.Outcome

/-!
# Provider — does `batchProvide` keep every key?

`batchProvide` sends the keys of its regions, and puts the keys of the regions that fail back in
the provide queue. The regions split the common prefix of the peers found, so a key that does not
start with that prefix is in no region: it is neither sent nor queued.

* **`batchProvide_keeps_iff`** — when all given keys are kept.
-/

namespace KadDht.SweepingProvider

open Abstraction

section Specs

variable [TrieLib]

def provideTrace (env : Env) (p : Bitstr) (extraKeys : List Multihash) (regions : List Region) :
    List Event :=
  [.dequeueMatching extraKeys, .assignKeysToRegions regions] ++ regionsTrace env regions ++
    if regions.countP (regionFails env) < regions.length then []
    else [.warn ("failed to provide any region for prefix " ++ bitstrString p)]

variable {p : Bitstr} {extraKeys : List Multihash}

omit [TrieLib] in
theorem sentWith_provideTrace {wanted : Option String → Bool} {env : Env} {regions : List Region}
    {k : Bit256} :
    SentWith wanted (provideTrace env p extraKeys regions) k ↔
      SentWith wanted (regionsTrace env regions) k := by
  rw [provideTrace, sentWith_append, sentWith_append, or_iff_left, or_iff_right]
  · exact not_sentWith (by simp)
  · exact not_sentWith (by split <;> simp)

/-- The part of `batchProvide` after a successful exploration, in terms of the keys dequeued. -/
theorem View.provideExplored_eq (env : Env) {p c : Bitstr} (keys : List Multihash)
    (regions : List Region) {v : View} {q : ProvideQueue} {extraKeys : List Multihash}
    (hdequeue : v.dequeueMatching c = (extraKeys,
      { v with provideQueue := q, trace := v.trace ++ [.dequeueMatching extraKeys] })) :
    v.provideExplored env p keys regions c =
      { v with
        provideQueue := View.enqueueFailed env (assignKeysToRegions regions (keys ++ extraKeys)) q
        trace := v.trace ++
          provideTrace env p extraKeys (assignKeysToRegions regions (keys ++ extraKeys)) } := by
  unfold View.provideExplored View.provideAssigned provideTrace
  rw [hdequeue]
  simp only [View.provideRegions_provide]
  split <;> simp [View.emitAll]

/-- **The keys that are kept.** On return a key is sent or queued exactly when it was waiting in
the queue, or is given and starts with the covered prefix. -/
theorem provideExplored_kept_iff {env : Env} {c : Bitstr} {regions : List Region}
    (hexplore : exploreSwarm env p = .ok (regions, c)) (keys : List Multihash) {old : Set Bit256}
    {q : ProvideQueue} (hq : q.Inv) (hqkeys : ∀ k, k ∈ q.keys.keys ↔ k ∈ old ∧ ¬ c <+: k.bits)
    (hextra : ∀ k, (∃ m ∈ extraKeys, mhToBit256 m = k) ↔ k ∈ old ∧ c <+: k.bits) (k : Bit256) :
    (Sent (provideTrace env p extraKeys (assignKeysToRegions regions (keys ++ extraKeys))) k
        ∨ k ∈ (View.enqueueFailed env
          (assignKeysToRegions regions (keys ++ extraKeys)) q).keys.keys) ↔
      k ∈ old ∨ ((∃ m ∈ keys, mhToBit256 m = k) ∧ c <+: k.bits) := by
  have hdisj := exploreSwarm_disjoint hexplore
  set assigned := assignKeysToRegions regions (keys ++ extraKeys) with hassigned
  have hmatch : ∀ r ∈ assigned, r.KeysMatch := fun r => keysMatch_assignKeysToRegions hdisj _
  -- the keys of the regions are the given and the dequeued ones below the covered prefix
  have hregions : (∃ r ∈ assigned, k ∈ r.keys.keys) ↔
      ((∃ m ∈ keys, mhToBit256 m = k) ∨ k ∈ old) ∧ c <+: k.bits := by
    rw [hassigned, exists_assigned_iff hdisj, exploreSwarm_region_iff hexplore]
    simp only [List.mem_append, or_and_right, exists_or, hextra, and_assoc, and_self]
  -- each of them is sent or queued
  have hkept : (Sent (provideTrace env p extraKeys assigned) k ∨
        k ∈ (View.enqueueFailed env assigned q).keys.keys) ↔
      k ∈ q.keys.keys ∨ ∃ r ∈ assigned, k ∈ r.keys.keys := by
    rw [Sent, sentWith_provideTrace,
      sentWith_regionsTrace (fun r => exploreSwarm_peers hexplore) hdisj,
      (View.enqueueFailed_spec env hmatch hq).2]
    constructor
    · rintro (⟨r, hr, -, hk⟩ | hk | ⟨r, hr, -, hk⟩)
      · exact .inr ⟨r, hr, hk⟩
      · exact .inl hk
      · exact .inr ⟨r, hr, hk⟩
    · rintro (hk | ⟨r, hr, hk⟩)
      · exact .inr (.inl hk)
      · rcases sent_or_fails (hmatch r hr) env hk with hsent | hfails
        · exact .inl ⟨r, hr, hsent, hk⟩
        · exact .inr (.inr ⟨r, hr, hfails, hk⟩)
  rw [hkept, hqkeys, hregions]
  by_cases hc : c <+: k.bits
  · simp [hc, or_comm]
  · simp [hc]

/-- **No key is lost, except outside the peers' common prefix.** -/
theorem batchProvide_keeps_iff {env : Env} {pfx : Bitstr} {keys : List Multihash} {s : State}
    {peers : List PeerId} (hs : s.Inv) (haddr : env.selfAddrs ≠ [])
    (hmany : individualProvideThreshold < keys.length)
    (hmatch : ∀ m ∈ keys, pfx <+: (mhToBit256 m).bits)
    (hpeers : closestPeersToPrefix env pfx = .ok peers) (hne : peers ≠ []) :
    ∃ s', batchProvide env pfx keys s = some ((), s') ∧
      ((∀ m, (m ∈ keys ∨ ∃ extraKeys, .dequeueMatching extraKeys ∈ newEvents s s' ∧ m ∈ extraKeys) →
          Sent (newEvents s s') (mhToBit256 m) ∨
            mhToBit256 m ∈ s'.provideQueue.keys.keys) ↔
        ∀ m ∈ keys, mhToBit256 m ∈ s.provideQueue.keys.keys ∨
          ∀ b, (∀ p ∈ peers, b <+: (peerIDToBit256 p).bits) → b <+: (mhToBit256 m).bits) := by
  obtain ⟨s', heq, -, hview⟩ := simulates_batchProvide env hmatch s hs
  refine ⟨s', heq, ?_⟩
  have hexplore := exploreSwarm_of_peers hpeers hne
  set regions := foundRegions env peers
  set c := coveredPrefix env peers
  obtain ⟨q, extraKeys, hdequeue, hqinv, hqkeys, hextra⟩ :=
    View.dequeueMatching_spec (v := s.view) hs.provideQueue c
  have hexplored : s'.view = s.view.provideExplored env pfx keys regions c := by
    have hkeys : keys.isEmpty = false := by
      cases keys with
      | nil => simp at hmany
      | cons m rest => rfl
    rw [← sweeping_view, hview]
    simp [View.batchProvide, hkeys, haddr, hexplore, Nat.not_le.mpr hmany]
  rw [View.provideExplored_eq env keys regions hdequeue] at hexplored
  set assigned := assignKeysToRegions regions (keys ++ extraKeys)
  have hqueue : s'.provideQueue = View.enqueueFailed env assigned q :=
    congrArg View.provideQueue hexplored
  have hnew : newEvents s s' = provideTrace env pfx extraKeys assigned :=
    newEvents_eq (congrArg View.trace hexplored)
  have hkept := provideExplored_kept_iff hexplore keys hqinv hqkeys hextra
  -- only one `DequeueMatching` is recorded
  have hdequeued : ∀ ks, .dequeueMatching ks ∈ newEvents s s' ↔ ks = extraKeys := by
    intro ks
    have hregions : .dequeueMatching ks ∉ regionsTrace env assigned := fun hmem =>
      Bool.false_ne_true (ofSending_regionsTrace hmem)
    rw [hnew, provideTrace]
    split <;> simp [hregions]
  rw [hqueue, hnew]
  have hshared : ∀ m, c <+: (mhToBit256 m).bits ↔
      ∀ b, (∀ p ∈ peers, b <+: (peerIDToBit256 p).bits) → b <+: (mhToBit256 m).bits := by
    intro m
    have hcommon := regionsFromPeers_commonPrefix hne env.replicationFactor env.order
    constructor
    · exact fun hcm b hb => ((hcommon b).mpr hb).trans hcm
    · exact fun hall => hall c ((hcommon c).mp List.prefix_rfl)
  constructor
  · intro hall m hm
    rw [← hshared]
    exact ((hkept _).mp (hall m (.inl hm))).imp_right And.right
  · intro hcond m hm
    refine (hkept _).mpr ?_
    rcases hm with hm | ⟨ks, hks, hm⟩
    · rcases hcond m hm with hold | hcm
      · exact .inl hold
      · exact .inr ⟨⟨m, hm, rfl⟩, (hshared m).mpr hcm⟩
    · rw [← hnew, hdequeued] at hks
      exact .inl ((hextra _).mp ⟨m, hks ▸ hm, rfl⟩).1

end Specs

/-- The environment of the three sample peers; providing needs no keystore. -/
def provideEnv : Env := sampleEnv []

theorem provideEnv_peers :
    @closestPeersToPrefix binaryTrie provideEnv [false] = .ok peersBelowZero := by
  decide +kernel

theorem batchProvide_keeps_coveredKeys :
    State.new.Inv ∧ provideEnv.selfAddrs ≠ [] ∧ individualProvideThreshold < coveredKeys.length ∧
    (∀ m ∈ coveredKeys, [false] <+: (mhToBit256 m).bits) ∧
    @closestPeersToPrefix binaryTrie provideEnv [false] = .ok peersBelowZero ∧
    ∃ s', @batchProvide binaryTrie provideEnv [false] coveredKeys State.new = some ((), s') ∧
      ∀ m, (m ∈ coveredKeys ∨ ∃ extraKeys,
          .dequeueMatching extraKeys ∈ newEvents State.new s' ∧ m ∈ extraKeys) →
        Sent (newEvents State.new s') (mhToBit256 m) ∨
          mhToBit256 m ∈ s'.provideQueue.keys.keys := by
  have haddr : provideEnv.selfAddrs ≠ [] := by decide
  have hkeys : ∀ m ∈ coveredKeys, [false] <+: (mhToBit256 m).bits := fun m hm =>
    List.IsPrefix.trans (by decide) (coveredKeys_below m hm)
  refine ⟨State.inv_new, haddr, by decide, hkeys, provideEnv_peers, ?_⟩
  obtain ⟨s', heq, hiff⟩ := @batchProvide_keeps_iff binaryTrie provideEnv [false] coveredKeys
    State.new peersBelowZero State.inv_new haddr (by decide) hkeys
    provideEnv_peers (by decide)
  refine ⟨s', heq, hiff.mpr fun m hm => .inr fun b hb => ?_⟩
  -- the two peers share no more than `00`
  have hcommon := (@regionsFromPeers_commonPrefix binaryTrie peersBelowZero (by decide) 2
    sampleConfig.order b).mpr hb
  have hshared : (@regionsFromPeers binaryTrie peersBelowZero 2 sampleConfig.order).2
      = [false, false] := by decide +kernel
  rw [hshared] at hcommon
  exact hcommon.trans (coveredKeys_below m hm)

/-- The peers found below `0` share the prefix `00`: of three keys below `0`, the one below `01` is
neither sent nor queued. -/
theorem batchProvide_drops_key :
    State.new.Inv ∧ provideEnv.selfAddrs ≠ [] ∧ individualProvideThreshold < uncoveredKeys.length ∧
    (∀ m ∈ uncoveredKeys, [false] <+: (mhToBit256 m).bits) ∧
    @closestPeersToPrefix binaryTrie provideEnv [false] = .ok peersBelowZero ∧
    ∃ s', @batchProvide binaryTrie provideEnv [false] uncoveredKeys State.new = some ((), s') ∧
      [0, 1, 6] ∈ uncoveredKeys ∧ ¬ Sent (newEvents State.new s') (mhToBit256 [0, 1, 6]) ∧
      mhToBit256 [0, 1, 6] ∉ s'.provideQueue.keys.keys := by
  refine ⟨State.inv_new, by decide, by decide, by decide +kernel, provideEnv_peers, ?_⟩
  have hrun : (@batchProvide binaryTrie provideEnv [false] uncoveredKeys State.new).any (fun r =>
      !decide (Sent (newEvents State.new r.2) (mhToBit256 [0, 1, 6])) &&
        !decide (mhToBit256 [0, 1, 6] ∈ r.2.provideQueue.keys.keys)) = true := by
    decide +kernel
  obtain ⟨⟨⟨⟩, s'⟩, heq, hlost⟩ := (Option.any_eq_true _ _).mp hrun
  simp only [Bool.and_eq_true, Bool.not_eq_true', decide_eq_false_iff_not] at hlost
  exact ⟨s', heq, by decide, hlost.1, hlost.2⟩

end KadDht.SweepingProvider
