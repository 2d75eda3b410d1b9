import KadDht.Provider.State

/-!
# Provider — exploring the network (`provider/provider.go`)

`closestPeersToPrefix` looks up keys below a prefix until the lookups cover the prefix, and
`exploreSwarm` organises the peers that were found in regions. Exploring reads and writes none of
the provider's fields.

The regions come from the peers' *common prefix*, which need not be the requested one: it is
shorter when not enough peers match the request, and longer (or elsewhere) when the peers found
happen to share more bits.
-/

namespace KadDht.SweepingProvider

def closestPeersToKey (env : Env) (k : Bitstr) : Except String (List PeerId) :=
  env.getClosestPeers (env.genRandPeerIDWithCPL (keyToBytes k))

/-- The variables of the loop of `closestPeersToPrefix`. -/
structure Exploration where
  pfx : Bitstr
  nextPrefix : Bitstr
  allClosestPeers : List PeerId
  coverageTrie : Trie Bitstr Unit
  noFreshPeersFoundCount : Nat

/-- The inner loop: shorten the prefix until there is a gap, or no bit is left. The first argument
is the number of bits that can be dropped. -/
def shortenUntilGap (env : Env) (coverageTrie : Trie Bitstr Unit) :
    Nat → Bitstr → List Bitstr → Bitstr × List Bitstr
  | 0, pfx, gaps => (pfx, gaps)
  | n + 1, pfx, gaps =>
    if gaps.isEmpty then
      let pfx := pfx.dropLast
      shortenUntilGap env coverageTrie n pfx (trieGaps coverageTrie pfx env.order)
    else (pfx, gaps)

/-- Why the loop is left without an error. -/
inductive StopReason
  /-- `maxConsecutiveNoFreshPeers` lookups in a row found no new peer. -/
  | noFreshPeers
  /-- The prefix is covered and there are enough peers, or the whole keyspace is covered. -/
  | noGap
deriving DecidableEq

/-- How an iteration ends: with an error, out of the loop, or before the next iteration. -/
inductive ExploreOutcome
  | fail (err : String)
  | stop (reason : StopReason) (allClosestPeers : List PeerId) (coverageTrie : Trie Bitstr Unit)
  | next (e : Exploration)

def queriedKey (env : Env) (e : Exploration) : Bit256 :=
  ⟨firstFullKeyWithPrefix e.nextPrefix env.order, length_firstFullKeyWithPrefix _ _⟩

/-- The prefix and the peers that the answer of an iteration's lookup covers. -/
def covered (env : Env) (e : Exploration) (closestPeers : List PeerId) : Bitstr × List PeerId :=
  shortestCoveredPrefix env.sortClosestPeers (queriedKey env e).bits closestPeers

def addPeers (allClosestPeers coveredPeers : List PeerId) : List PeerId :=
  coveredPeers.foldl (fun all p => all.insert p) allClosestPeers

def countNoFreshPeers (e : Exploration) (allClosestPeers : List PeerId) : Nat :=
  if allClosestPeers.length ≤ e.allClosestPeers.length then e.noFreshPeersFoundCount + 1 else 0

variable [TrieLib]

/-- Add a covered prefix to the coverage, unless it is covered already. -/
def coverPrefix (coverageTrie : Trie Bitstr Unit) (coveredPrefix : Bitstr) : Trie Bitstr Unit :=
  if (findPrefixOfKey coverageTrie coveredPrefix).isSome then coverageTrie
  else TrieLib.add (pruneSubtrie coverageTrie coveredPrefix) coveredPrefix ()

/-- The end of an iteration whose lookup found peers. -/
def closeGaps (env : Env) (e : Exploration) (allClosestPeers : List PeerId)
    (coverageTrie : Trie Bitstr Unit) (noFreshPeersFoundCount : Nat) : ExploreOutcome :=
  let gaps := trieGaps coverageTrie e.pfx env.order
  if gaps.isEmpty && allClosestPeers.length ≥ env.replicationFactor then
    .stop .noGap allClosestPeers coverageTrie
  else
    match shortenUntilGap env coverageTrie e.pfx.length e.pfx gaps with
    | (_, []) => .stop .noGap allClosestPeers coverageTrie
    | (pfx, gap :: _) => .next ⟨pfx, gap, allClosestPeers, coverageTrie, noFreshPeersFoundCount⟩

/-- One iteration of the loop of `closestPeersToPrefix`. -/
def exploreStep (env : Env) (e : Exploration) : ExploreOutcome :=
  if env.closed then .fail errClosed
  else if !env.isOnline then .fail "node is offline"
  else
    match closestPeersToKey env (queriedKey env e).bits with
    | .error err => .fail err
    | .ok closestPeers =>
      if closestPeers.isEmpty then .fail "dht lookup did not return any peers"
      else
        let (coveredPrefix, coveredPeers) := covered env e closestPeers
        let allClosestPeers := addPeers e.allClosestPeers coveredPeers
        let noFreshPeersFoundCount := countNoFreshPeers e allClosestPeers
        if noFreshPeersFoundCount ≥ maxConsecutiveNoFreshPeers then
          .stop .noFreshPeers allClosestPeers e.coverageTrie
        else
          closeGaps env e allClosestPeers (coverPrefix e.coverageTrie coveredPrefix)
            noFreshPeersFoundCount

/-- The loop of `closestPeersToPrefix`; the first argument is the number of searches left. -/
def exploreLoop (env : Env) : Nat → Exploration → Except String (List PeerId)
  | 0, e => .ok e.allClosestPeers
  | n + 1, e =>
    match exploreStep env e with
    | .fail err => .error err
    | .stop _ allClosestPeers _ => .ok allClosestPeers
    | .next e => exploreLoop env n e

/-- `closestPeersToPrefix`. The peers are the keys of a map. -/
def closestPeersToPrefix (env : Env) (pfx : Bitstr) : Except String (List PeerId) :=
  (exploreLoop env maxExplorationPrefixSearches ⟨pfx, pfx, [], .emptyLeaf, 0⟩).map
    env.peerOrder.visit

/-- `exploreSwarm`: the regions, and the prefix they cover. -/
def exploreSwarm (env : Env) (pfx : Bitstr) : Except String (List Region × Bitstr) :=
  match closestPeersToPrefix env pfx with
  | .error err => .error ("exploreSwarm '" ++ bitstrString pfx ++ "': " ++ err)
  | .ok peers =>
    if peers.isEmpty then
      .error ("no peers found when exploring prefix " ++ bitstrString pfx)
    else .ok (regionsFromPeers peers env.replicationFactor env.order)

/-! ## What a successful exploration returns -/

def foundRegions (env : Env) (peers : List PeerId) : List Region :=
  (regionsFromPeers peers env.replicationFactor env.order).1

def coveredPrefix (env : Env) (peers : List PeerId) : Bitstr :=
  (regionsFromPeers peers env.replicationFactor env.order).2

variable {env : Env} {pfx c : Bitstr} {regions : List Region}

theorem exploreSwarm_of_peers {peers : List PeerId}
    (hpeers : closestPeersToPrefix env pfx = .ok peers) (hne : peers ≠ []) :
    exploreSwarm env pfx = .ok (foundRegions env peers, coveredPrefix env peers) := by
  simp [exploreSwarm, hpeers, hne, foundRegions, coveredPrefix]

/-- **A successful exploration** found peers, and returns their regions. -/
theorem exploreSwarm_ok {r : List Region × Bitstr} (h : exploreSwarm env pfx = .ok r) :
    ∃ peers, peers ≠ [] ∧ r = regionsFromPeers peers env.replicationFactor env.order := by
  unfold exploreSwarm at h
  split at h
  · cases h
  · next peers _ =>
    split at h
    · cases h
    · next hne => exact ⟨peers, by simpa using hne, (Except.ok.inj h).symm⟩

variable (h : exploreSwarm env pfx = .ok (regions, c))
include h

theorem exploreSwarm_splits : Splits 256 c (regions.map Region.pfx) := by
  obtain ⟨peers, hne, heq⟩ := exploreSwarm_ok h
  have hsplits := regionsFromPeers_splits hne env.replicationFactor_pos env.order
  rwa [← heq] at hsplits

theorem exploreSwarm_disjoint : Separate regions :=
  List.pairwise_map.mp (exploreSwarm_splits h).disjoint

theorem exploreSwarm_region_iff (k : Bit256) :
    (∃ r ∈ regions, r.pfx <+: k.bits) ↔ c <+: k.bits := by
  have hsplits := exploreSwarm_splits h
  constructor
  · intro hex
    obtain ⟨r, hr, hpre⟩ := hex
    exact (hsplits.below _ (List.mem_map_of_mem hr)).trans hpre
  · intro hc
    obtain ⟨x, hx, hpre⟩ := hsplits.covers k.bits k.length_bits hc
    obtain ⟨r, hr, rfl⟩ := List.mem_map.mp hx
    exact ⟨r, hr, hpre⟩

theorem exploreSwarm_peers {r : Region} (hr : r ∈ regions) : r.HasPeers := by
  obtain ⟨peers, -, heq⟩ := exploreSwarm_ok h
  have hmem : r ∈ (regionsFromPeers peers env.replicationFactor env.order).1 := by
    rw [← heq]
    exact hr
  exact regionsFromPeers_peers hmem

end KadDht.SweepingProvider
