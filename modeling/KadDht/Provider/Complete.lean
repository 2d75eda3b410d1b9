import KadDht.Keyspace.Covered
import KadDht.Keyspace.Gaps
import KadDht.Provider.Explore
import KadDht.Provider.Network

/-!
# Provider — the exploration is complete (`provider/provider.go`)

Each iteration of `closestPeersToPrefix` looks up one key, adds the peers found to those known and
the prefix they cover to the coverage. The peers known are then all peers of the network below the
coverage. If the loop stops because the coverage has no gap, nothing below the requested prefix is
missing.

This holds of a network that stays as it is while it is explored, with lookups that return the
closest peers, and for keys that are not the identifier of a peer.

* **`closestPeersToPrefix_complete`** — the result.
-/

namespace KadDht.SweepingProvider

open List

variable {env : Env}

/-! ## One iteration -/

def ExploreOutcome.isNoGap : ExploreOutcome → Bool
  | .stop .noGap _ _ => true
  | _ => false

theorem ExploreOutcome.isNoGap_iff {o : ExploreOutcome} :
    o.isNoGap = true ↔ ∃ all coverageTrie, o = .stop .noGap all coverageTrie := by
  constructor
  · intro h
    cases o with
    | stop reason all coverageTrie =>
      cases reason with
      | noGap => exact ⟨all, coverageTrie, rfl⟩
      | noFreshPeers => cases h
    | fail err => cases h
    | next e => cases h
  · rintro ⟨all, coverageTrie, rfl⟩
    rfl

section Step

variable [TrieLib] {n : Nat}

/-- **What an iteration does**: it fails, or its lookup found peers. These are added to the peers
known; then the loop is left, or the prefix they cover is added to the coverage. -/
theorem exploreStep_cases (env : Env) (e : Exploration) :
    (∃ err, exploreStep env e = .fail err) ∨
      ∃ peers, closestPeersToKey env (queriedKey env e).bits = .ok peers ∧ peers ≠ [] ∧
        (exploreStep env e = .stop .noFreshPeers
            (addPeers e.allClosestPeers (covered env e peers).2) e.coverageTrie ∨
          ∃ count, exploreStep env e = closeGaps env e
            (addPeers e.allClosestPeers (covered env e peers).2)
            (coverPrefix e.coverageTrie (covered env e peers).1) count) := by
  unfold exploreStep
  split
  · exact .inl ⟨_, rfl⟩
  split
  · exact .inl ⟨_, rfl⟩
  split
  · exact .inl ⟨_, rfl⟩
  next peers hpeers =>
    split
    · exact .inl ⟨_, rfl⟩
    next hne =>
      refine .inr ⟨peers, hpeers, by simpa using hne, ?_⟩
      dsimp only
      split
      · exact .inl rfl
      · exact .inr ⟨_, rfl⟩

omit [TrieLib] in
theorem shortenUntilGap_spec (env : Env) (coverageTrie : Trie Bitstr Unit) {pfx : Bitstr}
    (hn : pfx.length = n) :
    ∃ pfx', shortenUntilGap env coverageTrie n pfx (trieGaps coverageTrie pfx env.order) =
        (pfx', trieGaps coverageTrie pfx' env.order) ∧ pfx' <+: pfx ∧
      (trieGaps coverageTrie pfx' env.order = [] → pfx' = []) := by
  induction n generalizing pfx with
  | zero => exact ⟨pfx, rfl, prefix_rfl, fun _ => eq_nil_of_length_eq_zero hn⟩
  | succ n ih =>
    unfold shortenUntilGap
    split
    · have hlen : pfx.dropLast.length = n := by simp [hn]
      obtain ⟨pfx', heq, hpre, hnil⟩ := ih hlen
      exact ⟨pfx', heq, hpre.trans (List.dropLast_prefix pfx), hnil⟩
    · next hgaps =>
      refine ⟨pfx, rfl, prefix_rfl, fun hnil => absurd ?_ hgaps⟩
      rw [hnil]
      rfl

omit [TrieLib] in
/-- **When the loop ends for want of a gap**: the prefix is covered and there are enough peers, or
the whole keyspace is covered. Otherwise it goes on below a prefix of the current one. -/
theorem closeGaps_cases (env : Env) (e : Exploration) (all : List PeerId)
    (coverageTrie : Trie Bitstr Unit) (count : Nat) :
    closeGaps env e all coverageTrie count = .stop .noGap all coverageTrie ∧
        (trieGaps coverageTrie e.pfx env.order = [] ∧ env.replicationFactor ≤ all.length ∨
          trieGaps coverageTrie [] env.order = []) ∨
      ∃ pfx gap, pfx <+: e.pfx ∧
        closeGaps env e all coverageTrie count = .next ⟨pfx, gap, all, coverageTrie, count⟩ := by
  simp only [closeGaps]
  split
  · next henough =>
    rw [Bool.and_eq_true, List.isEmpty_iff, decide_eq_true_iff] at henough
    exact .inl ⟨rfl, .inl henough⟩
  · obtain ⟨pfx, heq, hpre, hnil⟩ := shortenUntilGap_spec env coverageTrie (rfl : e.pfx.length = _)
    rw [heq]
    cases hgaps : trieGaps coverageTrie pfx env.order with
    | nil =>
      refine .inl ⟨rfl, .inr ?_⟩
      rwa [hnil hgaps] at hgaps
    | cons gap rest => exact .inr ⟨pfx, gap, hpre, rfl⟩

end Step

/-! ## The invariant

What is below the coverage is known. A lookup keeps this: the peers that it returns are all those
below the prefix that is then added. -/

@[simp] theorem mem_addPeers {all peers : List PeerId} {p : PeerId} :
    p ∈ addPeers all peers ↔ p ∈ all ∨ p ∈ peers := mem_foldl_insert

theorem nodup_addPeers {all : List PeerId} (h : all.Nodup) (peers : List PeerId) :
    (addPeers all peers).Nodup := by
  induction peers generalizing all with
  | nil => exact h
  | cons q peers ih => exact ih (h.insert)

def Complete (net : Finset PeerId) (allClosestPeers : List PeerId)
    (coverageTrie : Trie Bitstr Unit) : Prop :=
  ∀ c ∈ coverageTrie.keys, ∀ p ∈ net, c <+: (peerIDToBit256 p).bits → p ∈ allClosestPeers

/-- What an exploration knows of the network: some of its peers, and all below the coverage. -/
structure Knows (net : Finset PeerId) (allClosestPeers : List PeerId)
    (coverageTrie : Trie Bitstr Unit) : Prop where
  wf : coverageTrie.WF
  short : ∀ c ∈ coverageTrie.keys, c.length ≤ 256
  nodup : allClosestPeers.Nodup
  subset : ∀ p ∈ allClosestPeers, p ∈ net
  complete : Complete net allClosestPeers coverageTrie

namespace Knows

variable {net : Finset PeerId} {all peers : List PeerId} {coverageTrie : Trie Bitstr Unit}

theorem nothing (net : Finset PeerId) : Knows net [] .emptyLeaf where
  wf := Trie.wf_emptyLeaf
  short := fun c hc => by simp at hc
  nodup := nodup_nil
  subset := fun p hp => by simp at hp
  complete := fun c hc => by simp at hc

theorem addPeers (h : Knows net all coverageTrie) (hnet : ∀ p ∈ peers, p ∈ net) :
    Knows net (addPeers all peers) coverageTrie where
  __ := h
  nodup := nodup_addPeers h.nodup peers
  subset := fun p hp => (mem_addPeers.mp hp).elim (h.subset p) (hnet p)
  complete := fun c hc p hp hpre => mem_addPeers.mpr (.inl (h.complete c hc p hp hpre))

/-- A prefix is added to the coverage once the peers below it are known. -/
theorem coverPrefix [TrieLib] (h : Knows net all coverageTrie) {pfx : Bitstr}
    (hshort : pfx.length ≤ 256)
    (hall : ∀ p ∈ net, pfx <+: (peerIDToBit256 p).bits → p ∈ all) :
    Knows net all (coverPrefix coverageTrie pfx) := by
  unfold SweepingProvider.coverPrefix
  split
  · exact h
  · next hnone =>
    have hcov : ¬ Covers {k | k ∈ coverageTrie.keys} pfx := by
      rw [← findPrefixOfKey_isNone h.wf]
      simpa using hnone
    obtain ⟨hwf, hkeys⟩ := add_pruneSubtrie h.wf hcov ()
    have hmem : ∀ c ∈ (TrieLib.add (pruneSubtrie coverageTrie pfx) pfx ()).keys,
        c ∈ coverageTrie.keys ∨ c = pfx := fun c hc =>
      mem_or_eq_of_mem_absorb (Set.ext_iff.mp hkeys c |>.mp hc)
    refine ⟨hwf, fun c hc => ?_, h.nodup, h.subset, fun c hc p hp hpre => ?_⟩
    · rcases hmem c hc with hc | rfl
      · exact h.short c hc
      · exact hshort
    · rcases hmem c hc with hc | rfl
      · exact h.complete c hc p hp hpre
      · exact hall p hp hpre

/-- Below a prefix without gaps all peers are known. -/
theorem of_noGap (h : Knows net all coverageTrie) {pfx : Bitstr} {order : Bit256}
    (hgaps : trieGaps coverageTrie pfx order = []) {p : PeerId} (hp : p ∈ net)
    (hpre : pfx <+: (peerIDToBit256 p).bits) : p ∈ all := by
  obtain ⟨x, hx⟩ := exists_startsWith (peerIDToBit256 p).bits
  rcases trieGaps_complete order h.wf (hx.of_prefix hpre) with hkey | hgap
  · obtain ⟨c, hc, hxc⟩ := hkey
    apply h.complete c hc p hp
    apply hxc.isPrefix hx
    rw [(peerIDToBit256 p).length_bits]
    exact h.short c hc
  · obtain ⟨g, hg, -⟩ := hgap
    rw [hgaps] at hg
    cases hg

end Knows

/-! ## A run -/

/-- The lookup of an iteration is answered with the closest peers, for a key that is not the
identifier of a peer. -/
structure Answered (env : Env) (net : Finset PeerId) (k : Nat) (e : Exploration) : Prop where
  lookup : ∃ peers, closestPeersToKey env (queriedKey env e).bits = .ok peers ∧
    IsClosest net k (queriedKey env e) peers
  fresh : ∀ p ∈ net, peerIDToBit256 p ≠ queriedKey env e

section Run

variable [TrieLib] {net : Finset PeerId} {k : Nat} {e : Exploration}

/-- **A step keeps the invariant**, out of the loop too. -/
theorem exploreStep_knows (hsort : SortsByDistance env.sortClosestPeers)
    (hanswer : Answered env net k e) (h : Knows net e.allClosestPeers e.coverageTrie) :
    (∀ reason all coverageTrie, exploreStep env e = .stop reason all coverageTrie →
      Knows net all coverageTrie ∧ (reason = .noGap →
        trieGaps coverageTrie e.pfx env.order = [] ∧ env.replicationFactor ≤ all.length ∨
          trieGaps coverageTrie [] env.order = [])) ∧
    ∀ e', exploreStep env e = .next e' →
      Knows net e'.allClosestPeers e'.coverageTrie ∧ e'.pfx <+: e.pfx := by
  obtain ⟨answer, hlookup, hclosest⟩ := hanswer.lookup
  rcases exploreStep_cases env e with ⟨err, hfail⟩ | ⟨peers, hpeers, hne, hstep⟩
  · rw [hfail]
    exact ⟨nofun, nofun⟩
  cases hlookup.symm.trans hpeers
  obtain ⟨hnet, hall⟩ := shortestCoveredPrefix_covers hsort hclosest hne hanswer.fresh
  have hadded : Knows net (addPeers e.allClosestPeers (covered env e answer).2) e.coverageTrie :=
    h.addPeers hnet
  rcases hstep with hstop | ⟨count, hstep⟩
  · rw [hstop]
    refine ⟨fun reason all coverageTrie heq => ?_, nofun⟩
    cases heq
    exact ⟨hadded, nofun⟩
  have hcovered : Knows net (addPeers e.allClosestPeers (covered env e answer).2)
      (coverPrefix e.coverageTrie (covered env e answer).1) := by
    apply hadded.coverPrefix
    · exact (shortestCoveredPrefix_isPrefix _ _ _).length_le.trans_eq (queriedKey env e).length_bits
    · exact fun p hp hpre => mem_addPeers.mpr (.inr (hall p hp hpre))
  have hcases := closeGaps_cases env e (addPeers e.allClosestPeers (covered env e answer).2)
    (coverPrefix e.coverageTrie (covered env e answer).1) count
  rw [hstep]
  rcases hcases with ⟨heq, hgaps⟩ | ⟨pfx, gap, hpre, heq⟩
  · rw [heq]
    refine ⟨fun reason all coverageTrie hstop => ?_, nofun⟩
    cases hstop
    exact ⟨hcovered, fun _ => hgaps⟩
  · rw [heq]
    refine ⟨nofun, fun e' hnext => ?_⟩
    cases hnext
    exact ⟨hcovered, hpre⟩

def exploreTrace (env : Env) : Nat → Exploration → List Exploration
  | 0, _ => []
  | n + 1, e =>
    e :: match exploreStep env e with
      | .next e' => exploreTrace env n e'
      | _ => []

def explorations (env : Env) (pfx : Bitstr) : List Exploration :=
  exploreTrace env maxExplorationPrefixSearches ⟨pfx, pfx, [], .emptyLeaf, 0⟩

theorem mem_exploreTrace {e e' : Exploration} :
    e' ∈ exploreTrace env (n + 1) e ↔
      e' = e ∨ ∃ e1, exploreStep env e = .next e1 ∧ e' ∈ exploreTrace env n e1 := by
  rw [exploreTrace, mem_cons]
  apply or_congr_right
  cases exploreStep env e with
  | fail err => simp
  | stop reason all coverageTrie => simp
  | next e1 => simp

/-- **A run keeps the invariant.** -/
theorem exploreTrace_knows (hsort : SortsByDistance env.sortClosestPeers)
    (hanswer : ∀ e' ∈ exploreTrace env n e, Answered env net k e')
    (h : Knows net e.allClosestPeers e.coverageTrie) :
    ∀ e' ∈ exploreTrace env n e,
      Knows net e'.allClosestPeers e'.coverageTrie ∧ e'.pfx <+: e.pfx := by
  induction n generalizing e with
  | zero => exact nofun
  | succ n ih =>
    intro e' he'
    rcases mem_exploreTrace.mp he' with rfl | ⟨e1, hnext, hmem⟩
    · exact ⟨h, prefix_rfl⟩
    · have hhere := hanswer e (mem_exploreTrace.mpr (.inl rfl))
      obtain ⟨hknows, hpre⟩ := (exploreStep_knows hsort hhere h).2 e1 hnext
      have hlater : ∀ e'' ∈ exploreTrace env n e1, Answered env net k e'' := fun e'' he'' =>
        hanswer e'' (mem_exploreTrace.mpr (.inr ⟨e1, hnext, he''⟩))
      obtain ⟨hknows', hpre'⟩ := ih hlater hknows e' hmem
      exact ⟨hknows', hpre'.trans hpre⟩

theorem exploreLoop_of_stop {e' : Exploration} {reason : StopReason}
    {all : List PeerId} {coverageTrie : Trie Bitstr Unit} (hmem : e' ∈ exploreTrace env n e)
    (hstop : exploreStep env e' = .stop reason all coverageTrie) :
    exploreLoop env n e = .ok all := by
  induction n generalizing e with
  | zero => exact nomatch hmem
  | succ n ih =>
    rw [exploreLoop]
    rcases mem_exploreTrace.mp hmem with rfl | ⟨e1, hnext, hmem⟩
    · rw [hstop]
    · rw [hnext]
      exact ih hmem

/-- **`closestPeersToPrefix` is complete.** Let the network be fixed, let each lookup return the `k`
peers closest to its key (or all of them), and let no peer have a key that is looked up as its
identifier. Then, at the start of each iteration and when the loop is left, the peers below the
coverage are known. If the loop is left because there is no gap, the result has all peers of the
network below the requested prefix, and it has enough peers or is the whole network. -/
theorem closestPeersToPrefix_complete (pfx : Bitstr)
    (hsort : SortsByDistance env.sortClosestPeers)
    (hlookup : ∀ e ∈ explorations env pfx, ∃ peers,
      closestPeersToKey env (queriedKey env e).bits = .ok peers ∧
        IsClosest net k (queriedKey env e) peers)
    (hfresh : ∀ e ∈ explorations env pfx, ∀ p ∈ net, peerIDToBit256 p ≠ queriedKey env e) :
    (∀ e ∈ explorations env pfx, Complete net e.allClosestPeers e.coverageTrie ∧
      ∀ reason all coverageTrie, exploreStep env e = .stop reason all coverageTrie →
        Complete net all coverageTrie) ∧
    ∀ e ∈ explorations env pfx, ∀ all coverageTrie,
      exploreStep env e = .stop .noGap all coverageTrie →
        ∃ peers, closestPeersToPrefix env pfx = .ok peers ∧ peers.Nodup ∧
          (∀ p ∈ net, pfx <+: (peerIDToBit256 p).bits → p ∈ peers) ∧
          (env.replicationFactor ≤ peers.length ∨ ∀ p, p ∈ peers ↔ p ∈ net) := by
  have hanswer : ∀ e ∈ explorations env pfx, Answered env net k e := fun e he =>
    ⟨hlookup e he, hfresh e he⟩
  have hrun := exploreTrace_knows hsort hanswer (Knows.nothing net)
  refine ⟨fun e he => ⟨(hrun e he).1.complete, fun reason all coverageTrie hstop => ?_⟩,
    fun e he all coverageTrie hstop => ?_⟩
  · exact ((exploreStep_knows hsort (hanswer e he) (hrun e he).1).1 _ _ _ hstop).1.complete
  · obtain ⟨hknows, hgaps⟩ := (exploreStep_knows hsort (hanswer e he) (hrun e he).1).1 _ _ _ hstop
    have hperm : (env.peerOrder.visit all).Perm all := env.peerOrder.perm all
    refine ⟨env.peerOrder.visit all, ?_, hperm.nodup_iff.mpr hknows.nodup, fun p hp hpre => ?_, ?_⟩
    · rw [closestPeersToPrefix, exploreLoop_of_stop he hstop]
      rfl
    · rw [hperm.mem_iff]
      rcases hgaps rfl with ⟨hcovered, -⟩ | hcovered
      · exact hknows.of_noGap hcovered hp ((hrun e he).2.trans hpre)
      · exact hknows.of_noGap hcovered hp nil_prefix
    · rcases hgaps rfl with ⟨-, henough⟩ | hcovered
      · exact .inl (hperm.length_eq ▸ henough)
      · refine .inr fun p => ?_
        rw [hperm.mem_iff]
        exact ⟨hknows.subset p, fun hp => hknows.of_noGap hcovered hp nil_prefix⟩

end Run

/-! ## A static network -/

theorem foldl_keyToBytes {k : Bitstr} (hlen : k.length = 8 * n) (acc : Nat) :
    (keyToBytes k).foldl (fun n b => 256 * n + b.toNat) acc =
      k.foldl (fun n b => 2 * n + b.toNat) acc := by
  apply keyToBytes_induction (motive := fun k bytes => ∀ acc,
    bytes.foldl (fun n b => 256 * n + b.toNat) acc =
      k.foldl (fun n b => 2 * n + b.toNat) acc) (fun _ => rfl) ?_ hlen
  intro b0 b1 b2 b3 b4 b5 b6 b7 rest bytes ih acc
  have hbits : [b0, b1, b2, b3, b4, b5, b6, b7].foldl (fun n b => 2 * n + b.toNat) acc =
      256 * acc + bitsValue [b0, b1, b2, b3, b4, b5, b6, b7] := by
    rw [foldl_bitsValue]
    simp only [length_cons, length_nil]
    omega
  have hlt : bitsValue [b0, b1, b2, b3, b4, b5, b6, b7] < 2 ^ 8 := bitsValue_lt _
  rw [foldl_cons, ih, UInt8.toNat_ofNat_of_lt' hlt]
  exact congrArg (rest.foldl fun n b => 2 * n + b.toNat) hbits.symm

/-- The distance on bytes is the one on bits. -/
theorem xorDistance_eq (key : Bit256) (p : PeerId) :
    xorDistance (keyToBytes key.bits) p = xorDist key (peerIDToBit256 p) := by
  have hkey : natOfBytes (keyToBytes key.bits) = bitsValue key.bits :=
    foldl_keyToBytes (n := 32) key.length_bits 0
  rw [xorDistance, hkey]
  exact (bitsValue_xorBits ((peerIDToBit256 p).length_bits.trans key.length_bits.symm)).symm

theorem sortByDistance_sorts : SortsByDistance sortByDistance := by
  intro peers target
  let near (p q : PeerId) : Prop :=
    xorDistance (keyToBytes target.bits) p ≤ xorDistance (keyToBytes target.bits) q
  have hsorted : (sortByDistance peers (keyToBytes target.bits)).Pairwise near :=
    pairwise_insertionSort near peers
  refine ⟨perm_insertionSort _ _, hsorted.imp fun hle => ?_⟩
  show xorDist _ _ ≤ xorDist _ _
  rw [← xorDistance_eq, ← xorDistance_eq]
  exact hle

theorem Network.closest_of_small {net : Network} (config : Config) (hnodup : net.peers.Nodup)
    (hsmall : net.peers.length ≤ bucketSize) (key : Bit256) :
    ∃ peers, closestPeersToKey (net.env config) key.bits = .ok peers ∧
      IsClosest net.peers.toFinset bucketSize key peers := by
  refine ⟨_, rfl, ?_⟩
  show IsClosest _ _ _ ((sortByDistance net.peers (keyToBytes _)).take bucketSize)
  have hperm : ∀ target, ((sortByDistance net.peers target).take bucketSize).Perm net.peers := by
    intro target
    have hsort : (sortByDistance net.peers target).Perm net.peers := perm_insertionSort _ _
    rwa [take_of_length_le (hsort.length_eq.trans_le hsmall)]
  refine ⟨(hperm _).nodup_iff.mpr hnodup, fun p hp => ?_, ?_, fun p hp q hq hout => ?_⟩
  · exact mem_toFinset.mpr ((hperm _).mem_iff.mp hp)
  · rw [(hperm _).length_eq, toFinset_card_of_nodup hnodup, Nat.min_eq_right hsmall]
  · exact absurd ((hperm _).mem_iff.mpr (mem_toFinset.mp hq)) hout

/-- The sample network is explored from a branch with one peer: a second lookup covers the other
branch, and all peers are found. -/
theorem closestPeersToPrefix_complete_sample :
    ∃ peers, @closestPeersToPrefix binaryTrie (sampleEnv []) [true] = .ok peers ∧ peers.Nodup ∧
      (∀ p ∈ samplePeers.toFinset, [true] <+: (peerIDToBit256 p).bits → p ∈ peers) ∧
      (2 ≤ peers.length ∨ ∀ p, p ∈ peers ↔ p ∈ samplePeers.toFinset) := by
  have hfresh : ∀ e ∈ @explorations binaryTrie (sampleEnv []) [true], ∀ p ∈ samplePeers.toFinset,
      peerIDToBit256 p ≠ queriedKey (sampleEnv []) e := by
    decide +kernel
  obtain ⟨e, he, hnoGap⟩ : ∃ e ∈ @explorations binaryTrie (sampleEnv []) [true],
      (@exploreStep binaryTrie (sampleEnv []) e).isNoGap = true := by
    decide +kernel
  obtain ⟨all, coverageTrie, hstop⟩ := ExploreOutcome.isNoGap_iff.mp hnoGap
  exact (@closestPeersToPrefix_complete (sampleEnv []) binaryTrie samplePeers.toFinset bucketSize
    [true] sortByDistance_sorts
    (fun e _ => Network.closest_of_small sampleConfig (by decide) (by decide) (queriedKey _ e))
    hfresh).2 e he all coverageTrie hstop

end KadDht.SweepingProvider
