import KadDht.Keyspace.Closest
import Mathlib.Data.Finset.Card

/-!
# Keyspace — the prefix a lookup covers (`provider/internal/keyspace/key.go`)

A lookup returns the peers closest to a key, so it knows all peers below some prefix of the key.
`ShortestCoveredPrefix` computes that prefix: it is one bit longer than what the farthest peer
returned has in common with the key. A peer below it is closer than the farthest one, and must have
been returned.
-/

namespace KadDht

open BitKey List

/-! ## Shared bits and distance -/

def peerCpl (target : Bitstr) (p : PeerId) : Nat :=
  commonPrefixLength target (peerIDToBit256 p).bits

theorem xorDist_lt_of_cpl {key a b : Bit256}
    (h : commonPrefixLength key.bits b.bits < commonPrefixLength key.bits a.bits) :
    xorDist key a < xorDist key b := by
  have hlen : ∀ a b : Bit256, bitLen a = bitLen b := fun a b =>
    a.length_bits.trans b.length_bits.symm
  have hle := commonPrefixLength_le_left key.bits a.bits
  have hne : ¬ Overlap key.bits b.bits := by
    intro hov
    have heq := (commonPrefixLength_eq_length key.bits b.bits).mpr
      (hov.eq_of_length (hlen key b) ▸ prefix_rfl)
    omega
  -- the key and `b` part ways at a bit up to which `a` follows the key
  obtain ⟨c, u, hck, hcb⟩ := exists_branches hne
  have hcpl := commonPrefixLength_of_branches hck hcb
  have hca : c ++ [u] <+: a.bits := by
    rw [prefix_iff_eq_take.mp hck, take_prefix_iff, length_append, length_singleton]
    omega
  have hbit : bit key c.length = u := by
    obtain ⟨rest, hrest⟩ := hck
    simp [bit, ← hrest]
  apply xorDist_lt c hlen
  · rwa [hbit]
  · rwa [hbit]

/-! ## What is returned -/

/-- The answer of a lookup: the `k` peers of the network closest to the key, or all of them if
there are fewer. -/
structure IsClosest (net : Finset PeerId) (k : Nat) (key : Bit256) (peers : List PeerId) :
    Prop where
  nodup : peers.Nodup
  subset : ∀ p ∈ peers, p ∈ net
  length_eq : peers.length = min k net.card
  closest : ∀ p ∈ peers, ∀ q ∈ net, q ∉ peers →
    xorDist key (peerIDToBit256 p) ≤ xorDist key (peerIDToBit256 q)

/-- `kb.SortClosestPeers` puts the peers in the order of their distance to the target. -/
def SortsByDistance (sortClosestPeers : List PeerId → List UInt8 → List PeerId) : Prop :=
  ∀ (peers : List PeerId) (target : Bit256),
    (sortClosestPeers peers (keyToBytes target.bits)).Perm peers ∧
      (sortClosestPeers peers (keyToBytes target.bits)).Pairwise fun p q =>
        xorDist target (peerIDToBit256 p) ≤ xorDist target (peerIDToBit256 q)

variable {peers : List PeerId}

theorem pairwise_peerCpl {target : Bit256}
    (h : peers.Pairwise fun p q =>
      xorDist target (peerIDToBit256 p) ≤ xorDist target (peerIDToBit256 q)) :
    peers.Pairwise fun p q => peerCpl target.bits q ≤ peerCpl target.bits p :=
  h.imp fun hle => Nat.le_of_not_lt fun hlt => Nat.not_lt.mpr hle (xorDist_lt_of_cpl hlt)

/-! ## The covered prefix -/

/-- **The loop of `ShortestCoveredPrefix`** ends at the first of the peers that share the fewest
bits with the target. -/
theorem coveredLoop_spec {target : Bitstr}
    (hsorted : peers.Pairwise fun p q => peerCpl target q ≤ peerCpl target p)
    (hlt : ∀ p ∈ peers, peerCpl target p < target.length) (hne : peers ≠ []) :
    ∃ near far rest, peers = near ++ far :: rest ∧
      (∀ p ∈ rest, peerCpl target p = peerCpl target far) ∧
      peers.zipIdx.foldl (CoveredLoop.visit target) ⟨target.length, 0, 0⟩ =
        ⟨peerCpl target far, peerCpl target far + 1, near.length⟩ := by
  -- the loop runs from the left, so the induction takes peers from the right
  induction peers using reverseRecOn with
  | nil => exact absurd rfl hne
  | append_singleton peers p ih =>
    have hp : peerCpl target p < target.length := hlt p (by simp)
    rw [zipIdx_append, foldl_append, Nat.zero_add]
    cases peers with
    | nil =>
      refine ⟨[], p, [], rfl, by simp, ?_⟩
      exact if_pos hp
    | cons q peers =>
      rw [pairwise_append] at hsorted
      obtain ⟨near, far, rest, heq, hrest, hloop⟩ := ih hsorted.1
        (fun x hx => hlt x (mem_append_left _ hx)) (cons_ne_nil _ _)
      have hle : peerCpl target p ≤ peerCpl target far :=
        hsorted.2.2 far (by simp [heq]) p (by simp)
      rw [hloop]
      by_cases hless : peerCpl target p < peerCpl target far
      · refine ⟨q :: peers, p, [], rfl, by simp, ?_⟩
        exact if_pos hless
      · refine ⟨near, far, rest ++ [p], by simp [heq], ?_, ?_⟩
        · intro x hx
          rcases mem_append.mp hx with hx | hx
          · exact hrest x hx
          · rw [mem_singleton.mp hx]
            omega
        · exact if_neg hless

/-- **A lookup covers a prefix.** When no peer has the target as its identifier, the covered peers
are peers of the network, and the network has no other peers below the covered prefix. -/
theorem shortestCoveredPrefix_covers
    {sortClosestPeers : List PeerId → List UInt8 → List PeerId}
    (hsort : SortsByDistance sortClosestPeers) {net : Finset PeerId} {k : Nat} {target : Bit256}
    (hclosest : IsClosest net k target peers) (hne : peers ≠ [])
    (hfresh : ∀ p ∈ net, peerIDToBit256 p ≠ target) :
    (∀ p ∈ (shortestCoveredPrefix sortClosestPeers target.bits peers).2, p ∈ net) ∧
      ∀ p ∈ net,
        (shortestCoveredPrefix sortClosestPeers target.bits peers).1 <+: (peerIDToBit256 p).bits →
          p ∈ (shortestCoveredPrefix sortClosestPeers target.bits peers).2 := by
  obtain ⟨hperm, hsorted⟩ := hsort peers target
  have hnet : ∀ p ∈ sortClosestPeers peers (keyToBytes target.bits), p ∈ net := fun p hp =>
    hclosest.subset p (hperm.mem_iff.mp hp)
  have hlt : ∀ p ∈ net, peerCpl target.bits p < target.bits.length := by
    intro p hp
    refine lt_of_le_of_ne (commonPrefixLength_le_left _ _) fun heq => hfresh p hp ?_
    have hpre := (commonPrefixLength_eq_length _ _).mp heq
    exact (Bit256.eq_of_overlap (.inl hpre)).symm
  obtain ⟨near, far, rest, heq, hrest, hloop⟩ := coveredLoop_spec (pairwise_peerCpl hsorted)
    (fun p hp => hlt p (hnet p hp)) (fun hnil => hne (by simpa [hnil] using hperm))
  have hcovered : shortestCoveredPrefix sortClosestPeers target.bits peers =
      (target.bits.take (peerCpl target.bits far + 1), near) := by
    unfold shortestCoveredPrefix
    rw [if_neg (by simpa using hne)]
    show (_, _) = _
    rw [hloop, heq, take_left]
  have hfar : far ∈ peers := hperm.mem_iff.mp (by simp [heq])
  rw [hcovered]
  refine ⟨fun p hp => hnet p (by simp [heq, hp]), fun p hp hpre => ?_⟩
  have hmore : peerCpl target.bits far < peerCpl target.bits p := by
    have hle := (take_prefix_iff _ _ _).mp hpre
    have hfarlt := hlt far (hclosest.subset far hfar)
    unfold peerCpl at *
    omega
  -- a peer that is not returned is at least as far away as the farthest one
  have hmem : p ∈ peers := by
    by_contra hout
    exact Nat.not_lt.mpr (hclosest.closest far hfar p hp hout) (xorDist_lt_of_cpl hmore)
  have hin := hperm.mem_iff.mpr hmem
  rw [heq, mem_append, mem_cons] at hin
  rcases hin with hin | rfl | hin
  · exact hin
  · exact absurd hmore (lt_irrefl _)
  · exact absurd (hrest p hin) hmore.ne'

end KadDht
