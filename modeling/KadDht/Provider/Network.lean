import KadDht.Provider.Schedule

/-!
# Provider — the environment of a static network

The environment of a provider is arbitrary in what is proved about it. This module has the one an
honest network gives rise to: the router knows all peers and returns those closest to a key, the
keystore returns the stored keys, and messages reach all peers but some. It is small enough to be
evaluated.
-/

namespace KadDht.SweepingProvider

def natOfBytes (bs : List UInt8) : Nat := bs.foldl (fun n b => 256 * n + b.toNat) 0

def xorDistance (target : List UInt8) (p : PeerId) : Nat :=
  bitsValue (peerIDToBit256 p).bits ^^^ natOfBytes target

def sortByDistance (peers : List PeerId) (target : List UInt8) : List PeerId :=
  peers.insertionSort fun p q => xorDistance target p ≤ xorDistance target q

/-- The size of a routing table bucket, which bounds how many peers a lookup returns. -/
def bucketSize : Nat := 20

structure Network where
  peers : List PeerId
  /-- The peers that do not answer to a message. -/
  unreachable : List PeerId
  /-- The peer IDs a lookup may be directed to. -/
  preimages : List PeerId
  stored : List Multihash

def Network.env (net : Network) (config : Config) : Env where
  toConfig := config
  closed := false
  isOnline := true
  selfAddrs := [[4, 127, 0, 0, 1, 6, 15, 161]]
  keystoreGet pfx := .ok (net.stored.filter fun m => isPrefix pfx (mhToBit256 m))
  getClosestPeers key :=
    .ok ((sortByDistance net.peers (keyToBytes (mhToBit256 key).bits)).take bucketSize)
  genRandPeerIDWithCPL target := (sortByDistance net.preimages target).headD []
  sortClosestPeers := sortByDistance
  sendMessage p _ := if p ∈ net.unreachable then some "peer is unreachable" else none
  peerString p := toString (natOfBytes p)
  sinceCycleStart n := Int64.ofNat (n + 1)
  peerOrder := ⟨id, List.Perm.refl⟩

theorem Network.stores (net : Network) (config : Config) :
    (net.env config).Stores {m | m ∈ net.stored} := by
  intro pfx keys hget m
  have heq : keys = net.stored.filter fun m => isPrefix pfx (mhToBit256 m) :=
    (Except.ok.inj hget).symm
  rw [heq, List.mem_filter, isPrefix_iff]
  exact Iff.rfl

/-- The default configuration, with a replication factor that suits a few peers. -/
def sampleConfig : Config where
  replicationFactor := 2
  replicationFactor_pos := by decide
  reprovideInterval := 79200000000000
  reprovideInterval_pos := by decide
  maxReprovideDelay := 3600000000000
  order := peerIDToBit256 [0, 1, 27]

/-- Three peers, whose identifiers start with `1111`, `0011` and `0001`. -/
def samplePeers : List PeerId := [[0, 1, 0], [0, 1, 4], [0, 1, 17]]

/-- Those below `0`, which are below `00`, too. -/
def peersBelowZero : List PeerId := [[0, 1, 17], [0, 1, 4]]

def coveredKeys : List Multihash := [[0, 1, 5], [0, 1, 21], [0, 1, 34]]

theorem coveredKeys_below : ∀ m ∈ coveredKeys, [false, false] <+: (mhToBit256 m).bits := by
  decide +kernel

/-- Keys below `0`, one of them below `01`. -/
def uncoveredKeys : List Multihash := [[0, 1, 5], [0, 1, 21], [0, 1, 6]]

def sampleNetwork (stored : List Multihash) : Network where
  peers := samplePeers
  unreachable := []
  preimages := [[0, 1, 6], [0, 1, 3]]
  stored := stored

def sampleEnv (stored : List Multihash) : Env := (sampleNetwork stored).env sampleConfig

def sampleState (ps : List Bitstr) : State :=
  { State.new with
    schedule := @TrieLib.addMany binaryTrie _ _ _ .emptyLeaf
      (ps.map fun p => (p, reprovideTimeForPrefix sampleConfig p)) }

theorem sampleState_inv {ps : List Bitstr} (hdisj : ∀ p ∈ ps, ∀ q ∈ ps, Overlap p q → p = q) :
    (sampleState ps).Inv := by
  refine { State.inv_new with schedule := ?_ }
  refine @TrieLib.addMany_wf binaryTrie _ _ _ _ _ Trie.wf_emptyLeaf ⟨fun e _ => ?_, ?_⟩
  · simp [Trie.Accepts]
  · intro e he e' he'
    obtain ⟨p, hp, rfl⟩ := List.mem_map.mp he
    obtain ⟨q, hq, rfl⟩ := List.mem_map.mp he'
    exact hdisj p hp q hq

def State.withQueued (s : State) (p : Bitstr) (keys : List Multihash) : State :=
  { s with provideQueue := (@ProvideQueue.enqueue binaryTrie s.provideQueue p keys).getD .new }

theorem State.Inv.withQueued {s : State} (hs : s.Inv) {p : Bitstr} {keys : List Multihash}
    (hne : keys ≠ []) (hmatch : ∀ m ∈ keys, p <+: (mhToBit256 m).bits) :
    (s.withQueued p keys).Inv := by
  obtain ⟨q, heq, hinv, -⟩ :=
    @ProvideQueue.enqueue_spec _ binaryTrie p hs.provideQueue keys hne hmatch
  refine { hs with provideQueue := ?_ }
  show ((@ProvideQueue.enqueue binaryTrie s.provideQueue p keys).getD .new).Inv
  rwa [heq]

end KadDht.SweepingProvider
