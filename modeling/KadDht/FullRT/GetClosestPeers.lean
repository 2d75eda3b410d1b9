import KadDht.Keyspace.Closest
import Mathlib.Data.List.Dedup

/-!
# FullRT — the closest peers (`fullrt/dht.go`, `fullrt/options.go`)

`GetClosestPeers` walks over the keys of the routing table from the closest one on, looks up their
peers, and returns the first `bucketSize` of them. With a diversity limit it counts the peers it has
seen in each IP group, and skips those of a full group. It asks for the keys in portions, which are
a few larger than a bucket.

The loop keeps to the limit that it finds in its `FullRT`. But `NewFullRT` does not put the one of
its options there.

* **`diverse_iff`** — what is returned by a client that `NewFullRT` made.
* **`searchEnds_iff`** — the clients for which the loop over the portions ends.
-/

namespace KadDht.FullRT

open List

variable {Addr Group : Type}

/-- `FullRT`. The routing table is the list of its keys. -/
structure Client (Addr : Type) where
  rt : List Bit256
  keyToPeerMap : Bit256 → Option PeerId
  peerAddrs : PeerId → List Addr
  bucketSize : Nat
  ipDiversityFilterLimit : Nat

/-! ## The constructor

`NewFullRT` applies its own options, and then those of the DHT to a configuration that it builds
itself. Of the DHT's defaults it takes over only a few: neither a bucket size nor bootstrap peers
are set. It asks for the bootstrap peers in the end, and panics if there is no function to ask. -/

/-- An option of the DHT (`dht_options.go`). The options for fields that do not matter here may
fail. A bucket size below zero, with which `GetClosestPeers` panics before the loop, is left out. -/
inductive DhtOption where
  | protocolPrefix (pfx : String)
  | protocolExtension (ext : String)
  | bucketSize (size : Nat)
  /-- The function may be nil. -/
  | bootstrapPeersFunc (peers : Option (List PeerId))
  | other (err : Option String)

def bootstrapPeers (bootstrappers : List PeerId) : DhtOption :=
  .bootstrapPeersFunc (some bootstrappers)

/-- The configuration of the DHT (`internal/config/config.go`). -/
structure DhtConfig where
  protocolPrefix : String
  bucketSize : Nat
  bootstrapPeers : Option (List PeerId)

def DhtOption.apply (c : DhtConfig) : DhtOption → Except String DhtConfig
  | .protocolPrefix pfx => .ok { c with protocolPrefix := pfx }
  | .protocolExtension ext => .ok { c with protocolPrefix := c.protocolPrefix ++ ext }
  | .bucketSize size => .ok { c with bucketSize := size }
  | .bootstrapPeersFunc peers => .ok { c with bootstrapPeers := peers }
  | .other (some e) => .error e
  | .other none => .ok c

/-- What else decides whether `NewFullRT` fails: `ApplyFallbacks`, the checks of `Validate` on other
fields, and what is started before the bootstrap peers are asked for. -/
structure Checks where
  fallbacks : Except String Unit
  otherFields : Except String Unit
  services : Except String Unit

namespace DhtConfig

def apply (c : DhtConfig) : List DhtOption → Nat → Except String DhtConfig
  | [], _ => .ok c
  | opt :: opts, i =>
    match opt.apply c with
    | .error e => .error ("dht option " ++ toString i ++ " failed: " ++ e)
    | .ok c => c.apply opts (i + 1)

def validate (c : DhtConfig) (checks : Checks) : Except String Unit :=
  if c.protocolPrefix ≠ "/ipfs" then .ok ()
  else if c.bucketSize ≠ 20 then .error "protocol prefix /ipfs must use bucket size 20"
  else checks.otherFields

/-- The configuration that `NewFullRT` makes. -/
def make (checks : Checks) (protocolPrefix : String) (dhtOpts : List DhtOption) :
    Except String DhtConfig :=
  match apply ⟨protocolPrefix, 0, none⟩ dhtOpts 0 with
  | .error e => .error e
  | .ok c =>
    match checks.fallbacks *> c.validate checks *> checks.services with
    | .error e => .error e
    | .ok () => .ok c

end DhtConfig

/-- The `config` of the options, as far as `GetClosestPeers` goes. -/
structure Config where
  dhtOpts : List DhtOption
  ipDiversityFilterLimit : Int

inductive Opt where
  | dhtOption (opts : List DhtOption)
  | withIPDiversityFilterLimit (limit : Int)
  | other (err : Option String)

def Opt.apply (cfg : Config) : Opt → Except String Config
  | .dhtOption opts => .ok { cfg with dhtOpts := cfg.dhtOpts ++ opts }
  | .withIPDiversityFilterLimit limit => .ok { cfg with ipDiversityFilterLimit := limit }
  | .other (some e) => .error e
  | .other none => .ok cfg

def Config.apply (cfg : Config) : List Opt → Nat → Except String Config
  | [], _ => .ok cfg
  | o :: opts, i =>
    match o.apply cfg with
    | .error e => .error ("fullrt dht option " ++ toString i ++ " failed: " ++ e)
    | .ok cfg => cfg.apply opts (i + 1)

/-- `NewFullRT`, or `none` if it panics. -/
def newFullRT (checks : Checks) (protocolPrefix : String) (options : List Opt) :
    Option (Except String (Client Addr)) :=
  match Config.apply ⟨[], 3⟩ options 0 with
  | .error e => some (.error e)
  | .ok fullrtcfg =>
    match DhtConfig.make checks protocolPrefix fullrtcfg.dhtOpts with
    | .error e => some (.error e)
    | .ok dhtcfg =>
      match dhtcfg.bootstrapPeers with
      -- a nil function is called
      | none => none
      | some _ =>
        some (.ok {
          rt := []
          keyToPeerMap := fun _ => none
          bucketSize := dhtcfg.bucketSize
          peerAddrs := fun _ => []
          -- the field is not set
          ipDiversityFilterLimit := 0 })

/-- The options of the DHT that come with some options. -/
def dhtOpts (options : List Opt) : List DhtOption :=
  options.flatMap fun o =>
    match o with
    | .dhtOption opts => opts
    | _ => []

theorem dhtOpts_apply {cfg cfg' : Config} {options : List Opt} {i : Nat}
    (h : cfg.apply options i = .ok cfg') : cfg'.dhtOpts = cfg.dhtOpts ++ dhtOpts options := by
  induction options generalizing cfg i with
  | nil =>
    cases h
    exact (append_nil _).symm
  | cons o options ih =>
    rw [Config.apply] at h
    split at h
    · cases h
    · next cfg1 happly =>
      rw [ih h, dhtOpts, dhtOpts, flatMap_cons, ← append_assoc]
      congr 1
      cases o with
      | dhtOption opts =>
        cases happly
        rfl
      | withIPDiversityFilterLimit limit =>
        cases happly
        exact (append_nil _).symm
      | other err =>
        cases err with
        | none =>
          cases happly
          exact (append_nil _).symm
        | some e => cases happly

/-- What `NewFullRT` returns has the bucket size of the DHT's configuration, and no limit. -/
theorem newFullRT_spec {checks : Checks} {protocolPrefix : String} {options : List Opt}
    {new : Client Addr} (hnew : newFullRT checks protocolPrefix options = some (.ok new)) :
    new.ipDiversityFilterLimit = 0 ∧
      ∃ c, DhtConfig.apply ⟨protocolPrefix, 0, none⟩ (dhtOpts options) 0 = .ok c ∧
        new.bucketSize = c.bucketSize := by
  rw [newFullRT] at hnew
  split at hnew
  · cases hnew
  next fullrtcfg hcfg =>
  have hopts : fullrtcfg.dhtOpts = dhtOpts options := dhtOpts_apply hcfg
  rw [hopts] at hnew
  split at hnew
  · cases hnew
  next dhtcfg hmake =>
  split at hnew
  · cases hnew
  · cases hnew
    refine ⟨rfl, dhtcfg, ?_, rfl⟩
    rw [DhtConfig.make] at hmake
    cases happly : DhtConfig.apply ⟨protocolPrefix, 0, none⟩ (dhtOpts options) 0 with
    | error e =>
      rw [happly] at hmake
      cases hmake
    | ok c =>
      rw [happly] at hmake
      dsimp only at hmake
      split at hmake
      · cases hmake
      · exact hmake

/-! ## The loops of `GetClosestPeers` -/

/-- The keys from the closest to the farthest one. -/
def byDistance (kadKey : Bit256) (rt : List Bit256) : List Bit256 :=
  rt.insertionSort fun a b => xorDist kadKey a ≤ xorDist kadKey b

/-- What the loop uses of a library for tables of keys: the keys of a table that are closest to some
key, in the order of their distance. -/
class XorLib where
  closestN : Bit256 → List Bit256 → Nat → List Bit256
  closestN_eq (kadKey : Bit256) (rt : List Bit256) (count : Nat) :
    closestN kadKey rt count = (byDistance kadKey rt).take count

@[reducible] def sortedTable : XorLib where
  closestN kadKey rt count := (byDistance kadKey rt).take count
  closestN_eq _ _ _ := rfl

/-- `ipGroupCounts`: the peers that were counted in each group. -/
abbrev Counts (Group : Type) := Group → List PeerId

/-- The variables of the loop, and the keys for which it logs that they are not found. -/
structure Search (Group : Type) where
  ipGroupCounts : Counts Group
  peers : List PeerId
  missing : List Bit256

section Loops

variable [DecidableEq Group] (ipGroup : Addr → Option Group)

/-- The loop over the addresses of a peer. The group of an address is the one of its IP, if it has
one. The flag tells whether the peer is kept. -/
def countGroups (limit : Nat) (p : PeerId) : List Addr → Counts Group → Counts Group × Bool
  | [], counts => (counts, true)
  | addr :: addrs, counts =>
    match ipGroup addr with
    | none => countGroups limit p addrs counts
    | some g =>
      if (counts g).length ≥ limit then (counts, false)
      else countGroups limit p addrs (Function.update counts g ((counts g).insert p))

/-- The body of `PeersLoop`. The flag tells whether enough peers were found. -/
def visit (dht : Client Addr) (s : Search Group) (k : Bit256) : Search Group × Bool :=
  match dht.keyToPeerMap k with
  | none => ({ s with missing := s.missing ++ [k] }, false)
  | some p =>
    let (counts, keep) :=
      if dht.ipDiversityFilterLimit > 0 then
        countGroups ipGroup dht.ipDiversityFilterLimit p (dht.peerAddrs p) s.ipGroupCounts
      else (s.ipGroupCounts, true)
    if keep then
      ({ s with ipGroupCounts := counts, peers := s.peers ++ [p] },
        (s.peers ++ [p]).length = dht.bucketSize)
    else ({ s with ipGroupCounts := counts }, false)

def peersLoop (dht : Client Addr) : List Bit256 → Search Group → Search Group × Bool
  | [], s => (s, false)
  | k :: closestKeys, s =>
    match visit ipGroup dht s k with
    | (s, true) => (s, true)
    | (s, false) => peersLoop dht closestKeys s

/-- The outer loop. The first argument bounds the number of rounds. -/
def search [XorLib] (dht : Client Addr) (kadKey : Bit256) : Nat → Nat → Search Group → Search Group
  | 0, _, s => s
  | fuel + 1, nClosest, s =>
    let step := dht.bucketSize + 2 * dht.ipDiversityFilterLimit
    if nClosest < dht.rt.length then
      match peersLoop ipGroup dht ((XorLib.closestN kadKey dht.rt (nClosest + step)).drop nClosest)
        s with
      | (s, true) => s
      | (s, false) => search dht kadKey fuel (nClosest + step) s
    else s

/-- `GetClosestPeers`: the peers, and the keys that were not found. -/
def getClosestPeers [XorLib] (dht : Client Addr) (key : List UInt8) : List PeerId × List Bit256 :=
  let s : Search Group :=
    search ipGroup dht (peerIDToBit256 key) dht.rt.length 0 ⟨fun _ => [], [], []⟩
  (s.peers, s.missing)

/-! ## Portions

The loop over the portions is one loop over the whole table, sorted by distance, that stops at a
full bucket. -/

variable {ipGroup} {dht : Client Addr} {s : Search Group} {kadKey : Bit256} {limit : Nat}

theorem peersLoop_append (ks ks' : List Bit256) :
    peersLoop ipGroup dht (ks ++ ks') s
      = if (peersLoop ipGroup dht ks s).2 then peersLoop ipGroup dht ks s
        else peersLoop ipGroup dht ks' (peersLoop ipGroup dht ks s).1 := by
  induction ks generalizing s with
  | nil => rfl
  | cons k ks ih =>
    rw [cons_append, peersLoop, peersLoop]
    split
    · rfl
    · exact ih

/-- **The portions** add up to the whole table, in the order of the distance. -/
theorem search_eq [XorLib] (hb : 0 < dht.bucketSize) (fuel nClosest : Nat)
    (hfuel : dht.rt.length ≤ fuel + nClosest) :
    search ipGroup dht kadKey fuel nClosest s
      = (peersLoop ipGroup dht ((byDistance kadKey dht.rt).drop nClosest) s).1 := by
  have hlen : (byDistance kadKey dht.rt).length = dht.rt.length := length_insertionSort _ _
  induction fuel generalizing nClosest s with
  | zero =>
    rw [drop_of_length_le (by omega)]
    rfl
  | succ fuel ih =>
    rw [search]
    split
    · set step := dht.bucketSize + 2 * dht.ipDiversityFilterLimit with hstep
      have hportion : (XorLib.closestN kadKey dht.rt (nClosest + step)).drop nClosest
          = ((byDistance kadKey dht.rt).drop nClosest).take step := by
        rw [XorLib.closestN_eq, drop_take, Nat.add_sub_cancel_left]
      rw [← take_append_drop step ((byDistance kadKey dht.rt).drop nClosest), ← hportion,
        drop_drop, peersLoop_append]
      split
      · next s' hdone => rw [hdone, if_pos rfl]
      · next s' hmore =>
        rw [hmore, if_neg Bool.false_ne_true]
        exact ih (nClosest + step) (by omega)
    · rw [drop_of_length_le (by omega)]
      rfl

variable (ipGroup dht) in
def walk (key : List UInt8) : Search Group :=
  (peersLoop ipGroup dht (byDistance (peerIDToBit256 key) dht.rt) ⟨fun _ => [], [], []⟩).1

variable (ipGroup) in
theorem getClosestPeers_eq [XorLib] (hb : 0 < dht.bucketSize) (key : List UInt8) :
    getClosestPeers ipGroup dht key
      = ((walk ipGroup dht key).peers, (walk ipGroup dht key).missing) := by
  rw [getClosestPeers, search_eq hb _ _ (Nat.le_refl _)]
  rfl

/-! ## With a limit

`countGroups` counts a peer in the groups of its addresses up to the first full one. A peer that is
skipped may have been counted, but no group gets over the limit. -/

/-- No group is over the limit, and the peers found were counted in their groups. -/
structure Counted (ipGroup : Addr → Option Group) (dht : Client Addr) (limit : Nat)
    (counts : Counts Group) (peers : List PeerId) : Prop where
  le : ∀ g, (counts g).length ≤ limit
  mem : ∀ p ∈ peers, ∀ addr ∈ dht.peerAddrs p, ∀ g, ipGroup addr = some g → p ∈ counts g

variable (ipGroup) in
theorem countGroups_spec (p : PeerId) (addrs : List Addr) (counts : Counts Group)
    (hle : ∀ g, (counts g).length ≤ limit) :
    (∀ g, ((countGroups ipGroup limit p addrs counts).1 g).length ≤ limit) ∧
      (∀ g, counts g ⊆ (countGroups ipGroup limit p addrs counts).1 g) ∧
      ((countGroups ipGroup limit p addrs counts).2 = true → ∀ addr ∈ addrs, ∀ g,
        ipGroup addr = some g → p ∈ (countGroups ipGroup limit p addrs counts).1 g) := by
  fun_induction countGroups ipGroup limit p addrs counts with
  | case1 | case2 | case3 => grind
  | case4 addr addrs counts g hg hroom ih =>
    -- the group has room for one more peer, and no other group changes
    have hinsert : ((counts g).insert p).length ≤ limit := by grind
    have hupdate : ∀ g', Function.update counts g ((counts g).insert p) g'
        = if g' = g then (counts g).insert p else counts g' := by
      intro g'
      rw [Function.update_apply]
    grind

theorem visit_counted (hlimit : 0 < dht.ipDiversityFilterLimit)
    (hs : Counted ipGroup dht dht.ipDiversityFilterLimit s.ipGroupCounts s.peers) (k : Bit256) :
    Counted ipGroup dht dht.ipDiversityFilterLimit (visit ipGroup dht s k).1.ipGroupCounts
      (visit ipGroup dht s k).1.peers := by
  rw [visit]
  split
  · exact hs
  · next p _ =>
    rw [if_pos hlimit]
    have hcount := countGroups_spec ipGroup p (dht.peerAddrs p) _ hs.le
    split
    next counts keep heq =>
    rw [heq] at hcount
    obtain ⟨hle, hsub, hall⟩ := hcount
    have hold : ∀ p' ∈ s.peers, ∀ addr ∈ dht.peerAddrs p', ∀ g, ipGroup addr = some g →
        p' ∈ counts g := fun p' hp' addr haddr g hg => hsub g (hs.mem p' hp' addr haddr g hg)
    split
    · next hkeep =>
      refine ⟨hle, fun p' hp' => ?_⟩
      rcases mem_append.mp hp' with hp' | hp'
      · exact hold p' hp'
      · obtain rfl := mem_singleton.mp hp'
        exact hall hkeep
    · exact ⟨hle, hold⟩

theorem peersLoop_counted (hlimit : 0 < dht.ipDiversityFilterLimit)
    (hs : Counted ipGroup dht dht.ipDiversityFilterLimit s.ipGroupCounts s.peers)
    (ks : List Bit256) :
    Counted ipGroup dht dht.ipDiversityFilterLimit (peersLoop ipGroup dht ks s).1.ipGroupCounts
      (peersLoop ipGroup dht ks s).1.peers := by
  fun_induction peersLoop ipGroup dht ks s with
  | case1 => exact hs
  | case2 | case3 => grind [visit_counted]

/-- At most `n` of the peers have an address in any one group. -/
def Diverse (ipGroup : Addr → Option Group) (peerAddrs : PeerId → List Addr) (n : Nat)
    (peers : List PeerId) : Prop :=
  ∀ g, (peers.filter fun p => (peerAddrs p).any (ipGroup · = some g)).dedup.length ≤ n

variable (ipGroup dht) in
/-- **The loop keeps to the limit** that it finds. -/
theorem diverse_of_limit [XorLib] (hb : 0 < dht.bucketSize)
    (hlimit : 0 < dht.ipDiversityFilterLimit) (key : List UInt8) :
    Diverse ipGroup dht.peerAddrs dht.ipDiversityFilterLimit
      (getClosestPeers ipGroup dht key).1 := by
  intro g
  have hstart : Counted ipGroup dht dht.ipDiversityFilterLimit (fun _ => []) [] :=
    ⟨fun _ => Nat.zero_le _, by simp⟩
  have hs := peersLoop_counted (s := ⟨fun _ => [], [], []⟩) hlimit hstart
    (byDistance (peerIDToBit256 key) dht.rt)
  rw [getClosestPeers_eq ipGroup hb]
  refine le_trans (List.Subperm.length_le ?_) (hs.le g)
  refine subperm_of_subset (nodup_dedup _) fun p hp => ?_
  obtain ⟨hp, hgroup⟩ := mem_filter.mp (mem_dedup.mp hp)
  obtain ⟨addr, haddr, hg⟩ := any_eq_true.mp hgroup
  exact hs.mem p hp addr haddr g (of_decide_eq_true hg)

/-! ## Without one -/

theorem visit_unfiltered (hzero : dht.ipDiversityFilterLimit = 0) {k : Bit256} {p : PeerId}
    (hk : dht.keyToPeerMap k = some p) :
    visit ipGroup dht s k = ({ s with peers := s.peers ++ [p] },
      decide (s.peers.length + 1 = dht.bucketSize)) := by
  rw [visit, hk]
  simp [hzero]

/-- Without a limit the loop takes the first peers of the table. -/
theorem peersLoop_unfiltered (hzero : dht.ipDiversityFilterLimit = 0)
    (hlt : s.peers.length < dht.bucketSize) (ks : List Bit256) :
    (peersLoop ipGroup dht ks s).1.peers = s.peers ++
      (ks.filterMap dht.keyToPeerMap).take (dht.bucketSize - s.peers.length) := by
  induction ks generalizing s with
  | nil => simp [peersLoop]
  | cons k ks ih =>
    rw [peersLoop]
    cases hk : dht.keyToPeerMap k with
    | none =>
      rw [visit, hk, filterMap_cons_none hk]
      exact ih hlt
    | some p =>
      obtain ⟨room, hroom⟩ := Nat.exists_eq_add_of_lt hlt
      rw [visit_unfiltered hzero hk, filterMap_cons_some hk,
        show dht.bucketSize - s.peers.length = room + 1 by omega, take_succ_cons]
      by_cases hfull : s.peers.length + 1 = dht.bucketSize
      · rw [decide_eq_true hfull, show room = 0 by omega, take_zero]
      · have hrest := ih (s := { s with peers := s.peers ++ [p] }) (by simp; omega)
        rw [decide_eq_false hfull]
        refine hrest.trans ?_
        rw [length_append, length_singleton,
          show dht.bucketSize - (s.peers.length + 1) = room by omega, append_assoc]
        rfl

def Client.filled (new : Client Addr) (rt : List Bit256) (keyToPeerMap : Bit256 → Option PeerId)
    (peerAddrs : PeerId → List Addr) : Client Addr :=
  { new with rt, keyToPeerMap, peerAddrs }

/-- **The limit of the options is not honoured.** Whatever the options, what a client that
`NewFullRT` made returns is as diverse as the closest known peers are. With a limit in its field
it would keep to it. -/
theorem diverse_iff [XorLib] {checks : Checks} {protocolPrefix : String} {options : List Opt}
    {new : Client Addr} (hnew : newFullRT checks protocolPrefix options = some (.ok new))
    (hb : 0 < new.bucketSize) (rt : List Bit256) (keyToPeerMap : Bit256 → Option PeerId)
    (peerAddrs : PeerId → List Addr) (key : List UInt8) :
    (∀ n, Diverse ipGroup peerAddrs n
        (getClosestPeers ipGroup (new.filled rt keyToPeerMap peerAddrs) key).1 ↔
      Diverse ipGroup peerAddrs n
        (((byDistance (peerIDToBit256 key) rt).filterMap keyToPeerMap).take new.bucketSize)) ∧
      ∀ n > 0, Diverse ipGroup peerAddrs n (getClosestPeers ipGroup
        { new.filled rt keyToPeerMap peerAddrs with ipDiversityFilterLimit := n } key).1 := by
  have hzero := (newFullRT_spec hnew).1
  refine ⟨fun n => ?_, fun n hn => ?_⟩
  · have hfilled : 0 < (new.filled rt keyToPeerMap peerAddrs).bucketSize := hb
    have hlimit : (new.filled rt keyToPeerMap peerAddrs).ipDiversityFilterLimit = 0 := hzero
    rw [getClosestPeers_eq ipGroup hfilled, walk,
      peersLoop_unfiltered (s := ⟨fun _ => [], [], []⟩) hlimit hfilled]
    rfl
  · exact diverse_of_limit ipGroup { new.filled rt keyToPeerMap peerAddrs with
      ipDiversityFilterLimit := n } hb hn key

end Loops

def passing : Checks := ⟨.ok (), .ok (), .ok ()⟩

/-- The limit 1, and what else a client with the usual prefix needs. -/
def limitOne : List Opt :=
  [.withIPDiversityFilterLimit 1, .dhtOption [.bucketSize 20, bootstrapPeers []]]

def emptyClient (bucketSize : Nat) : Client Unit := ⟨[], fun _ => none, fun _ => [], bucketSize, 0⟩

/-- A client after a crawl that found two peers, each with an address of the same group. -/
def Client.crawled (new : Client Unit) : Client Unit :=
  new.filled [peerIDToBit256 [1], peerIDToBit256 [2]]
    (fun k => [[1], [2]].find? (peerIDToBit256 · = k)) fun _ => [()]

/-- Both of them are returned. -/
theorem not_diverse_twoPeers :
    ∃ new : Client Unit, newFullRT passing "/ipfs" limitOne = some (.ok new) ∧
      ¬ Diverse (fun _ => some ()) new.crawled.peerAddrs 1
        (@getClosestPeers _ _ _ (fun _ => some ()) sortedTable new.crawled [1]).1 := by
  refine ⟨emptyClient 20, rfl, fun hdiverse => absurd (hdiverse ()) ?_⟩
  decide +kernel

/-- Two are allowed, and would be with that limit in the field. -/
theorem diverse_iff_twoPeers :
    newFullRT passing "/ipfs" limitOne = some (.ok (emptyClient 20)) ∧
    Diverse (fun _ => some ()) (fun _ => [()]) 2
      (@getClosestPeers _ _ _ (fun _ => some ()) sortedTable (emptyClient 20).crawled [1]).1 ∧
    ∀ n > 0, Diverse (fun _ => some ()) (fun _ => [()]) n (@getClosestPeers _ _ _ (fun _ => some ())
      sortedTable { (emptyClient 20).crawled with ipDiversityFilterLimit := n } [1]).1 := by
  have hdiverse := @diverse_iff _ _ _ (fun _ => some ()) sortedTable passing "/ipfs" limitOne
    (emptyClient 20) rfl (by decide) [peerIDToBit256 [1], peerIDToBit256 [2]]
    (fun k => [[1], [2]].find? (peerIDToBit256 · = k)) (fun _ => [()]) [1]
  refine ⟨rfl, (hdiverse.1 2).mpr fun g => ?_, hdiverse.2⟩
  cases g
  decide +kernel

/-! ## Rounds

The outer loop goes on by a step that is computed from two fields of the client. Where both are
zero, it stays at the first keys of the table forever. -/

section Rounds

variable [XorLib] [DecidableEq Group] {ipGroup : Addr → Option Group} {dht : Client Addr}
  {kadKey : Bit256} {s : Search Group}

variable (ipGroup dht kadKey) in
/-- The outer loop is left within a number of rounds. -/
def searchEnds : Nat → Nat → Search Group → Bool
  | 0, _, _ => false
  | rounds + 1, nClosest, s =>
    let step := dht.bucketSize + 2 * dht.ipDiversityFilterLimit
    if nClosest < dht.rt.length then
      match peersLoop ipGroup dht ((XorLib.closestN kadKey dht.rt (nClosest + step)).drop nClosest)
        s with
      | (_, true) => true
      | (s, false) => searchEnds rounds (nClosest + step) s
    else true

variable (dht) in
theorem searchEnds_of_pos (hb : 0 < dht.bucketSize) {rounds nClosest : Nat} (hpos : 0 < rounds)
    (hrounds : dht.rt.length < rounds + nClosest) :
    searchEnds ipGroup dht kadKey rounds nClosest s = true := by
  fun_induction searchEnds ipGroup dht kadKey rounds nClosest s with
  | case1 => exact absurd hpos (Nat.lt_irrefl 0)
  | case2 => rfl
  | case3 rounds nClosest s step hlt s' hmore ih => exact ih (by omega) (by omega)
  | case4 => rfl

variable (dht) in
theorem searchEnds_zero (hstep : dht.bucketSize + 2 * dht.ipDiversityFilterLimit = 0)
    (hrt : dht.rt ≠ []) (rounds : Nat) : searchEnds ipGroup dht kadKey rounds 0 s = false := by
  induction rounds with
  | zero => rfl
  | succ rounds ih =>
    rw [searchEnds, if_pos (length_pos_iff.mpr hrt), hstep, XorLib.closestN_eq, take_zero]
    exact ih

end Rounds

/-- The last bucket size among some options of the DHT is above zero. -/
def SetsBucketSize (opts : List DhtOption) : Prop :=
  ∃ before n after, opts = before ++ .bucketSize n :: after ∧ 0 < n ∧
    ∀ m, .bucketSize m ∉ after

theorem setsBucketSize_cons {opt : DhtOption} {opts : List DhtOption} :
    SetsBucketSize (opt :: opts) ↔ SetsBucketSize opts ∨
      ∃ n, opt = .bucketSize n ∧ 0 < n ∧ ∀ m, .bucketSize m ∉ opts := by
  constructor
  · rintro ⟨before, n, after, heq, hn, hlast⟩
    cases before with
    | nil =>
      cases heq
      exact .inr ⟨n, rfl, hn, hlast⟩
    | cons o before =>
      cases heq
      exact .inl ⟨before, n, after, rfl, hn, hlast⟩
  · rintro (⟨before, n, after, rfl, hn, hlast⟩ | ⟨n, rfl, hn, hlast⟩)
    · exact ⟨opt :: before, n, after, rfl, hn, hlast⟩
    · exact ⟨[], n, opts, rfl, hn, hlast⟩

/-- The bucket size after the options: the last one that they set, or the one before. -/
theorem bucketSize_apply {c c' : DhtConfig} {opts : List DhtOption} {i : Nat}
    (h : c.apply opts i = .ok c') :
    0 < c'.bucketSize ↔
      SetsBucketSize opts ∨ 0 < c.bucketSize ∧ ∀ m, .bucketSize m ∉ opts := by
  induction opts generalizing c i with
  | nil =>
    cases h
    simp [SetsBucketSize]
  | cons opt opts ih =>
    rw [DhtConfig.apply] at h
    split at h
    · cases h
    · next c1 happly =>
      rw [ih h, setsBucketSize_cons]
      rcases opt with pfx | ext | size | peers | err
      case bucketSize =>
        cases happly
        have hself : ¬ ∀ m, .bucketSize m ∉ DhtOption.bucketSize size :: opts :=
          fun h => h size mem_cons_self
        simp only [hself, and_false, or_false, DhtOption.bucketSize.injEq, exists_eq_left']
      case other =>
        cases err with
        | none =>
          cases happly
          simp
        | some e => cases happly
      all_goals
        cases happly
        simp

/-- **The loop ends** exactly when the table is empty or the last bucket size that the options set
is above zero. -/
theorem searchEnds_iff [XorLib] [DecidableEq Group] {ipGroup : Addr → Option Group}
    {checks : Checks} {protocolPrefix : String} {options : List Opt} {new : Client Addr}
    (hnew : newFullRT checks protocolPrefix options = some (.ok new)) (rt : List Bit256)
    (keyToPeerMap : Bit256 → Option PeerId) (peerAddrs : PeerId → List Addr) (key : List UInt8) :
    (∃ rounds, searchEnds ipGroup (new.filled rt keyToPeerMap peerAddrs) (peerIDToBit256 key)
        rounds 0 ⟨fun _ => [], [], []⟩ = true) ↔ rt = [] ∨ SetsBucketSize (dhtOpts options) := by
  obtain ⟨hlimit, c, happly, hsize⟩ := newFullRT_spec hnew
  have hb : 0 < new.bucketSize ↔ SetsBucketSize (dhtOpts options) := by
    rw [hsize, bucketSize_apply happly]
    simp
  rw [← hb]
  constructor
  · rintro ⟨rounds, hends⟩
    by_contra hnot
    obtain ⟨hrt, hb⟩ := not_or.mp hnot
    have hstep : new.bucketSize + 2 * new.ipDiversityFilterLimit = 0 := by
      rw [hlimit]
      omega
    rw [searchEnds_zero (new.filled rt _ _) hstep hrt] at hends
    cases hends
  · rintro (rfl | hb)
    · exact ⟨1, rfl⟩
    · exact ⟨rt.length + 1, searchEnds_of_pos (new.filled rt _ _) hb (Nat.succ_pos _)
        (Nat.lt_succ_self _)⟩

/-- With the usual prefix the bucket size must be set. -/
theorem searchEnds_ipfs :
    newFullRT passing "/ipfs" limitOne = some (.ok (emptyClient 20)) ∧
    ∃ rounds, @searchEnds _ _ sortedTable _ (fun _ => some ()) (emptyClient 20).crawled
      (peerIDToBit256 [1]) rounds 0 ⟨fun _ => [], [], []⟩ = true :=
  ⟨rfl, (@searchEnds_iff _ _ sortedTable _ _ passing "/ipfs" limitOne _ rfl _ _ _ _).mpr
    (.inr ⟨[], 20, [bootstrapPeers []], rfl, by decide, by simp [bootstrapPeers]⟩)⟩

/-- Another prefix, and no option but for the bootstrap peers: with a peer in the table the loop
does not end. -/
theorem searchEnds_never :
    newFullRT passing "/test" [.dhtOption [bootstrapPeers []]] = some (.ok (emptyClient 0)) ∧
      ∀ rounds, @searchEnds _ _ sortedTable _ (fun _ => some ()) (emptyClient 0).crawled
        (peerIDToBit256 [1]) rounds 0 ⟨fun _ => [], [], []⟩ = false :=
  ⟨rfl, @searchEnds_zero _ _ sortedTable _ _ (emptyClient 0).crawled _ _ rfl (by decide)⟩

end KadDht.FullRT
