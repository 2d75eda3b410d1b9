import KadDht.Keyspace.Key
import KadDht.Lib.PrefixList
import Mathlib.Data.List.Dedup
import Mathlib.Data.List.Perm.Subperm

/-!
# Filters — the peers of a response by IP group (`rt_diversity_filter.go`)

A peer that answers a query could name many peers of one network. `filterPeersByIPDiversity` counts
the ids of each IP group, and removes every peer that has an address in a group with too many.

* **`filterPeersByIPDiversity_exact`** — which peers are removed.
-/

namespace KadDht.Filters

open List

/-- `peer.AddrInfo` -/
structure AddrInfo (Addr : Type) where
  id : PeerId
  addrs : List Addr

variable {Addr Group : Type} [DecidableEq Group] (ipGroup : Addr → Option Group)

/-- The groups of the addresses. One without an IP, or with an IP in no group, has none. -/
def AddrInfo.groups (p : AddrInfo Addr) : List Group := p.addrs.filterMap ipGroup

/-- `ipGroupPeers`. A map of sets is the list of its pairs. -/
def ipGroupPeers (newPeers : List (AddrInfo Addr)) : List (Group × PeerId) :=
  newPeers.foldl (fun m p => (p.groups ipGroup).foldl (fun m g => m.insert (g, p.id)) m) []

/-- `ipGroupPeers[g]` -/
def groupPeers (m : List (Group × PeerId)) (g : Group) : List PeerId :=
  (m.filter (·.1 = g)).map Prod.snd

def peersToRemove (m : List (Group × PeerId)) (limit : Nat) : List PeerId :=
  (m.filter fun e => (groupPeers m e.1).length > limit).map Prod.snd

def filterPeersByIPDiversity (newPeers : List (AddrInfo Addr)) (limit : Nat) :
    List (AddrInfo Addr) :=
  if limit = 0 then newPeers
  else
    let remove := peersToRemove (ipGroupPeers ipGroup newPeers) limit
    if remove = [] then newPeers else newPeers.filter fun p => !remove.contains p.id

/-- The distinct ids of the peers that have an address in the group. -/
def members (newPeers : List (AddrInfo Addr)) (g : Group) : List PeerId :=
  ((newPeers.filter fun p => g ∈ p.groups ipGroup).map AddrInfo.id).dedup

variable {ipGroup} {newPeers : List (AddrInfo Addr)} {limit : Nat} {g : Group} {id : PeerId}

theorem mem_members : id ∈ members ipGroup newPeers g ↔
    ∃ p ∈ newPeers, g ∈ p.groups ipGroup ∧ p.id = id := by
  simp [members, and_assoc]

theorem ipGroupPeers_eq : ipGroupPeers ipGroup newPeers =
    (newPeers.flatMap fun p => (p.groups ipGroup).map (·, p.id)).foldl
      (fun m e => m.insert e) [] := by
  rw [foldl_flatMap]
  simp only [foldl_map]
  rfl

theorem mem_ipGroupPeers :
    (g, id) ∈ ipGroupPeers ipGroup newPeers ↔ id ∈ members ipGroup newPeers g := by
  rw [ipGroupPeers_eq, mem_foldl_insert, mem_members]
  simp

theorem groupPeers_perm (g : Group) :
    (groupPeers (ipGroupPeers ipGroup newPeers) g).Perm (members ipGroup newPeers g) := by
  have hnodup : (ipGroupPeers ipGroup newPeers).Nodup := by
    rw [ipGroupPeers_eq]
    exact foldlRecOn _ _ (motive := Nodup) nodup_nil fun _ h _ _ => h.insert
  refine (perm_ext_iff_of_nodup ?_ (nodup_dedup _)).mpr fun id => ?_
  · refine (hnodup.filter _).map_on fun e he e' he' heq => ?_
    have hg := of_decide_eq_true (mem_filter.mp he).2
    have hg' := of_decide_eq_true (mem_filter.mp he').2
    exact Prod.ext (hg.trans hg'.symm) heq
  · refine Iff.trans ?_ mem_ipGroupPeers
    simp [groupPeers]

theorem mem_peersToRemove : id ∈ peersToRemove (ipGroupPeers ipGroup newPeers) limit ↔
    ∃ p ∈ newPeers, p.id = id ∧ ∃ g ∈ p.groups ipGroup,
      limit < (members ipGroup newPeers g).length := by
  have hmem : id ∈ peersToRemove (ipGroupPeers ipGroup newPeers) limit ↔
      ∃ g, id ∈ members ipGroup newPeers g ∧ limit < (members ipGroup newPeers g).length := by
    simp [peersToRemove, mem_ipGroupPeers, (groupPeers_perm _).length_eq]
  rw [hmem]
  constructor
  · rintro ⟨g, hid, hmany⟩
    obtain ⟨p, hp, hgp, hpid⟩ := mem_members.mp hid
    exact ⟨p, hp, hpid, g, hgp, hmany⟩
  · rintro ⟨p, hp, hpid, g, hgp, hmany⟩
    exact ⟨g, mem_members.mpr ⟨p, hp, hgp, hpid⟩, hmany⟩

/-- **The peers of a response.** Exactly those peers are removed that have the id of a peer with an
address in a group of more than `limit` ids. No group has more than `limit` ids in what is left. -/
theorem filterPeersByIPDiversity_exact (ipGroup : Addr → Option Group)
    (newPeers : List (AddrInfo Addr)) {limit : Nat} (hlimit : 1 ≤ limit) :
    filterPeersByIPDiversity ipGroup newPeers limit = (newPeers.filter fun p =>
        ∀ q ∈ newPeers, q.id = p.id → ∀ g ∈ q.groups ipGroup,
          (members ipGroup newPeers g).length ≤ limit) ∧
      ∀ g, (members ipGroup (filterPeersByIPDiversity ipGroup newPeers limit) g).length
        ≤ limit := by
  have hfilter : filterPeersByIPDiversity ipGroup newPeers limit =
      newPeers.filter fun p => ∀ q ∈ newPeers, q.id = p.id → ∀ g ∈ q.groups ipGroup,
        (members ipGroup newPeers g).length ≤ limit := by
    calc filterPeersByIPDiversity ipGroup newPeers limit
      _ = newPeers.filter fun p =>
          !(peersToRemove (ipGroupPeers ipGroup newPeers) limit).contains p.id := by
        simp only [filterPeersByIPDiversity, if_neg (Nat.ne_of_gt hlimit)]
        split
        · next hnone => simp [hnone]
        · rfl
      _ = _ := filter_congr fun p _ => by
        rw [contains_eq_mem, ← decide_not, decide_eq_decide, mem_peersToRemove]
        push Not
        rfl
  refine ⟨hfilter, fun g => ?_⟩
  rw [hfilter]
  cases hmembers : members ipGroup (newPeers.filter _) g with
  | nil => exact Nat.zero_le _
  | cons id ids =>
    -- a peer that is left has no address in a group of too many
    obtain ⟨p, hp, hgp, -⟩ := mem_members.mp (hmembers ▸ mem_cons_self : id ∈ members ipGroup _ g)
    obtain ⟨hp, hfew⟩ := mem_filter.mp hp
    refine Nat.le_trans ?_ (of_decide_eq_true hfew p hp rfl g hgp)
    rw [← hmembers]
    refine ((nodup_dedup _).subperm fun id hid => ?_).length_le
    obtain ⟨p, hp, hin⟩ := mem_members.mp hid
    exact mem_members.mpr ⟨p, (mem_filter.mp hp).1, hin⟩

/-- Three of the peers have an address in one group. -/
theorem filterPeersByIPDiversity_threePeers :
    filterPeersByIPDiversity (some : Nat → Option Nat)
      [⟨[1], [7]⟩, ⟨[2], [7, 8]⟩, ⟨[3], [7]⟩, ⟨[4], [8]⟩] 2 = [⟨[4], [8]⟩] :=
  (filterPeersByIPDiversity_exact some _ (Nat.le_succ 1)).1

end KadDht.Filters
