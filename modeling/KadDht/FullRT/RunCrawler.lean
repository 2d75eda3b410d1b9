import KadDht.FullRT.GetClosestPeers

/-!
# FullRT — the tables of a crawl (`fullrt/dht.go`)

After a crawl `runCrawler` replaces the addresses, the map from keys to peers and the routing table,
one after the other, each under a lock of its own. `GetClosestPeers` holds all three locks, but it
may get them between two of the replacements. It then reads the table of one crawl with the map of
the next one, and drops the peers that are missing there.

* **`noneMissing_iff`** — no key is missing in any interleaving exactly when no crawl loses a peer.
-/

namespace KadDht.FullRT

open List

variable {Addr Group : Type}

abbrev Found (Addr : Type) := List (PeerId × List Addr)

def Found.keys (found : Found Addr) : List Bit256 := found.map fun e => peerIDToBit256 e.1

/-- One step of `runCrawler`, under one of the locks. -/
inductive Update (Addr : Type) where
  | peerAddrs (found : Found Addr)
  | keyToPeerMap (found : Found Addr)
  | rt (found : Found Addr)

def Update.apply (dht : Client Addr) : Update Addr → Client Addr
  | .peerAddrs found =>
    { dht with peerAddrs := fun p => ((found.find? (·.1 = p)).map Prod.snd).getD [] }
  | .keyToPeerMap found =>
    { dht with
      keyToPeerMap := fun k => (found.find? fun e => peerIDToBit256 e.1 = k).map Prod.fst }
  | .rt found => { dht with rt := found.keys.dedup }

def updates (found : Found Addr) : List (Update Addr) :=
  [.peerAddrs found, .keyToPeerMap found, .rt found]

/-- The client that a call of `GetClosestPeers` finds. -/
def after (dht : Client Addr) (steps : List (Update Addr)) : Client Addr :=
  steps.foldl Update.apply dht

def Known (dht : Client Addr) : Prop := ∀ k ∈ dht.rt, dht.keyToPeerMap k ≠ none

/-! ## Missing keys -/

section Missing

variable [DecidableEq Group] {ipGroup : Addr → Option Group} {dht : Client Addr} {s : Search Group}

variable (ipGroup dht s) in
theorem missing_visit (k : Bit256) :
    (visit ipGroup dht s k).1.missing
      = s.missing ++ if dht.keyToPeerMap k = none then [k] else [] := by
  rw [visit]
  cases hk : dht.keyToPeerMap k with
  | none => simp
  | some p =>
    dsimp only
    rw [if_neg (Option.some_ne_none p), append_nil]
    generalize (if dht.ipDiversityFilterLimit > 0 then _ else _ : Counts Group × Bool) = counted
    cases counted.2 <;> rfl

variable (ipGroup dht s) in
theorem missing_peersLoop (ks : List Bit256) :
    s.missing ⊆ (peersLoop ipGroup dht ks s).1.missing ∧
      ((∀ k ∈ ks, dht.keyToPeerMap k ≠ none) →
        (peersLoop ipGroup dht ks s).1.missing = s.missing) := by
  fun_induction peersLoop ipGroup dht ks s with
  | case1 => exact ⟨List.Subset.refl _, fun _ => rfl⟩
  | case2 k ks s s' heq | case3 k ks s s' heq ih =>
    have hk := missing_visit ipGroup dht s k
    grind

theorem byDistance_self {k : Bit256} {rt : List Bit256} (hk : k ∈ rt) :
    ∃ rest, byDistance k rt = k :: rest := by
  have hperm := perm_insertionSort (fun a b => xorDist k a ≤ xorDist k b) rt
  have htotal : Std.Total fun a b => xorDist k a ≤ xorDist k b := ⟨fun a b => Nat.le_total _ _⟩
  have htrans : IsTrans Bit256 fun a b => xorDist k a ≤ xorDist k b := ⟨fun _ _ _ => Nat.le_trans⟩
  have hsorted := pairwise_insertionSort (fun a b => xorDist k a ≤ xorDist k b) rt
  rw [byDistance]
  cases heq : rt.insertionSort (fun a b => xorDist k a ≤ xorDist k b) with
  | nil =>
    rw [heq] at hperm
    exact absurd (hperm.mem_iff.mpr hk) not_mem_nil
  | cons first rest =>
    refine ⟨rest, ?_⟩
    rw [heq] at hperm hsorted
    rcases mem_cons.mp (hperm.mem_iff.mpr hk) with rfl | hrest
    · rfl
    · -- where another key leaves `k`, it gets farther away
      have hle := (pairwise_cons.mp hsorted).1 k hrest
      by_contra hne
      obtain ⟨c, u, hck, hcf⟩ := exists_branches (a := k.bits) (b := first.bits) fun hov =>
        hne (by rw [Bit256.eq_of_overlap hov])
      have hbit : BitKey.bit k c.length = u := BitKey.bit_of_prefix hck
      subst hbit
      have hlt := xorDist_lt c (fun a b => a.length_bits.trans b.length_bits.symm) hck hcf
      exact absurd hlt (Nat.not_lt.mpr hle)

/-- **When no key is missing** for any lookup. -/
theorem known_iff [XorLib] (hb : 0 < dht.bucketSize)
    (hrt : ∀ k ∈ dht.rt, ∃ p, peerIDToBit256 p = k) :
    (∀ key, (getClosestPeers ipGroup dht key).2 = []) ↔ Known dht := by
  simp only [getClosestPeers_eq ipGroup hb]
  constructor
  · -- a peer that is not in the map is missing in the lookup of its own identifier
    intro hnone k hk hmiss
    obtain ⟨p, rfl⟩ := hrt k hk
    obtain ⟨rest, heq⟩ := byDistance_self hk
    have hwalk : (walk ipGroup dht p).missing = [] := hnone p
    rw [walk, heq, peersLoop, visit, hmiss] at hwalk
    have hmem := (missing_peersLoop ipGroup dht ⟨fun _ => [], [], [peerIDToBit256 p]⟩ rest).1
      (mem_singleton_self _)
    exact absurd (hwalk ▸ hmem) not_mem_nil
  · intro hknown key
    refine (missing_peersLoop _ _ _ _).2 fun k hk => hknown k ?_
    exact (perm_insertionSort _ dht.rt).mem_iff.mp hk

end Missing

/-! ## Interleavings -/

section Interleavings

variable {dht : Client Addr} {found : Found Addr}

theorem find?_keys (k : Bit256) :
    (found.find? fun e => peerIDToBit256 e.1 = k).map Prod.fst ≠ none ↔ k ∈ found.keys := by
  simp [Found.keys]

theorem after_spec (dht : Client Addr) (steps : List (Update Addr))
    (hrt : ∀ k ∈ dht.rt, ∃ p, peerIDToBit256 p = k) :
    (after dht steps).bucketSize = dht.bucketSize ∧
      ∀ k ∈ (after dht steps).rt, ∃ p, peerIDToBit256 p = k := by
  induction steps generalizing dht with
  | nil => exact ⟨rfl, hrt⟩
  | cons u steps ih =>
    cases u with
    | peerAddrs found | keyToPeerMap found => exact ih _ hrt
    | rt found =>
      refine ih _ fun k hk => ?_
      obtain ⟨e, -, rfl⟩ := mem_map.mp (mem_dedup.mp hk)
      exact ⟨e.1, rfl⟩

def Settled (dht : Client Addr) (found : Found Addr) : Prop :=
  dht.rt = found.keys.dedup ∧
    dht.keyToPeerMap = fun k => (found.find? fun e => peerIDToBit256 e.1 = k).map Prod.fst

theorem Settled.known (h : Settled dht found) : Known dht := by
  intro k hk
  rw [h.1, mem_dedup] at hk
  rw [h.2]
  exact find?_keys k |>.mpr hk

/-- The points at which a lookup may come: all keys are known at each of them exactly when no crawl
loses a peer. -/
theorem known_after_iff (h : Settled dht found) (crawls : List (Found Addr)) :
    (∀ steps, steps <+: crawls.flatMap updates → Known (after dht steps)) ↔
      (found :: crawls).IsChain fun f f' => f.keys ⊆ f'.keys := by
  induction crawls generalizing dht found with
  | nil =>
    refine iff_of_true (fun steps hsteps => ?_) (List.IsChain.singleton _)
    rw [prefix_nil.mp hsteps]
    exact h.known
  | cons next crawls ih =>
    rw [isChain_cons_cons, flatMap_cons]
    have hnext : Settled (after dht (updates next)) next := ⟨rfl, rfl⟩
    rw [← ih hnext]
    constructor
    · intro hall
      refine ⟨fun k hk => ?_, fun steps hsteps => ?_⟩
      · -- the map was replaced, the table was not
        have hknown := hall [.peerAddrs next, .keyToPeerMap next] ⟨_, rfl⟩
        exact (find?_keys k).mp (hknown k (h.1 ▸ mem_dedup.mpr hk))
      · have hknown := hall (updates next ++ steps) (prefix_append_right_inj _ |>.mpr hsteps)
        rwa [after, foldl_append] at hknown
    · rintro ⟨hsub, hrest⟩ steps hsteps
      rcases prefix_cons_iff.mp hsteps with rfl | ⟨steps1, rfl, hsteps1⟩
      · exact h.known
      rcases prefix_cons_iff.mp hsteps1 with rfl | ⟨steps2, rfl, hsteps2⟩
      · exact h.known
      rcases prefix_cons_iff.mp hsteps2 with rfl | ⟨steps3, rfl, hsteps3⟩
      · intro k hk
        exact (find?_keys k).mpr (hsub (mem_dedup.mp (h.1 ▸ hk)))
      · exact hrest steps3 hsteps3

variable [DecidableEq Group] (ipGroup : Addr → Option Group)

/-- **A consistent snapshot.** In all interleavings of the crawls of a new client with lookups,
every key taken from the table is in the map exactly when every peer that a crawl finds is found by
the next one, too. -/
theorem noneMissing_iff [XorLib] {bucketSize : Nat} (hb : 0 < bucketSize) (limit : Nat)
    (crawls : List (Found Addr)) :
    (∀ steps, steps <+: crawls.flatMap updates → ∀ key, (getClosestPeers ipGroup
        (after ⟨[], fun _ => none, fun _ => [], bucketSize, limit⟩ steps) key).2 = []) ↔
      crawls.IsChain fun f f' => f.keys ⊆ f'.keys := by
  have hchain : ([] :: crawls).IsChain (fun f f' : Found Addr => f.keys ⊆ f'.keys) ↔
      crawls.IsChain fun f f' => f.keys ⊆ f'.keys := by
    cases crawls with
    | nil => exact iff_of_true (List.IsChain.singleton _) List.IsChain.nil
    | cons f crawls => exact isChain_cons_cons.trans (and_iff_right (nil_subset _))
  have hnew : Settled (⟨[], fun _ => none, fun _ => [], bucketSize, limit⟩ : Client Addr) [] :=
    ⟨rfl, rfl⟩
  rw [← hchain, ← known_after_iff hnew]
  refine forall₂_congr fun steps _ => ?_
  obtain ⟨hsize, hrt⟩ := after_spec (⟨[], fun _ => none, fun _ => [], bucketSize, limit⟩ :
    Client Addr) steps (by simp)
  exact known_iff (hsize ▸ hb) hrt

end Interleavings

/-- The second crawl finds nobody. Between its last two steps the only peer of the table is
dropped. -/
theorem not_noneMissing_lost :
    let steps : List (Update Unit) := updates [([1], [])] ++ [.peerAddrs [], .keyToPeerMap []]
    steps <+: [[([1], [])], []].flatMap updates ∧
      peerIDToBit256 [1] ∈ (@getClosestPeers _ _ _ (fun _ => some ()) sortedTable
        (after ⟨[], fun _ => none, fun _ => [], 20, 0⟩ steps) [1]).2 :=
  ⟨⟨_, rfl⟩, mem_cons_self⟩

theorem noneMissing_iff_same :
    (∀ steps, steps <+: [[([1], [])], [([1], [])]].flatMap updates → ∀ key,
        (@getClosestPeers _ _ _ (fun _ : Unit => some ()) sortedTable
          (after ⟨[], fun _ => none, fun _ => [], 20, 0⟩ steps) key).2 = []) ↔
      [[([1], [])], [([1], [])]].IsChain fun f f' : Found Unit => f.keys ⊆ f'.keys :=
  @noneMissing_iff _ _ _ _ sortedTable _ (by decide) _ _

end KadDht.FullRT
