import KadDht.Keyspace.Trie

/-!
# Keyspace — regions of the network (`provider/internal/keyspace/trie.go`)

The peers found in the network are organised in regions. `RegionsFromPeers` takes the longest
prefix all peers share, and splits the keyspace below it as long as both halves have enough
peers; `AssignKeysToRegions` then files keys under the region they fall into.

The regions split the *common prefix of the peers*: a key that does not start with it falls into
no region.

* **`regionsFromPeers_partition`** — the regions are a partition.
-/

namespace KadDht

open BitKey List TrieLib Trie

/-- `Region`. The source leaves `Keys` nil until keys are assigned, which is an empty trie
here. -/
structure Region where
  pfx : Bitstr
  peers : Trie Bit256 PeerId
  keys : Trie Bit256 Multihash
deriving DecidableEq

def extractMinimalRegions (size : Nat) (order : Bit256) :
    Trie Bit256 PeerId → Bitstr → List Region
  | .emptyLeaf, _ => []
  | .leaf k d, path => [⟨path, .leaf k d, .emptyLeaf⟩]
  | .node b0 b1, path =>
    if b0.size ≥ size ∧ b1.size ≥ size then
      match bit order path.length with
      | false => extractMinimalRegions size order b0 (path ++ [false])
          ++ extractMinimalRegions size order b1 (path ++ [true])
      | true => extractMinimalRegions size order b1 (path ++ [true])
          ++ extractMinimalRegions size order b0 (path ++ [false])
    else [⟨path, .node b0 b1, .emptyLeaf⟩]

/-- The walk of `RegionsFromPeers` to the subtrie at the common prefix. It stops at a leaf, and
gives up at an empty branch. -/
def descendTo {K D : Type} : Trie K D → Bitstr → Option (Trie K D)
  | .node b0 b1, b :: rest =>
    if (Trie.child b0 b1 b).isEmptyLeaf then none else descendTo (Trie.child b0 b1 b) rest
  | t, _ => some t

def minCommonPrefixLength (firstPeerKey : Bit256) (peers : List PeerId) : Nat :=
  peers.foldl (fun minCpl p => min minCpl
    (commonPrefixLength firstPeerKey.bits (peerIDToBit256 p).bits)) keyLen

/-- `RegionsFromPeers`: the regions, and the prefix all peers share. -/
def regionsFromPeers [TrieLib] (peers : List PeerId) (regionSize : Nat) (order : Bit256) :
    List Region × Bitstr :=
  match peers with
  | [] => ([], [])
  | first :: _ =>
    let firstPeerKey := peerIDToBit256 first
    let peersTrie := TrieLib.addMany .emptyLeaf (peers.map peerEntry)
    let commonPrefix := firstPeerKey.bits.take (minCommonPrefixLength firstPeerKey peers)
    match descendTo peersTrie commonPrefix with
    | none => ([], commonPrefix)
    | some subtrie =>
      (extractMinimalRegions regionSize order subtrie commonPrefix, commonPrefix)

def findRegion (regions : List Region) (h : Bit256) : Option Region :=
  regions.find? fun r => isPrefix r.pfx h

/-- `keyEntriesByRegion` of `AssignKeysToRegions`, read at one prefix. -/
def keyEntriesByRegion (regions : List Region) (keys : List Multihash) (pfx : Bitstr) :
    List (Bit256 × Multihash) :=
  (keys.filter fun k => (findRegion regions (mhToBit256 k)).any fun r => r.pfx == pfx).map keyEntry

def assignKeysToRegions [TrieLib] (regions : List Region) (keys : List Multihash) :
    List Region :=
  regions.map fun r =>
    { r with keys := TrieLib.addMany .emptyLeaf (keyEntriesByRegion regions keys r.pfx) }

/-! ## The common prefix -/

theorem le_foldl_min {α : Type} (f : α → Nat) (l : List α) (init n : Nat) :
    n ≤ l.foldl (fun m a => min m (f a)) init ↔ n ≤ init ∧ ∀ a ∈ l, n ≤ f a := by
  induction l generalizing init with
  | nil => simp
  | cons a l ih => simp [ih, and_assoc]

/-- A bit string is a prefix of the first `minCpl` bits of the first peer exactly when it is a
prefix of every peer's identifier. -/
theorem prefix_take_minCommonPrefixLength (first : PeerId) (rest : List PeerId) (b : Bitstr) :
    b <+: (peerIDToBit256 first).bits.take
        (minCommonPrefixLength (peerIDToBit256 first) (first :: rest)) ↔
      ∀ p ∈ first :: rest, b <+: (peerIDToBit256 p).bits := by
  set k := (peerIDToBit256 first).bits with hk
  have hlen : k.length = 256 := (peerIDToBit256 first).length_bits
  have hmin := fun n => le_foldl_min
    (fun p => commonPrefixLength k (peerIDToBit256 p).bits) (first :: rest) keyLen n
  constructor
  · intro hb p hp
    refine hb.trans ((take_prefix_iff _ _ _).mpr ?_)
    have hle := ((hmin _).mp le_rfl).2 p hp
    exact (Nat.min_le_left _ _).trans hle
  · intro hall
    have hbk : b <+: k := hall first mem_cons_self
    rw [prefix_take_iff]
    refine ⟨hbk, (hmin b.length).mpr ⟨?_, fun p hp => ?_⟩⟩
    · exact hbk.length_le.trans_eq hlen
    · -- `b` is the first `b.length` bits of the first peer
      have htake := (take_prefix_iff k (peerIDToBit256 p).bits b.length).mp
        ((prefix_iff_eq_take.mp hbk) ▸ hall p hp)
      rwa [Nat.min_eq_left hbk.length_le] at htake

section Specs

variable [TrieLib]

variable {peers : List PeerId} {size : Nat} {r : Region} {regions : List Region}

/-- **The common prefix** is the longest prefix all peers share. -/
theorem regionsFromPeers_commonPrefix (hne : peers ≠ []) (size : Nat) (order : Bit256)
    (b : Bitstr) :
    b <+: (regionsFromPeers peers size order).2 ↔ ∀ p ∈ peers, b <+: (peerIDToBit256 p).bits := by
  cases peers with
  | nil => exact absurd rfl hne
  | cons first rest =>
    rw [← prefix_take_minCommonPrefixLength, regionsFromPeers]
    split <;> rfl

/-! ## The regions split the common prefix -/

omit [TrieLib] in
/-- The walk towards a prefix shared by all entries ends at a subtrie with the same entries. -/
theorem descendTo_spec {D : Type} (t : Trie Bit256 D) (path rest : Bitstr) (h : t.WFAt path)
    (hne : t.entries ≠ []) (hall : ∀ e ∈ t.entries, path ++ rest <+: e.1.bits) :
    ∃ t', descendTo t rest = some t' ∧ t'.WFAt (path ++ rest) ∧ t'.entries = t.entries := by
  fun_induction descendTo t rest generalizing path with
  | case1 b0 b1 b rest hempty =>
    -- an entry of the other branch does not start with the shared prefix
    exfalso
    obtain ⟨e, he⟩ := exists_mem_of_ne_nil _ hne
    have hstep : path ++ [b] <+: e.1.bits := List.IsPrefix.trans ⟨rest, by simp⟩ (hall e he)
    rcases (mem_entries_node b).mp he with hin | hout
    · rw [(isEmptyLeaf_iff _).mp hempty] at hin
      simp at hin
    · exact h.not_overlap_other hstep hout (Overlap.refl _)
  | case2 b0 b1 b rest hsome ih =>
    have hstep : ∀ e ∈ (node b0 b1).entries, path ++ [b] <+: e.1.bits := fun e he =>
      List.IsPrefix.trans ⟨rest, by simp⟩ (hall e he)
    have hother : (child b0 b1 !b).entries = [] := by
      rw [eq_nil_iff_forall_not_mem]
      intro e he
      have hmem : e ∈ (node b0 b1).entries := mem_entries_of_child he
      exact h.not_overlap_other (hstep e hmem) he (Overlap.refl _)
    have heq : (child b0 b1 b).entries = (node b0 b1).entries := by
      cases b with
      | false =>
        have h1 : b1.entries = [] := hother
        simp [child, h1]
      | true =>
        have h0 : b0.entries = [] := hother
        simp [child, h0]
    have hassoc : path ++ b :: rest = (path ++ [b]) ++ rest := by simp
    rw [hassoc] at hall ⊢
    rw [← heq] at hne hall ⊢
    exact ih (path ++ [b]) (h.child b) hne hall
  | case3 rest t hleaf =>
    refine ⟨t, rfl, ?_, rfl⟩
    cases t with
    | emptyLeaf => trivial
    | leaf k d => exact hall (k, d) (by simp)
    | node b0 b1 =>
      cases rest with
      | nil => rwa [append_nil]
      | cons b rest => exact absurd rfl (hleaf b0 b1 b rest rfl)

omit [TrieLib] in
theorem extractMinimalRegions_node (size : Nat) (order : Bit256) (b0 b1 : Trie Bit256 PeerId)
    (path : Bitstr) :
    extractMinimalRegions size order (.node b0 b1) path
      = if ∀ b, size ≤ (Trie.child b0 b1 b).size then
          extractMinimalRegions size order (Trie.child b0 b1 (bit order path.length))
              (path ++ [bit order path.length])
            ++ extractMinimalRegions size order (Trie.child b0 b1 !bit order path.length)
              (path ++ [!bit order path.length])
        else [⟨path, .node b0 b1, .emptyLeaf⟩] := by
  have hbig : (∀ b, size ≤ (child b0 b1 b).size) ↔ b0.size ≥ size ∧ b1.size ≥ size :=
    Bool.forall_bool
  rw [extractMinimalRegions]
  simp only [hbig]
  cases bit order path.length <;> rfl

omit [TrieLib] in
theorem extractMinimalRegions_splits (hsize : 0 < size) (order : Bit256) (t : Trie Bit256 PeerId)
    (path : Bitstr) (h : t.WFAt path) (hne : t.entries ≠ []) :
    Splits 256 path ((extractMinimalRegions size order t path).map Region.pfx) := by
  induction t using childInduction generalizing path with
  | emptyLeaf => exact absurd rfl hne
  | leaf k d => exact Splits.single 256 path
  | node b0 b1 ih =>
    rw [extractMinimalRegions_node]
    split
    · next hbig =>
      have hbranch : ∀ b, Splits 256 (path ++ [b])
          ((extractMinimalRegions size order (child b0 b1 b) (path ++ [b])).map Region.pfx) := by
        intro b
        refine ih b _ (h.child b) ?_
        rw [← length_pos_iff, ← size_eq_length_entries]
        exact hsize.trans_le (hbig b)
      obtain ⟨e, he⟩ := exists_mem_of_ne_nil _ hne
      rw [map_append]
      exact (hbranch _).append (hbranch _) ((h.length_lt he).trans_eq e.1.length_bits)
    · exact Splits.single 256 path

/-- A region of a subtrie: it lies below the path of the subtrie and has exactly those peers of it
that match its prefix, enough of them if there are enough in the subtrie. One of its halves has
too few. -/
structure IsRegion (size : Nat) (t : Trie Bit256 PeerId) (path : Bitstr) (r : Region) : Prop where
  below : path <+: r.pfx
  nonempty : r.peers.entries ≠ []
  peers : r.peers.entries = t.entries.filter fun e => decide (r.pfx <+: e.1.bits)
  big : size ≤ t.size → size ≤ r.peers.size
  minimal : (∀ b, size ≤ r.peers.entries.countP fun e => decide (r.pfx ++ [b] <+: e.1.bits)) →
    size = 0

omit [TrieLib] in
theorem filter_branch {b0 b1 : Trie Bit256 PeerId} {path p : Bitstr}
    (h : (Trie.node b0 b1).WFAt path) {b : Bool} (hp : path ++ [b] <+: p) :
    (Trie.node b0 b1).entries.filter (fun e => decide (p <+: e.1.bits))
      = (Trie.child b0 b1 b).entries.filter fun e => decide (p <+: e.1.bits) := by
  have hother : (child b0 b1 !b).entries.filter (fun e => decide (p <+: e.1.bits)) = [] := by
    rw [filter_eq_nil_iff]
    intro e he hpe
    exact h.not_overlap_other (hp.trans (of_decide_eq_true hpe)) he (Overlap.refl _)
  rw [entries_node, filter_append]
  cases b with
  | false => rw [show b1.entries.filter _ = [] from hother, append_nil]; rfl
  | true => rw [show b0.entries.filter _ = [] from hother, nil_append]; rfl

omit [TrieLib] in
theorem IsRegion.of_child {b0 b1 : Trie Bit256 PeerId} {path : Bitstr} {b : Bool}
    (hr : IsRegion size (Trie.child b0 b1 b) (path ++ [b]) r)
    (h : (Trie.node b0 b1).WFAt path) (hbig : size ≤ (Trie.child b0 b1 b).size) :
    IsRegion size (.node b0 b1) path r where
  below := (prefix_append path [b]).trans hr.below
  nonempty := hr.nonempty
  peers := hr.peers.trans (filter_branch h hr.below).symm
  big _ := hr.big hbig
  minimal := hr.minimal

omit [TrieLib] in
theorem IsRegion.whole {t : Trie Bit256 PeerId} {path : Bitstr} (h : t.WFAt path)
    (hne : t.entries ≠ [])
    (hmin : (∀ b, size ≤ t.entries.countP fun e => decide (path ++ [b] <+: e.1.bits)) → size = 0) :
    IsRegion size t path ⟨path, t, .emptyLeaf⟩ where
  below := prefix_rfl
  nonempty := hne
  peers := (filter_eq_self.mpr fun _ he => decide_eq_true (h.prefix_of_mem he)).symm
  big := id
  minimal := hmin

omit [TrieLib] in
theorem isRegion_of_mem (order : Bit256) (t : Trie Bit256 PeerId) (path : Bitstr)
    (h : t.WFAt path) (hr : r ∈ extractMinimalRegions size order t path) :
    IsRegion size t path r := by
  induction t using childInduction generalizing path with
  | emptyLeaf => simp [extractMinimalRegions] at hr
  | leaf k d =>
    rw [extractMinimalRegions, mem_singleton] at hr
    subst hr
    refine IsRegion.whole h (by simp) fun hmin => ?_
    -- the only peer does not match both halves
    by_contra hpos
    have hhalf : ∀ b, path ++ [b] <+: k.bits := by
      intro b
      have hcount := (Nat.pos_of_ne_zero hpos).trans_le (hmin b)
      obtain ⟨e, he, hpre⟩ := countP_pos_iff.mp hcount
      rw [entries_leaf, mem_singleton] at he
      subst he
      exact of_decide_eq_true hpre
    exact not_overlap_of_branches (hhalf true) (hhalf false) (Overlap.refl _)
  | node b0 b1 ih =>
    rw [extractMinimalRegions_node] at hr
    split at hr
    · next hbig =>
      rcases mem_append.mp hr with hr | hr
      · exact (ih _ _ (h.child _) hr).of_child h (hbig _)
      · exact (ih _ _ (h.child _) hr).of_child h (hbig _)
    · next hsmall =>
      rw [mem_singleton] at hr
      subst hr
      refine IsRegion.whole h h.entries_ne_nil fun hmin => absurd (fun b => ?_) hsmall
      rw [size_eq_length_entries]
      refine (hmin b).trans ?_
      rw [countP_eq_length_filter, filter_branch h prefix_rfl]
      exact length_filter_le _ _

omit [TrieLib] in
theorem extractMinimalRegions_sorted (order : Bit256) (t : Trie Bit256 PeerId) (path : Bitstr)
    (h : t.WFAt path) :
    (extractMinimalRegions size order t path).Pairwise
      fun r r' => XorBefore order.bits r.pfx r'.pfx := by
  induction t using childInduction generalizing path with
  | emptyLeaf => exact List.Pairwise.nil
  | leaf k d => exact pairwise_singleton _ _
  | node b0 b1 ih =>
    rw [extractMinimalRegions_node]
    split
    · refine pairwise_append.mpr ⟨ih _ _ (h.child _), ih _ _ (h.child _), ?_⟩
      intro r hr r' hr'
      exact ⟨path, (isRegion_of_mem order _ _ (h.child _) hr).below,
        (isRegion_of_mem order _ _ (h.child _) hr').below⟩
    · exact pairwise_singleton _ _

/-- The regions of a non-empty list of peers are extracted from a subtrie at the common prefix
that has the entries of the trie of all peers. -/
theorem regionsFromPeers_eq (hne : peers ≠ []) (size : Nat) (order : Bit256) :
    ∃ t, (regionsFromPeers peers size order).1
        = extractMinimalRegions size order t (regionsFromPeers peers size order).2 ∧
      t.WFAt (regionsFromPeers peers size order).2 ∧ t.entries ≠ [] ∧
      t.entries = (TrieLib.addMany .emptyLeaf (peers.map peerEntry)).entries := by
  cases peers with
  | nil => exact absurd rfl hne
  | cons first rest =>
    have hacc := acceptsAll_bit256 (.emptyLeaf : Trie Bit256 PeerId) ((first :: rest).map peerEntry)
    set t := addMany (.emptyLeaf : Trie Bit256 PeerId) ((first :: rest).map peerEntry)
      with ht
    set c := (peerIDToBit256 first).bits.take
      (minCommonPrefixLength (peerIDToBit256 first) (first :: rest)) with hc
    have hwf : t.WF := addMany_wf wf_emptyLeaf hacc
    have hkey : peerIDToBit256 first ∈ t.keys :=
      (mem_keys_addMany _ wf_emptyLeaf hacc).mpr (.inr (by simp [peerEntry]))
    have hnonempty : t.entries ≠ [] := by
      obtain ⟨d, hd⟩ := mem_keys.mp hkey
      exact ne_nil_of_mem hd
    have hall : ∀ e ∈ t.entries, [] ++ c <+: e.1.bits := by
      intro e he
      rcases mem_of_mem_addMany wf_emptyLeaf hacc he with hold | hnew
      · simp at hold
      · obtain ⟨p, hp, rfl⟩ := mem_map.mp hnew
        exact (prefix_take_minCommonPrefixLength first rest c).mp prefix_rfl p hp
    obtain ⟨t', hdescend, hwf', hentries⟩ := descendTo_spec t [] c hwf hnonempty hall
    have hregions : regionsFromPeers (first :: rest) size order
        = (extractMinimalRegions size order t' c, c) := by
      rw [regionsFromPeers]
      simp only [← ht, ← hc, hdescend]
    rw [hregions]
    exact ⟨t', rfl, hwf', hentries ▸ hnonempty, hentries⟩

/-- **The regions** split the keyspace below the common prefix. -/
theorem regionsFromPeers_splits (hne : peers ≠ []) (hsize : 0 < size) (order : Bit256) :
    Splits 256 (regionsFromPeers peers size order).2
      ((regionsFromPeers peers size order).1.map Region.pfx) := by
  obtain ⟨t, heq, hwf, hentries, -⟩ := regionsFromPeers_eq hne size order
  rw [heq]
  exact extractMinimalRegions_splits hsize order t _ hwf hentries

/-- A region has peers, each once. -/
structure Region.HasPeers (r : Region) : Prop where
  nonempty : r.peers.entries ≠ []
  nodup : (r.peers.entries.map Prod.snd).Nodup

theorem regionsFromPeers_peers {order : Bit256} (hr : r ∈ (regionsFromPeers peers size order).1) :
    r.HasPeers := by
  by_cases hne : peers = []
  · simp [hne, regionsFromPeers] at hr
  · obtain ⟨t, heq, hwf, -, hentries⟩ := regionsFromPeers_eq hne size order
    rw [heq] at hr
    have hregion := isRegion_of_mem order t _ hwf hr
    refine ⟨hregion.nonempty, ?_⟩
    -- a peer is stored under its own identifier, and no two of them are the same
    have hfiled : ∀ e ∈ t.entries, e = peerEntry e.2 := by
      intro e he
      rw [hentries] at he
      obtain ⟨p, -, rfl⟩ := mem_map.mp
        ((mem_of_mem_addMany wf_emptyLeaf (acceptsAll_bit256 _ _) he).resolve_left (by simp))
      rfl
    have hnodup : (t.entries.map Prod.snd).Nodup :=
      Nodup.map_on (fun e he e' he' hsame => by rw [hfiled e he, hfiled e' he', hsame])
        (hentries ▸ (addMany_wf wf_emptyLeaf (acceptsAll_bit256 _ _)).entries_nodup)
    rw [hregion.peers]
    exact hnodup.sublist (filter_sublist.map _)

/-- No key falls into two of the regions. -/
def Separate (regions : List Region) : Prop :=
  regions.Pairwise fun a b => ¬ Overlap a.pfx b.pfx

omit [TrieLib] in
theorem findRegion_eq_some (hdisj : Separate regions) (hr : r ∈ regions) {h : Bit256}
    (hpre : r.pfx <+: h.bits) : findRegion regions h = some r := by
  unfold findRegion
  induction regions with
  | nil => simp at hr
  | cons a regions ih =>
    have hdisj := pairwise_cons.mp hdisj
    rcases mem_cons.mp hr with rfl | hmem
    · rw [find?_cons_of_pos]
      exact (isPrefix_iff _ _).mpr hpre
    · rw [find?_cons_of_neg]
      · exact ih hdisj.2 hmem
      · intro ha
        exact hdisj.1 r hmem (overlap_of_prefixes ((isPrefix_iff _ _).mp ha) hpre)

theorem entries_peersTrie (hnodup : peers.Nodup)
    (hid : ∀ p ∈ peers, ∀ q ∈ peers, peerIDToBit256 p = peerIDToBit256 q → p = q) :
    (TrieLib.addMany (.emptyLeaf : Trie Bit256 PeerId) (peers.map peerEntry)).entries.Perm
      (peers.map peerEntry) := by
  have hacc := acceptsAll_bit256 (.emptyLeaf : Trie Bit256 PeerId) (peers.map peerEntry)
  have hwf := addMany_wf wf_emptyLeaf hacc
  have hsub : ∀ {e}, e ∈ (addMany (.emptyLeaf : Trie Bit256 PeerId)
      (peers.map peerEntry)).entries → e ∈ peers.map peerEntry := fun he =>
    (mem_of_mem_addMany wf_emptyLeaf hacc he).resolve_left (by simp)
  rw [perm_ext_iff_of_nodup hwf.entries_nodup (hnodup.map fun _ _ heq => congrArg Prod.snd heq)]
  refine fun e => ⟨hsub, fun he => ?_⟩
  obtain ⟨p, hp, rfl⟩ := mem_map.mp he
  have hkey := (mem_keys_addMany _ wf_emptyLeaf hacc).mpr (.inr (mem_map_of_mem (f := Prod.fst) he))
  -- the entry stored under the identifier of the peer is the peer's own
  obtain ⟨d, hd⟩ := mem_keys.mp hkey
  obtain ⟨q, hq, heq⟩ := mem_map.mp (hsub hd)
  obtain ⟨hkey, rfl⟩ := Prod.mk.inj heq
  obtain rfl := hid q hq p hp hkey
  exact hd

/-- **`RegionsFromPeers` partitions the peers.** The common prefix is the longest one all peers
share, and the regions split the keyspace below it, in the order around `order`. Each peer matches
exactly one region, and a region has exactly the peers that match it: at least `regionSize` of them
if there are that many in all, but not as many in both of its halves. -/
theorem regionsFromPeers_partition (hne : peers ≠ []) (hnodup : peers.Nodup)
    (hid : ∀ p ∈ peers, ∀ q ∈ peers, peerIDToBit256 p = peerIDToBit256 q → p = q)
    (hsize : 0 < size) (order : Bit256) :
    (∀ b, b <+: (regionsFromPeers peers size order).2 ↔
        ∀ p ∈ peers, b <+: (peerIDToBit256 p).bits) ∧
      Splits 256 (regionsFromPeers peers size order).2
        ((regionsFromPeers peers size order).1.map Region.pfx) ∧
      (regionsFromPeers peers size order).1.Pairwise
        (fun r r' => XorBefore order.bits r.pfx r'.pfx) ∧
      (∀ p ∈ peers, ∃! r, r ∈ (regionsFromPeers peers size order).1 ∧
        r.pfx <+: (peerIDToBit256 p).bits) ∧
      ∀ r ∈ (regionsFromPeers peers size order).1,
        (r.peers.entries.map Prod.snd).Perm
          (peers.filter fun p => decide (r.pfx <+: (peerIDToBit256 p).bits)) ∧
        (size ≤ peers.length → size ≤ r.peers.size) ∧
        ∃ b, (peers.filter fun p =>
          decide (r.pfx ++ [b] <+: (peerIDToBit256 p).bits)).length < size := by
  obtain ⟨t, heq, hwf, -, hentries⟩ := regionsFromPeers_eq hne size order
  have hcommon := regionsFromPeers_commonPrefix hne size order
  have hsplits := regionsFromPeers_splits hne hsize order
  have hperm : t.entries.Perm (peers.map peerEntry) := hentries ▸ entries_peersTrie hnodup hid
  have hsorted : (regionsFromPeers peers size order).1.Pairwise
      fun r r' => XorBefore order.bits r.pfx r'.pfx :=
    heq ▸ extractMinimalRegions_sorted order t _ hwf
  refine ⟨hcommon, hsplits, hsorted, fun p hp => ?_, fun r hr => ?_⟩
  · obtain ⟨x, hx, hpre⟩ := hsplits.covers _ (peerIDToBit256 p).length_bits
      ((hcommon _).mp prefix_rfl p hp)
    obtain ⟨r, hr, rfl⟩ := mem_map.mp hx
    refine ⟨r, ⟨hr, hpre⟩, fun r' hr' => ?_⟩
    have hfirst := fun {r} => findRegion_eq_some (r := r) (pairwise_map.mp hsplits.disjoint)
    exact Option.some.inj ((hfirst hr'.1 hr'.2).symm.trans (hfirst hr hpre))
  · rw [heq] at hr
    have hregion := isRegion_of_mem order t _ hwf hr
    have hcount : ∀ q, (t.entries.filter fun e => decide (q <+: e.1.bits)).Perm
        ((peers.filter fun p => decide (q <+: (peerIDToBit256 p).bits)).map peerEntry) := by
      intro q
      have hfilter := hperm.filter fun e => decide (q <+: e.1.bits)
      rwa [filter_map] at hfilter
    refine ⟨?_, fun hall => hregion.big ?_, ?_⟩
    · have hpeers := (hregion.peers ▸ hcount r.pfx).map Prod.snd
      rwa [map_map, show Prod.snd ∘ peerEntry = id from rfl, map_id] at hpeers
    · rwa [size_eq_length_entries, hperm.length_eq, length_map]
    · by_contra hboth
      refine hsize.ne' (hregion.minimal fun b => ?_)
      rw [hregion.peers, countP_filter, countP_eq_length_filter]
      have hsame : (t.entries.filter fun e =>
          decide (r.pfx ++ [b] <+: e.1.bits) && decide (r.pfx <+: e.1.bits))
          = t.entries.filter fun e => decide (r.pfx ++ [b] <+: e.1.bits) := by
        refine filter_congr fun e _ => ?_
        rw [← Bool.decide_and, decide_eq_decide]
        exact and_iff_left_of_imp fun h => (prefix_append _ _).trans h
      rw [hsame, (hcount _).length_eq, length_map]
      exact not_lt.mp fun hlt => hboth ⟨b, hlt⟩

omit [TrieLib] in
/-- Of three peers, each is in one region when regions of one peer are asked for. -/
theorem regionsFromPeers_partition_run :
    ([[1], [2], [3]] : List PeerId).Nodup ∧ ∀ p ∈ [[1], [2], [3]], ∃! r,
      r ∈ (@regionsFromPeers binaryTrie [[1], [2], [3]] 1 zeroKey).1 ∧
        r.pfx <+: (peerIDToBit256 p).bits :=
  ⟨by decide, (@regionsFromPeers_partition binaryTrie _ 1 (by decide) (by decide)
    (by decide +kernel) (by decide) zeroKey).2.2.2.1⟩

/-! ## Assigning keys -/

theorem assigned_wf (regions : List Region) (keys : List Multihash) (pfx : Bitstr) :
    (TrieLib.addMany (.emptyLeaf : Trie Bit256 Multihash)
      (keyEntriesByRegion regions keys pfx)).WF :=
  addMany_wf wf_emptyLeaf (acceptsAll_bit256 _ _)

omit [TrieLib] in
theorem mem_keyEntriesByRegion (hdisj : Separate regions) (hr : r ∈ regions) (keys : List Multihash)
    (e : Bit256 × Multihash) :
    e ∈ keyEntriesByRegion regions keys r.pfx ↔
      ∃ m ∈ keys, r.pfx <+: (mhToBit256 m).bits ∧ e = keyEntry m := by
  simp only [keyEntriesByRegion, mem_map, mem_filter, Option.any_eq_true, beq_iff_eq]
  constructor
  · rintro ⟨m, ⟨hm, r', hfind, heq⟩, rfl⟩
    have hpre := find?_some hfind
    rw [isPrefix_iff] at hpre
    exact ⟨m, hm, heq ▸ hpre, rfl⟩
  · rintro ⟨m, hm, hpre, rfl⟩
    exact ⟨m, ⟨hm, r, findRegion_eq_some hdisj hr hpre, rfl⟩, rfl⟩

/-- **Assigned keys.** A region receives exactly the given keys that fall below its prefix, up
to keys with the same identifier. -/
theorem mem_keys_assignKeysToRegions (hdisj : Separate regions) (hr : r ∈ regions)
    (keys : List Multihash) (k : Bit256) :
    k ∈ (TrieLib.addMany (.emptyLeaf : Trie Bit256 Multihash)
        (keyEntriesByRegion regions keys r.pfx)).keys ↔
      ∃ m ∈ keys, r.pfx <+: (mhToBit256 m).bits ∧ mhToBit256 m = k := by
  rw [mem_keys_addMany k wf_emptyLeaf (acceptsAll_bit256 _ _), mem_map]
  simp only [keys_emptyLeaf, not_mem_nil, false_or, mem_keyEntriesByRegion hdisj hr]
  constructor
  · rintro ⟨e, ⟨m, hm, hpre, rfl⟩, rfl⟩
    exact ⟨m, hm, hpre, rfl⟩
  · rintro ⟨m, hm, hpre, rfl⟩
    exact ⟨keyEntry m, ⟨m, hm, hpre, rfl⟩, rfl⟩

/-- The keys of a region lie below its prefix, each filed under its own identifier. -/
structure Region.KeysMatch (r : Region) : Prop where
  wf : r.keys.WF
  filed : ∀ e ∈ r.keys.entries, e.1 = mhToBit256 e.2
  below : ∀ e ∈ r.keys.entries, r.pfx <+: e.1.bits

theorem keysMatch_assignKeysToRegions (hdisj : Separate regions) (keys : List Multihash)
    (hr : r ∈ assignKeysToRegions regions keys) : r.KeysMatch := by
  obtain ⟨r0, hr0, rfl⟩ := mem_map.mp hr
  have hentry : ∀ e ∈ (addMany (.emptyLeaf : Trie Bit256 Multihash)
      (keyEntriesByRegion regions keys r0.pfx)).entries,
      ∃ m ∈ keys, r0.pfx <+: (mhToBit256 m).bits ∧ e = keyEntry m := by
    intro e he
    rcases mem_of_mem_addMany wf_emptyLeaf (acceptsAll_bit256 _ _) he with hold | hnew
    · simp at hold
    · exact (mem_keyEntriesByRegion hdisj hr0 keys e).mp hnew
  refine ⟨assigned_wf regions keys r0.pfx, fun e he => ?_, fun e he => ?_⟩
  · obtain ⟨m, -, -, rfl⟩ := hentry e he
    rfl
  · obtain ⟨m, -, hpre, rfl⟩ := hentry e he
    exact hpre

theorem map_pfx_assignKeysToRegions (regions : List Region) (keys : List Multihash) :
    (assignKeysToRegions regions keys).map Region.pfx = regions.map Region.pfx := by
  simp [assignKeysToRegions, Function.comp_def]

/-- A region with keys assigned to it: its prefix and peers are those of a given region, its keys
are the given ones below its prefix. -/
theorem assignKeysToRegions_spec (hdisj : Separate regions) (keys : List Multihash)
    (hr : r ∈ assignKeysToRegions regions keys) :
    (∃ r0 ∈ regions, r.pfx = r0.pfx ∧ r.peers = r0.peers) ∧
      ∀ k, k ∈ r.keys.keys ↔ ∃ m ∈ keys, r.pfx <+: (mhToBit256 m).bits ∧ mhToBit256 m = k := by
  obtain ⟨r0, hr0, rfl⟩ := mem_map.mp hr
  exact ⟨⟨r0, hr0, rfl, rfl⟩, mem_keys_assignKeysToRegions hdisj hr0 keys⟩

/-- **No given key below a region is dropped.** -/
theorem exists_assigned_iff (hdisj : Separate regions) (keys : List Multihash) (k : Bit256) :
    (∃ r ∈ assignKeysToRegions regions keys, k ∈ r.keys.keys) ↔
      (∃ m ∈ keys, mhToBit256 m = k) ∧ ∃ r ∈ regions, r.pfx <+: k.bits := by
  constructor
  · intro h
    obtain ⟨r, hr, hk⟩ := h
    obtain ⟨⟨r0, hr0, hpfx, -⟩, hkeys⟩ := assignKeysToRegions_spec hdisj keys hr
    obtain ⟨m, hm, hpre, rfl⟩ := (hkeys k).mp hk
    exact ⟨⟨m, hm, rfl⟩, r0, hr0, hpfx ▸ hpre⟩
  · intro h
    obtain ⟨⟨m, hm, rfl⟩, r, hr, hpre⟩ := h
    exact ⟨_, mem_map_of_mem hr,
      (mem_keys_assignKeysToRegions hdisj hr keys _).mpr ⟨m, hm, hpre, rfl⟩⟩

end Specs

end KadDht
