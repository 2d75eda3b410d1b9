import KadDht.Lib.Groups
import KadDht.Queue.Provide

/-!
# Queue — the provide queue is an ordered list of groups

`ProvideQueue` keeps the order of the groups in a deque and their keys in a trie. Seen from
outside it is a list of groups, each a prefix with a non-empty set of keys (`Groups`), and its
operations are the operations on such lists.

Keys are filed under their kademlia identifier, so two multihashes with the same identifier are
one key to the queue. The view is therefore given twice: `idGroups` has identifiers as keys, and
`groups` the multihashes themselves, of which no two may then share an identifier.
-/

namespace KadDht

open BitKey List TrieLib

namespace ProvideQueue

/-! ## The two views -/

def storedIds (q : ProvideQueue) : Set Bit256 := {k | k ∈ q.keys.keys}

def storedKeys (q : ProvideQueue) : Set Multihash := {m | keyEntry m ∈ q.keys.entries}

def location (m : Multihash) : Bitstr := (mhToBit256 m).bits

def idGroups (q : ProvideQueue) : List (Group Bool Bit256) :=
  groupsOf Bit256.bits q.queue.queue q.storedIds

def groups (q : ProvideQueue) : List (Group Bool Multihash) :=
  groupsOf location q.queue.queue q.storedKeys

variable {q q' : ProvideQueue}

section

variable (h : q.Inv)
include h

theorem Inv.mem_storedKeys (m : Multihash) : m ∈ q.storedKeys ↔ ∃ e ∈ q.keys.entries, e.2 = m := by
  constructor
  · exact fun hm => ⟨_, hm, rfl⟩
  · rintro ⟨e, he, rfl⟩
    have hkey : e = keyEntry e.2 := Prod.ext (h.filed e he) rfl
    exact hkey ▸ he

theorem Inv.mem_storedIds (k : Bit256) :
    k ∈ q.storedIds ↔ ∃ m ∈ q.storedKeys, mhToBit256 m = k := by
  show k ∈ q.keys.keys ↔ _
  rw [Trie.mem_keys]
  constructor
  · rintro ⟨m, hm⟩
    have hk : k = mhToBit256 m := h.filed _ hm
    exact ⟨m, (h.mem_storedKeys m).mpr ⟨_, hm, rfl⟩, hk.symm⟩
  · rintro ⟨m, hm, rfl⟩
    exact ⟨m, hm⟩

theorem Inv.covers_id : ∀ k ∈ q.storedIds, Covers {p | p ∈ q.queue.queue} k.bits := h.covered

theorem Inv.covers_key :
    ∀ m ∈ q.storedKeys, Covers {p | p ∈ q.queue.queue} (location m) := fun m hm =>
  h.covered (mhToBit256 m) (Trie.mem_keys.mpr ⟨m, hm⟩)

theorem Inv.exists_id_below : ∀ p ∈ q.queue.queue, ∃ k ∈ q.storedIds, p <+: k.bits :=
  fun p hp => (hasKeyBelow_iff _ _).mp (h.nonempty p hp)

theorem Inv.exists_key_below : ∀ p ∈ q.queue.queue, ∃ m ∈ q.storedKeys, p <+: location m := by
  intro p hp
  obtain ⟨k, hk, hpre⟩ := h.exists_id_below p hp
  obtain ⟨m, hm, rfl⟩ := (h.mem_storedIds k).mp hk
  exact ⟨m, hm, hpre⟩

theorem Inv.wf_idGroups : Groups.WF Bit256.bits q.idGroups :=
  wf_groupsOf h.queue.nodup h.queue.prefixFree h.exists_id_below

theorem Inv.wf_groups : Groups.WF location q.groups :=
  wf_groupsOf h.queue.nodup h.queue.prefixFree h.exists_key_below

end

/-! ## Keys leave the queue -/

theorem idGroups_of_removed {gone : Set Bit256}
    (hqueue : q'.queue.queue = q.queue.queue.filter (hasKeyBelow q'.keys ·))
    (hids : q'.storedIds = q.storedIds \ gone) :
    q'.idGroups = Groups.removeKeys q.idGroups gone := by
  unfold idGroups
  rw [hqueue, hids, eq_comm]
  refine removeKeys_groupsOf gone fun p _ => ?_
  rw [hasKeyBelow_iff, ← hids]
  rfl

theorem Inv.groups_of_removed (h' : q'.Inv) {gone : Set Multihash}
    (hqueue : q'.queue.queue = q.queue.queue.filter (hasKeyBelow q'.keys ·))
    (hkeys : q'.storedKeys = q.storedKeys \ gone) :
    q'.groups = Groups.removeKeys q.groups gone := by
  unfold groups
  rw [hqueue, hkeys, eq_comm]
  refine removeKeys_groupsOf gone fun p _ => ?_
  rw [hasKeyBelow_iff, ← hkeys]
  constructor
  · rintro ⟨k, hk, hpre⟩
    obtain ⟨m, hm, rfl⟩ := (h'.mem_storedIds k).mp hk
    exact ⟨m, hm, hpre⟩
  · rintro ⟨m, hm, hpre⟩
    exact ⟨mhToBit256 m, (h'.mem_storedIds _).mpr ⟨m, hm, rfl⟩, hpre⟩

theorem storedIds_of_removed {gone : Set Bit256}
    (hentries : ∀ e, e ∈ q'.keys.entries ↔ e ∈ q.keys.entries ∧ e.1 ∉ gone) :
    q'.storedIds = q.storedIds \ gone := by
  ext k
  show k ∈ q'.keys.keys ↔ k ∈ q.keys.keys ∧ k ∉ gone
  simp only [Trie.mem_keys, hentries, exists_and_right]

/-- A list of the values below a prefix, in any order, has each stored multihash there once. -/
theorem Inv.values_below (h : q.Inv) {pfx : Bitstr} {ks : List Multihash}
    (hperm : ks.Perm ((q.keys.entries.filter fun e => decide (pfx <+: e.1.bits)).map Prod.snd)) :
    ks.Nodup ∧ {m | m ∈ ks} = {m | m ∈ q.storedKeys ∧ pfx <+: location m} := by
  constructor
  · rw [hperm.nodup_iff]
    refine List.Nodup.map_on ?_ (h.wf.entries_nodup.filter _)
    intro e he e' he' heq
    have hid : e.1 = e'.1 := by
      rw [h.filed e (mem_of_mem_filter he), h.filed e' (mem_of_mem_filter he'), heq]
    exact Prod.ext hid heq
  · ext m
    show m ∈ ks ↔ m ∈ q.storedKeys ∧ pfx <+: location m
    rw [hperm.mem_iff, mem_map]
    constructor
    · rintro ⟨e, he, rfl⟩
      rw [mem_filter, decide_eq_true_iff] at he
      refine ⟨(h.mem_storedKeys e.2).mpr ⟨e, he.1, rfl⟩, ?_⟩
      rw [location, ← h.filed e he.1]
      exact he.2
    · rintro ⟨hm, hpre⟩
      exact ⟨keyEntry m, mem_filter.mpr ⟨hm, decide_eq_true hpre⟩, rfl⟩

/-! ## The operations on the views -/

section Refinement

variable [TrieLib]

/-- **`Enqueue`** is `Groups.enqueue`. -/
theorem Inv.enqueue_refines (h : q.Inv) {pfx : Bitstr} {ks : List Multihash} (hne : ks ≠ [])
    (hmatch : ∀ m ∈ ks, pfx <+: (mhToBit256 m).bits) :
    ∃ q', q.enqueue pfx ks = some q' ∧
      q'.idGroups = Groups.enqueue q.idGroups pfx {k | k ∈ ks.map mhToBit256} ∧
      (Set.InjOn mhToBit256 (q.storedKeys ∪ {m | m ∈ ks}) →
        q'.groups = Groups.enqueue q.groups pfx {m | m ∈ ks}) := by
  obtain ⟨q', heq, h', hqueue, hkeys⟩ := enqueue_spec h hne hmatch
  have hacc := acceptsAll_bit256 q.keys (ks.map keyEntry)
  have hids : q'.storedIds = q.storedIds ∪ {k | k ∈ ks.map mhToBit256} := by
    ext k
    show k ∈ q'.keys.keys ↔ k ∈ q.keys.keys ∨ k ∈ ks.map mhToBit256
    rw [hkeys, mem_keys_addMany k h.wf hacc, map_map]
    rfl
  refine ⟨q', heq, ?_, fun hinj => ?_⟩
  · unfold idGroups
    rw [enqueue_groupsOf h.queue.nodup h.queue.prefixFree h.covers_id, hqueue, hids]
    rintro k hk
    obtain ⟨m, hm, rfl⟩ := mem_map.mp hk
    exact hmatch m hm
  · have hstored : q'.storedKeys = q.storedKeys ∪ {m | m ∈ ks} := by
      ext m
      constructor
      · intro hm
        have hm' : keyEntry m ∈ (addMany q.keys (ks.map keyEntry)).entries := hkeys ▸ hm
        rcases mem_of_mem_addMany h.wf hacc hm' with hold | hnew
        · exact .inl hold
        · obtain ⟨m', hm', heq'⟩ := mem_map.mp hnew
          have hsnd : m' = m := congrArg Prod.snd heq'
          exact .inr (hsnd ▸ hm')
      · -- the multihash filed under the identifier is `m` itself, as there is no collision
        intro hm
        have hid : mhToBit256 m ∈ q'.storedIds := by
          rw [hids]
          rcases hm with hold | hnew
          · exact .inl ((h.mem_storedIds _).mpr ⟨m, hold, rfl⟩)
          · exact .inr (mem_map.mpr ⟨m, hnew, rfl⟩)
        obtain ⟨m', hm', hsame⟩ := (h'.mem_storedIds _).mp hid
        have hm'' : keyEntry m' ∈ (addMany q.keys (ks.map keyEntry)).entries := hkeys ▸ hm'
        have hplay : m' ∈ q.storedKeys ∪ {m | m ∈ ks} := by
          rcases mem_of_mem_addMany h.wf hacc hm'' with hold | hnew
          · exact .inl hold
          · obtain ⟨m1, hm1, heq1⟩ := mem_map.mp hnew
            have hsnd : m1 = m' := congrArg Prod.snd heq1
            exact .inr (hsnd ▸ hm1)
        exact hinj hplay hm hsame ▸ hm'
    unfold groups
    rw [hqueue, hstored, eq_comm]
    exact enqueue_groupsOf h.queue.nodup h.queue.prefixFree h.covers_key hmatch

/-- **`Dequeue`** takes the first group. -/
theorem Inv.dequeue_refines (h : q.Inv) {g : Group Bool Multihash}
    {rest : List (Group Bool Multihash)} (hg : q.groups = g :: rest) :
    ∃ q' ks, q.dequeue = (q', some (g.pfx, ks)) ∧ ks.Nodup ∧ {m | m ∈ ks} = g.keys ∧
      q'.groups = rest ∧ q'.idGroups = q.idGroups.tail := by
  cases hqueue : q.queue.queue with
  | nil =>
    unfold groups groupsOf at hg
    rw [hqueue] at hg
    exact absurd hg (by simp)
  | cons pfx prefixes =>
    obtain ⟨q', ks, heq, h', hrest, hperm, hentries⟩ := dequeue_spec h hqueue
    obtain ⟨hnodup, hks⟩ := h.values_below hperm
    have hn := h.queue.nodup
    have hf := h.queue.prefixFree
    rw [hqueue] at hn hf
    have hkeys : q'.storedKeys = q.storedKeys \ {m | pfx <+: location m} :=
      Set.ext fun m => hentries (keyEntry m)
    have hids : q'.storedIds = q.storedIds \ {k | pfx <+: k.bits} := storedIds_of_removed hentries
    have hgroups : q.groups = ⟨pfx, {m | m ∈ q.storedKeys ∧ pfx <+: location m}⟩ :: q'.groups := by
      unfold groups
      rw [hqueue, groupsOf_cons hn hf, hrest, hkeys]
    have hidGroups : q.idGroups
        = ⟨pfx, {k | k ∈ q.storedIds ∧ pfx <+: k.bits}⟩ :: q'.idGroups := by
      unfold idGroups
      rw [hqueue, groupsOf_cons hn hf, hrest, hids]
    rw [hgroups] at hg
    cases hg
    exact ⟨q', ks, heq, hnodup, hks, rfl, by rw [hidGroups, tail_cons]⟩

/-- **`DequeueMatching`** takes the keys under a prefix. -/
theorem Inv.dequeueMatching_refines (h : q.Inv) (pfx : Bitstr) :
    ∃ q' ks, q.dequeueMatching pfx = some (q', ks) ∧ ks.Nodup ∧
      {m | m ∈ ks} = {m | m ∈ q.storedKeys ∧ pfx <+: location m} ∧
      q'.groups = Groups.removeKeys q.groups {m | pfx <+: location m} ∧
      q'.idGroups = Groups.removeKeys q.idGroups {k | pfx <+: k.bits} := by
  obtain ⟨q', ks, heq, h', hqueue, hperm, hentries⟩ := dequeueMatching_spec h pfx
  obtain ⟨hnodup, hks⟩ := h.values_below hperm
  refine ⟨q', ks, heq, hnodup, hks, h'.groups_of_removed hqueue ?_,
    idGroups_of_removed hqueue (storedIds_of_removed hentries)⟩
  exact Set.ext fun m => hentries (keyEntry m)

/-- **`Remove`** takes the given keys. -/
theorem Inv.remove_refines (h : q.Inv) (order : MapOrder Bitstr) (ks : List Multihash) :
    ∃ q', q.remove order ks = some q' ∧
      q'.idGroups = Groups.removeKeys q.idGroups {k | k ∈ ks.map mhToBit256} ∧
      (Set.InjOn mhToBit256 (q.storedKeys ∪ {m | m ∈ ks}) →
        q'.groups = Groups.removeKeys q.groups {m | m ∈ ks}) := by
  obtain ⟨q', heq, h', hqueue, hentries⟩ := remove_spec h order ks
  refine ⟨q', heq, idGroups_of_removed hqueue (storedIds_of_removed hentries), fun hinj =>
    h'.groups_of_removed hqueue (Set.ext fun m => ?_)⟩
  show keyEntry m ∈ q'.keys.entries ↔ keyEntry m ∈ q.keys.entries ∧ m ∉ ks
  rw [hentries, and_congr_right_iff]
  -- a stored multihash with the identifier of a given one is that one
  refine fun hm => not_congr ⟨fun hid => ?_, fun hmem => mem_map.mpr ⟨m, hmem, rfl⟩⟩
  obtain ⟨m', hm', hsame⟩ := mem_map.mp hid
  exact hinj (.inr hm') (.inl hm) hsame ▸ hm'

/-- **The provide queue refines the ordered list of groups.** From every reachable queue the
groups are well-formed and hold every stored key, `Enqueue` is `Groups.enqueue`, `Dequeue` takes
exactly the first group, `DequeueMatching` returns and takes exactly the keys under its prefix,
each once, and `Remove` takes exactly the given keys. On identifiers this holds as it stands; on
multihashes, where a call is given some, it holds when no two multihashes in play share an
identifier. -/
theorem refines_groups (ops : List Op) (hops : ∀ op ∈ ops, op.Valid) (q : ProvideQueue)
    (hrun : new.run ops = some q) :
    (Groups.WF Bit256.bits q.idGroups ∧ Groups.WF location q.groups) ∧
    (∀ k ∈ q.storedIds, ∃ g ∈ q.idGroups, k ∈ g.keys) ∧
    (∀ m ∈ q.storedKeys, ∃ g ∈ q.groups, m ∈ g.keys) ∧
    (∀ pfx ks, ks ≠ [] → (∀ m ∈ ks, pfx <+: (mhToBit256 m).bits) →
      ∃ q', q.enqueue pfx ks = some q' ∧
        q'.idGroups = Groups.enqueue q.idGroups pfx {k | k ∈ ks.map mhToBit256} ∧
        (Set.InjOn mhToBit256 (q.storedKeys ∪ {m | m ∈ ks}) →
          q'.groups = Groups.enqueue q.groups pfx {m | m ∈ ks})) ∧
    (q.groups = [] → q.dequeue = (q, none)) ∧
    (∀ g rest, q.groups = g :: rest →
      ∃ q' ks, q.dequeue = (q', some (g.pfx, ks)) ∧ ks.Nodup ∧ {m | m ∈ ks} = g.keys ∧
        q'.groups = rest ∧ q'.idGroups = q.idGroups.tail) ∧
    (∀ pfx, ∃ q' ks, q.dequeueMatching pfx = some (q', ks) ∧ ks.Nodup ∧
      {m | m ∈ ks} = {m | m ∈ q.storedKeys ∧ pfx <+: location m} ∧
      q'.groups = Groups.removeKeys q.groups {m | pfx <+: location m} ∧
      q'.idGroups = Groups.removeKeys q.idGroups {k | pfx <+: k.bits}) ∧
    (∀ order ks, ∃ q', q.remove order ks = some q' ∧
      q'.idGroups = Groups.removeKeys q.idGroups {k | k ∈ ks.map mhToBit256} ∧
      (Set.InjOn mhToBit256 (q.storedKeys ∪ {m | m ∈ ks}) →
        q'.groups = Groups.removeKeys q.groups {m | m ∈ ks})) := by
  obtain ⟨q0, hrun0, h⟩ := run_inv inv_new ops hops
  cases hrun.symm.trans hrun0
  refine ⟨⟨h.wf_idGroups, h.wf_groups⟩, exists_mem_groupsOf_of_covers h.covers_id,
    exists_mem_groupsOf_of_covers h.covers_key,
    fun pfx ks hne hmatch => h.enqueue_refines hne hmatch,
    fun hnil => dequeue_nil (map_eq_nil_iff.mp hnil),
    fun g rest hg => h.dequeue_refines hg, h.dequeueMatching_refines, h.remove_refines⟩

end Refinement

theorem sampleCalls_refines :
    ∃ q, @run binaryTrie new (sampleCalls.take 3) = some q ∧
      ∃ q' ks, @dequeueMatching binaryTrie q [true, false, true, true] = some (q', ks) ∧
        ks.Nodup ∧
        {m | m ∈ ks} = {m | m ∈ q.storedKeys ∧ [true, false, true, true] <+: location m} ∧
        q'.groups = Groups.removeKeys q.groups {m | [true, false, true, true] <+: location m} := by
  have hvalid : ∀ op ∈ sampleCalls.take 3, op.Valid := fun op hop =>
    sampleCalls_valid op (mem_of_mem_take hop)
  obtain ⟨q, hrun, -⟩ := @run_inv new binaryTrie inv_new _ hvalid
  obtain ⟨-, -, -, -, -, -, hmatching, -⟩ :=
    @refines_groups binaryTrie (sampleCalls.take 3) hvalid q hrun
  obtain ⟨q', ks, heq, hnodup, hks, hgroups, -⟩ := hmatching [true, false, true, true]
  exact ⟨q, hrun, q', ks, heq, hnodup, hks, hgroups⟩

end ProvideQueue

end KadDht
