import KadDht.Queue.Prefix

/-!
# Queue — the provide queue (`provider/internal/queue/provide.go`)

`ProvideQueue` holds the multihashes that wait to be provided, grouped by keyspace prefix: a
`PrefixQueue` has the prefixes in queue order, a trie has the keys. The two are only tied
together by how the operations update them.

The operations are modelled as the source has them; each runs under the queue's mutex, so a
concurrent history of calls is a list of operations (`Op`). A panic is an outer `none`.
-/

namespace KadDht

open BitKey List TrieLib Trie PrefixQueue

structure ProvideQueue where
  queue : PrefixQueue
  keys : Trie Bit256 Multihash
deriving DecidableEq

namespace ProvideQueue

def new : ProvideQueue := ⟨PrefixQueue.new, .emptyLeaf⟩

def isEmpty (q : ProvideQueue) : Bool := q.keys.isEmptyLeaf

def size (q : ProvideQueue) : Nat := q.keys.size

/-- `Clear`, which returns how many keys there were. -/
def clear (q : ProvideQueue) : ProvideQueue × Nat := (⟨q.queue.clear.1, .emptyLeaf⟩, q.size)

section Operations

variable [TrieLib]

def enqueueNoLock (q : ProvideQueue) (pfx : Bitstr) (keys : List Multihash) :
    Option ProvideQueue :=
  (q.queue.push pfx).map fun queue => ⟨queue, TrieLib.addMany q.keys (keys.map keyEntry)⟩

def enqueue (q : ProvideQueue) (pfx : Bitstr) (keys : List Multihash) : Option ProvideQueue :=
  if keys.isEmpty then some q else q.enqueueNoLock pfx keys

/-- `Dequeue`. The flag of `FindSubtrie` is ignored. -/
def dequeue (q : ProvideQueue) : ProvideQueue × Option (Bitstr × List Multihash) :=
  match q.queue.pop with
  | (queue, none) => (⟨queue, q.keys⟩, none)
  | (queue, some pfx) =>
    let (subtrie, _) := findSubtrie q.keys pfx
    (⟨queue, pruneSubtrie q.keys pfx⟩, some (pfx, allValues subtrie zeroKey))

def dequeueMatching (q : ProvideQueue) (pfx : Bitstr) :
    Option (ProvideQueue × List Multihash) :=
  let (subtrie, ok) := findSubtrie q.keys pfx
  if !ok then some (q, [])
  else
    let found := allValues subtrie zeroKey
    let keys := pruneSubtrie q.keys pfx
    match q.queue.remove pfx with
    | none => none
    | some (queue, removed) =>
      if removed then some (⟨queue, keys⟩, found)
      else match findPrefixOfKey queue.prefixes pfx with
        | none => some (⟨queue, keys⟩, found)
        | some shorterPrefix =>
          -- the shorter prefix stays, unless it has no keys left
          if (findSubtrie keys shorterPrefix).2 then some (⟨queue, keys⟩, found)
          else (queue.remove shorterPrefix).map fun r => (⟨r.1, keys⟩, found)

/-- The map of `Remove`: the queued prefixes of the given keys, each once. -/
def matchingPrefixes (q : ProvideQueue) (keys : List Multihash) : List Bitstr :=
  keys.foldl (fun found h =>
    match findPrefixOfKey q.queue.prefixes (mhToBit256 h) with
    | some pfx => found.insert pfx
    | none => found) []

def remove (q : ProvideQueue) (order : MapOrder Bitstr) (keys : List Multihash) :
    Option ProvideQueue :=
  let trie := (keys.map mhToBit256).foldl TrieLib.remove q.keys
  let prefixesToRemove :=
    (order.visit (q.matchingPrefixes keys)).filter fun pfx => !(findSubtrie trie pfx).2
  if prefixesToRemove.isEmpty then some ⟨q.queue, trie⟩
  else (q.queue.removePrefixesFromQueue prefixesToRemove).map fun r => ⟨r.1, trie⟩

end Operations

/-! ## The invariant -/

def hasKeyBelow (keys : Trie Bit256 Multihash) (pfx : Bitstr) : Bool :=
  keys.keys.any fun k => pfx.isPrefixOf k.bits

theorem hasKeyBelow_iff (keys : Trie Bit256 Multihash) (pfx : Bitstr) :
    hasKeyBelow keys pfx = true ↔ ∃ k ∈ keys.keys, pfx <+: k.bits := by
  simp [hasKeyBelow, any_eq_true, isPrefixOf_iff_prefix]

theorem findSubtrie_keys_ok {keys : Trie Bit256 Multihash} (h : keys.WF) (pfx : Bitstr) :
    (findSubtrie keys pfx).2 = hasKeyBelow keys pfx := by
  rw [Bool.eq_iff_iff, findSubtrie_ok h, hasKeyBelow_iff]
  simp [Trie.mem_keys]

/-- The prefix queue is consistent, every stored key lies under a queued prefix, every queued
prefix has a stored key, and keys are filed under their own identifier. -/
structure Inv (q : ProvideQueue) : Prop where
  queue : q.queue.Inv
  wf : q.keys.WF
  covered : ∀ k ∈ q.keys.keys, ∃ p ∈ q.queue.queue, p <+: k.bits
  nonempty : ∀ p ∈ q.queue.queue, hasKeyBelow q.keys p = true
  filed : ∀ e ∈ q.keys.entries, e.1 = mhToBit256 e.2

theorem inv_new : new.Inv where
  queue := PrefixQueue.inv_new
  wf := wf_emptyLeaf
  covered := fun k hk => by simp [new] at hk
  nonempty := fun p hp => by simp [new, PrefixQueue.new] at hp
  filed := fun e he => by simp [new] at he

variable {q q' : ProvideQueue}

theorem Inv.existsUnique_prefix (h : q.Inv) {k : Bit256} (hk : k ∈ q.keys.keys) :
    ∃! p, p ∈ q.queue.queue ∧ p <+: k.bits := by
  obtain ⟨p, hp, hpre⟩ := h.covered k hk
  refine ⟨p, ⟨hp, hpre⟩, fun p' hp' => ?_⟩
  exact h.queue.prefixFree.unique hp'.1 hp hp'.2 hpre

theorem Inv.overlap_of_hasKeyBelow (h : q.Inv) {pfx : Bitstr}
    (hpfx : hasKeyBelow q.keys pfx = true) : ∃ p ∈ q.queue.queue, Overlap p pfx := by
  obtain ⟨k, hk, hpre⟩ := (hasKeyBelow_iff _ _).mp hpfx
  obtain ⟨p, hp, hpre'⟩ := h.covered k hk
  exact ⟨p, hp, overlap_of_prefixes hpre' hpre⟩

/-- Keys were removed, and exactly the prefixes that have no key left were dropped. -/
theorem Inv.restrict (h : q.Inv) (hqueue : q'.queue.Inv) (hwf : q'.keys.WF)
    (hsub : ∀ e ∈ q'.keys.entries, e ∈ q.keys.entries)
    (heq : q'.queue.queue = q.queue.queue.filter (hasKeyBelow q'.keys ·)) : q'.Inv where
  queue := hqueue
  wf := hwf
  covered := by
    intro k hk
    obtain ⟨d, hd⟩ := mem_keys.mp hk
    obtain ⟨p, hp, hpre⟩ := h.covered k (mem_keys.mpr ⟨d, hsub _ hd⟩)
    refine ⟨p, ?_, hpre⟩
    rw [heq, mem_filter, hasKeyBelow_iff]
    exact ⟨hp, k, hk, hpre⟩
  nonempty := by
    intro p hp
    rw [heq, mem_filter] at hp
    exact hp.2
  filed := fun e he => h.filed e (hsub e he)

/-! ## What the operations do -/

section Specs

variable [TrieLib] {pfx : Bitstr}

/-- **`Enqueue`.** The prefix is pushed and the keys are added. -/
theorem enqueue_spec (h : q.Inv) {ks : List Multihash} (hne : ks ≠ [])
    (hmatch : ∀ m ∈ ks, pfx <+: (mhToBit256 m).bits) :
    ∃ q', q.enqueue pfx ks = some q' ∧ q'.Inv ∧
      q'.queue.queue = pushPrefix q.queue.queue pfx ∧
      q'.keys = TrieLib.addMany q.keys (ks.map keyEntry) := by
  obtain ⟨queue, heq, hinv, hqueue⟩ := push_spec h.queue pfx
  have hacc := acceptsAll_bit256 q.keys (ks.map keyEntry)
  have hkeys : ∀ k, k ∈ (addMany q.keys (ks.map keyEntry)).keys ↔
      k ∈ q.keys.keys ∨ ∃ m ∈ ks, mhToBit256 m = k := by
    intro k
    rw [mem_keys_addMany k h.wf hacc]
    simp [keyEntry]
  have hpush : {x | x ∈ pushPrefix q.queue.queue pfx} = absorb {x | x ∈ q.queue.queue} pfx :=
    setOf_pushPrefix h.queue.prefixFree
  refine ⟨⟨queue, addMany q.keys (ks.map keyEntry)⟩, ?_, ?_, hqueue, rfl⟩
  · unfold enqueue enqueueNoLock
    simp [hne, heq]
  · refine ⟨hinv, addMany_wf h.wf hacc, fun k hk => ?_, fun p hp => ?_, fun e he => ?_⟩
    · -- a stored key was covered before, a new one lies under the new prefix
      show Covers {p | p ∈ queue.queue} k.bits
      rw [hqueue, hpush, covers_absorb]
      rcases (hkeys k).mp hk with hold | ⟨m, hm, rfl⟩
      · exact .inl (h.covered k hold)
      · exact .inr (hmatch m hm)
    · -- an old prefix keeps its keys; the new one has the supplied keys below it
      show hasKeyBelow (addMany q.keys (ks.map keyEntry)) p = true
      rw [hqueue, mem_pushPrefix h.queue.prefixFree] at hp
      rw [hasKeyBelow_iff]
      have hold : p ∈ q.queue.queue →
          ∃ k ∈ (addMany q.keys (ks.map keyEntry)).keys, p <+: k.bits := by
        intro hp
        obtain ⟨k, hk, hpre⟩ := (hasKeyBelow_iff _ _).mp (h.nonempty p hp)
        exact ⟨k, (hkeys k).mpr (.inl hk), hpre⟩
      by_cases hcov : Covers {x | x ∈ q.queue.queue} pfx
      · exact hold (hp.1 hcov)
      · rcases hp.2 hcov with rfl | hp'
        · obtain ⟨m, hm⟩ := exists_mem_of_ne_nil ks hne
          exact ⟨mhToBit256 m, (hkeys _).mpr (.inr ⟨m, hm, rfl⟩), hmatch m hm⟩
        · exact hold hp'.1
    · rcases mem_of_mem_addMany h.wf hacc he with hold | hnew
      · exact h.filed e hold
      · obtain ⟨m, -, rfl⟩ := mem_map.mp hnew
        rfl

/-- **`Dequeue`, empty queue.** -/
theorem dequeue_nil (h : q.queue.queue = []) : q.dequeue = (q, none) := by
  unfold dequeue pop
  simp [h]

omit [TrieLib] in
theorem allValues_findSubtrie_perm (h : q.Inv)
    (hpfx : hasKeyBelow q.keys pfx = true) :
    (allValues (findSubtrie q.keys pfx).1 zeroKey).Perm
      ((q.keys.entries.filter fun e => decide (pfx <+: e.1.bits)).map Prod.snd) := by
  have hok : (findSubtrie q.keys pfx).2 = true := (findSubtrie_keys_ok h.wf pfx).trans hpfx
  have hperm := allValues_perm (findSubtrie q.keys pfx).1 zeroKey
  rw [findSubtrie_entries h.wf pfx hok] at hperm
  exact hperm

omit [TrieLib] in
theorem Inv.hasKeyBelow_prune (h : q.Inv) {p pfx : Bitstr} (hp : p ∈ q.queue.queue)
    (hov : ¬ Overlap p pfx) : hasKeyBelow (pruneSubtrie q.keys pfx) p = true := by
  obtain ⟨k, hk, hpre⟩ := (hasKeyBelow_iff _ _).mp (h.nonempty p hp)
  rw [hasKeyBelow_iff]
  refine ⟨k, (mem_keys_pruneSubtrie h.wf pfx k).mpr ⟨hk, fun hpre' => ?_⟩, hpre⟩
  exact hov (overlap_of_prefixes hpre hpre')

omit [TrieLib] in
theorem Inv.not_hasKeyBelow_prune (h : q.Inv) {p pfx : Bitstr} (hpre : pfx <+: p) :
    ¬ hasKeyBelow (pruneSubtrie q.keys pfx) p = true := by
  rw [hasKeyBelow_iff]
  rintro ⟨k, hk, hpk⟩
  exact ((mem_keys_pruneSubtrie h.wf pfx k).mp hk).2 (hpre.trans hpk)

/-- **`Dequeue`.** The first prefix goes with all keys below it. -/
theorem dequeue_spec (h : q.Inv) {rest : List Bitstr}
    (hqueue : q.queue.queue = pfx :: rest) :
    ∃ q' ks, q.dequeue = (q', some (pfx, ks)) ∧ q'.Inv ∧ q'.queue.queue = rest ∧
      ks.Perm ((q.keys.entries.filter fun e => decide (pfx <+: e.1.bits)).map Prod.snd) ∧
      (∀ e, e ∈ q'.keys.entries ↔ e ∈ q.keys.entries ∧ ¬ pfx <+: e.1.bits) := by
  have hmem : pfx ∈ q.queue.queue := hqueue ▸ mem_cons_self
  have hbelow := h.nonempty pfx hmem
  obtain ⟨hpop, hinv, htail⟩ := pop_spec h.queue
  have hpruned := fun e => mem_pruneSubtrie h.wf pfx e
  refine ⟨⟨q.queue.pop.1, pruneSubtrie q.keys pfx⟩, allValues (findSubtrie q.keys pfx).1 zeroKey,
    ?_, ?_, ?_, allValues_findSubtrie_perm h hbelow, hpruned⟩
  · unfold dequeue
    rw [show q.queue.pop = (q.queue.pop.1, some pfx) from Prod.ext rfl (by simp [hpop, hqueue])]
  · refine h.restrict hinv (pruneSubtrie_wf h.wf pfx) (fun e he => ((hpruned e).mp he).1) ?_
    -- the other prefixes are disjoint from the first one, so they keep their keys
    rw [htail, hqueue, tail_cons, filter_cons_of_neg (h.not_hasKeyBelow_prune prefix_rfl), eq_comm,
      filter_eq_self]
    intro p hp
    have hp' : p ∈ q.queue.queue := hqueue ▸ mem_cons_of_mem pfx hp
    refine h.hasKeyBelow_prune hp' fun hov => ?_
    have heq : p = pfx := hov.elim (h.queue.prefixFree p hp' pfx hmem) fun hpre =>
      (h.queue.prefixFree pfx hmem p hp' hpre).symm
    have hnodup := h.queue.nodup
    rw [hqueue, nodup_cons] at hnodup
    exact hnodup.1 (heq ▸ hp)
  · rw [htail, hqueue, tail_cons]

/-- The prefix queue after `DequeueMatching` found keys: the prefixes that have keys left. -/
theorem dequeueMatching_queue (h : q.Inv) (hpfx : hasKeyBelow q.keys pfx = true) :
    ∃ queue, q.dequeueMatching pfx = some (⟨queue, pruneSubtrie q.keys pfx⟩,
        allValues (findSubtrie q.keys pfx).1 zeroKey) ∧ queue.Inv ∧
      queue.queue = q.queue.queue.filter (hasKeyBelow (pruneSubtrie q.keys pfx) ·) := by
  have hok : (findSubtrie q.keys pfx).2 = true := (findSubtrie_keys_ok h.wf pfx).trans hpfx
  have hwf := pruneSubtrie_wf h.wf pfx
  have hfree := h.queue.prefixFree
  obtain ⟨queue, heq, hinv, hqueue⟩ := remove_spec h.queue pfx
  by_cases hbelow : ∃ p ∈ q.queue.queue, pfx <+: p
  · -- no queued prefix is above `pfx`, since it would be above the ones below it
    refine ⟨queue, by simp [dequeueMatching, hok, heq, hbelow], hinv, ?_⟩
    rw [hqueue]
    refine filter_congr fun p hp => ?_
    obtain ⟨p', hp', hpre'⟩ := hbelow
    rw [Bool.eq_iff_iff, not_isPrefixOf_iff]
    constructor
    · intro hn
      refine h.hasKeyBelow_prune hp fun hov => ?_
      rcases hov with hpre | hpre
      · exact hn (hfree p hp p' hp' (hpre.trans hpre') ▸ hpre')
      · exact hn hpre
    · exact fun hkeep hpre => h.not_hasKeyBelow_prune hpre hkeep
  · have hnone : ∀ p ∈ q.queue.queue, ¬ pfx <+: p := fun p hp hpre => hbelow ⟨p, hp, hpre⟩
    have hsame : queue.queue = q.queue.queue := by
      rw [hqueue, filter_eq_self]
      intro p hp
      rw [not_isPrefixOf_iff]
      exact hnone p hp
    -- the keys found lie under a queued prefix, which must be shorter than `pfx`
    obtain ⟨s, hs, hov⟩ := h.overlap_of_hasKeyBelow hpfx
    have hspre : s <+: pfx := hov.resolve_right (hnone s hs)
    have hfind : findPrefixOfKey queue.prefixes pfx = some s :=
      (findPrefixOfKey_eq_some hinv.wf pfx s).mpr ⟨(hinv.mem_iff s).mp (hsame ▸ hs), hspre⟩
    have hothers : ∀ p ∈ q.queue.queue, p ≠ s →
        hasKeyBelow (pruneSubtrie q.keys pfx) p = true := by
      intro p hp hne
      refine h.hasKeyBelow_prune hp fun hov' => hne ?_
      exact hfree.unique hp hs (hov'.resolve_right (hnone p hp)) hspre
    by_cases hleft : hasKeyBelow (pruneSubtrie q.keys pfx) s = true
    · refine ⟨queue, ?_, hinv, ?_⟩
      · simp [dequeueMatching, hok, heq, hbelow, hfind, findSubtrie_keys_ok hwf, hleft]
      · rw [hsame, eq_comm, filter_eq_self]
        intro p hp
        by_cases hps : p = s
        · exact hps ▸ hleft
        · exact hothers p hp hps
    · obtain ⟨queue', heq', hinv', hqueue'⟩ := remove_spec hinv s
      refine ⟨queue', ?_, hinv', ?_⟩
      · simp [dequeueMatching, hok, heq, hbelow, hfind, findSubtrie_keys_ok hwf, hleft, heq']
      · rw [hqueue', hsame]
        refine filter_congr fun p hp => ?_
        by_cases hps : p = s
        · subst hps
          have hself : p.isPrefixOf p = true := isPrefixOf_iff_prefix.mpr prefix_rfl
          rw [hself, Bool.eq_false_iff.mpr hleft]
          rfl
        · have hnot : isPrefixOf s p = false := by
            rw [Bool.eq_false_iff, ne_eq, isPrefixOf_iff_prefix]
            exact fun hpre => hps (hfree s hs p hp hpre).symm
          rw [hnot, hothers p hp hps]
          rfl

/-- **`DequeueMatching`.** It returns the stored keys starting with the prefix, removes them,
and drops exactly the prefixes that have no key left, without reordering the others. -/
theorem dequeueMatching_spec (h : q.Inv) (pfx : Bitstr) :
    ∃ q' ks, q.dequeueMatching pfx = some (q', ks) ∧ q'.Inv ∧
      q'.queue.queue = q.queue.queue.filter (hasKeyBelow q'.keys ·) ∧
      ks.Perm ((q.keys.entries.filter fun e => decide (pfx <+: e.1.bits)).map Prod.snd) ∧
      (∀ e, e ∈ q'.keys.entries ↔ e ∈ q.keys.entries ∧ ¬ pfx <+: e.1.bits) := by
  by_cases hpfx : hasKeyBelow q.keys pfx = true
  · obtain ⟨queue, heq, hinv, hqueue⟩ := dequeueMatching_queue h hpfx
    have hpruned := fun e => mem_pruneSubtrie h.wf pfx e
    refine ⟨_, _, heq, ?_, hqueue, allValues_findSubtrie_perm h hpfx, hpruned⟩
    exact h.restrict hinv (pruneSubtrie_wf h.wf pfx) (fun e he => ((hpruned e).mp he).1) hqueue
  · have hok : (findSubtrie q.keys pfx).2 = false :=
      (findSubtrie_keys_ok h.wf pfx).trans (Bool.eq_false_iff.mpr hpfx)
    have hno : ∀ e ∈ q.keys.entries, ¬ pfx <+: e.1.bits := by
      intro e he hpre
      exact hpfx ((hasKeyBelow_iff _ _).mpr ⟨e.1, mem_keys.mpr ⟨e.2, he⟩, hpre⟩)
    refine ⟨q, [], by simp [dequeueMatching, hok], h, ?_, ?_, fun e => ?_⟩
    · exact (filter_eq_self.mpr h.nonempty).symm
    · rw [filter_eq_nil_iff.mpr fun e he => by simpa using hno e he]
      exact List.Perm.nil
    · exact ⟨fun he => ⟨he, hno e he⟩, And.left⟩

omit [TrieLib] in
theorem mem_matchingPrefixes (h : q.Inv) (ks : List Multihash) (p : Bitstr) :
    p ∈ q.matchingPrefixes ks ↔ p ∈ q.queue.queue ∧ ∃ m ∈ ks, p <+: (mhToBit256 m).bits := by
  have hfold : q.matchingPrefixes ks = (ks.filterMap fun m => findPrefixOfKey q.queue.prefixes
      (mhToBit256 m)).foldl (fun found pfx => found.insert pfx) [] := by
    rw [foldl_filterMap, matchingPrefixes]
    refine congrArg (foldl · [] ks) (funext₂ fun found m => ?_)
    cases findPrefixOfKey q.queue.prefixes (mhToBit256 m) with
    | none => rfl
    | some pfx => rfl
  have hfind (m : Multihash) := findPrefixOfKey_eq_some h.queue.wf (mhToBit256 m) p
  simp only [← h.queue.mem_iff, bits_list, bits_bit256] at hfind
  simp only [hfold, mem_foldl_insert, mem_filterMap, hfind, not_mem_nil, false_or]
  exact ⟨fun ⟨m, hm, hp, hpre⟩ => ⟨hp, m, hm, hpre⟩, fun ⟨hp, m, hm, hpre⟩ => ⟨m, hm, hp, hpre⟩⟩

omit [TrieLib] in
theorem nodup_matchingPrefixes (q : ProvideQueue) (ks : List Multihash) :
    (q.matchingPrefixes ks).Nodup := by
  refine foldlRecOn ks _ nodup_nil fun found hfound m _ => ?_
  split
  · exact hfound.insert
  · exact hfound

/-- **`Remove`.** The given keys go, and with them exactly the prefixes that have no key left,
whatever the order in which the map is visited. -/
theorem remove_spec (h : q.Inv) (order : MapOrder Bitstr) (ks : List Multihash) :
    ∃ q', q.remove order ks = some q' ∧ q'.Inv ∧
      q'.queue.queue = q.queue.queue.filter (hasKeyBelow q'.keys ·) ∧
      (∀ e, e ∈ q'.keys.entries ↔ e ∈ q.keys.entries ∧ e.1 ∉ ks.map mhToBit256) := by
  have hacc : ∀ k ∈ ks.map mhToBit256, q.keys.Accepts k := fun k _ => accepts_bit256 q.keys k
  obtain ⟨hwf, hentries⟩ := TrieLib.foldl_remove_spec (ks.map mhToBit256) h.wf hacc
  set keys := (ks.map mhToBit256).foldl TrieLib.remove q.keys with hkeys
  set gone := (order.visit (q.matchingPrefixes ks)).filter
    (fun pfx => !(findSubtrie keys pfx).2) with hgone
  have hmem : ∀ p, p ∈ gone ↔ (p ∈ q.queue.queue ∧ ∃ m ∈ ks, p <+: (mhToBit256 m).bits) ∧
      ¬ hasKeyBelow keys p = true := by
    intro p
    rw [hgone, List.mem_filter, (order.perm _).mem_iff, mem_matchingPrefixes h,
      findSubtrie_keys_ok hwf, Bool.not_eq_true', Bool.eq_false_iff]
  -- a prefix that lost all its keys lost a given one, so it was in the map
  have hlost : ∀ p ∈ q.queue.queue, ¬ hasKeyBelow keys p = true → p ∈ gone := by
    intro p hp hnone
    obtain ⟨k, hk, hpre⟩ := (hasKeyBelow_iff _ _).mp (h.nonempty p hp)
    obtain ⟨d, hd⟩ := mem_keys.mp hk
    have hremoved : k ∈ ks.map mhToBit256 := by
      by_contra hkeep
      exact hnone ((hasKeyBelow_iff _ _).mpr
        ⟨k, mem_keys.mpr ⟨d, (hentries (k, d)).mpr ⟨hd, hkeep⟩⟩, hpre⟩)
    obtain ⟨m, hm, rfl⟩ := List.mem_map.mp hremoved
    exact (hmem p).mpr ⟨⟨hp, m, hm, hpre⟩, hnone⟩
  have hsame : ∀ p ∈ q.queue.queue, (!gone.contains p) = hasKeyBelow keys p := by
    intro p hp
    rw [Bool.eq_iff_iff, Bool.not_eq_true', Bool.eq_false_iff, ne_eq, List.contains_iff_mem]
    constructor
    · exact fun hn => not_not.mp fun hnone => hn (hlost p hp hnone)
    · exact fun hkeep hg => ((hmem p).mp hg).2 hkeep
  have hsub : ∀ e ∈ keys.entries, e ∈ q.keys.entries := fun e he => ((hentries e).mp he).1
  by_cases hempty : gone = []
  · have hqueue : q.queue.queue = q.queue.queue.filter (hasKeyBelow keys ·) := by
      rw [eq_comm, List.filter_eq_self]
      intro p hp
      rw [← hsame p hp, hempty]
      rfl
    refine ⟨⟨q.queue, keys⟩, ?_, h.restrict h.queue hwf hsub hqueue, hqueue, hentries⟩
    unfold remove
    simp only [← hkeys, ← hgone, hempty, List.isEmpty_nil, if_true]
  · have hnodup : gone.Nodup :=
      ((order.perm _).nodup_iff.mpr (nodup_matchingPrefixes q ks)).filter _
    obtain ⟨queue, heq, hinv, hqueue⟩ := removePrefixesFromQueue_spec h.queue hnodup
      hempty fun p hp => ((hmem p).mp hp).1.1
    have hfilter : queue.queue = q.queue.queue.filter (hasKeyBelow keys ·) := by
      rw [hqueue]
      exact List.filter_congr hsame
    refine ⟨⟨queue, keys⟩, ?_, h.restrict hinv hwf hsub hfilter, hfilter, hentries⟩
    unfold remove
    simp only [← hkeys, ← hgone, heq, Option.map_some, List.isEmpty_iff, hempty, if_false]

/-! ## Runs -/

inductive Op where
  | enqueue (pfx : Bitstr) (keys : List Multihash)
  | dequeue
  | dequeueMatching (pfx : Bitstr)
  | remove (order : MapOrder Bitstr) (keys : List Multihash)
  | clear

omit [TrieLib] in
/-- `Enqueue` is only called with keys that match the prefix. -/
def Op.Valid : Op → Prop
  | .enqueue pfx keys => ∀ h ∈ keys, pfx <+: (mhToBit256 h).bits
  | _ => True

def step (q : ProvideQueue) : Op → Option ProvideQueue
  | .enqueue pfx keys => q.enqueue pfx keys
  | .dequeue => some q.dequeue.1
  | .dequeueMatching pfx => (q.dequeueMatching pfx).map Prod.fst
  | .remove order keys => q.remove order keys
  | .clear => some q.clear.1

/-- The calls of a history, in the order in which they took the mutex. -/
def run (q : ProvideQueue) (ops : List Op) : Option ProvideQueue := ops.foldlM step q

/-- **One call** neither panics nor breaks the invariant. -/
theorem step_inv (h : q.Inv) (op : Op) (hop : op.Valid) : ∃ q', q.step op = some q' ∧ q'.Inv := by
  cases op with
  | enqueue pfx keys =>
    by_cases hne : keys = []
    · exact ⟨q, by simp [step, enqueue, hne], h⟩
    · obtain ⟨q', heq, hinv, -⟩ := enqueue_spec h hne hop
      exact ⟨q', heq, hinv⟩
  | dequeue =>
    cases hqueue : q.queue.queue with
    | nil => exact ⟨q, by rw [step, dequeue_nil hqueue], h⟩
    | cons pfx rest =>
      obtain ⟨q', ks, heq, hinv, -⟩ := dequeue_spec h hqueue
      exact ⟨q', by rw [step, heq], hinv⟩
  | dequeueMatching pfx =>
    obtain ⟨q', ks, heq, hinv, -⟩ := dequeueMatching_spec h pfx
    exact ⟨q', by rw [step, heq, Option.map_some], hinv⟩
  | remove order keys =>
    obtain ⟨q', heq, hinv, -⟩ := remove_spec h order keys
    exact ⟨q', heq, hinv⟩
  | clear => exact ⟨new, rfl, inv_new⟩

/-- **Whole runs** neither panic nor break the invariant. -/
theorem run_inv (h : q.Inv) (ops : List Op) (hops : ∀ op ∈ ops, op.Valid) :
    ∃ q', q.run ops = some q' ∧ q'.Inv := by
  induction ops generalizing q with
  | nil => exact ⟨q, rfl, h⟩
  | cons op ops ih =>
    obtain ⟨q1, heq1, hinv1⟩ := step_inv h op (hops op mem_cons_self)
    obtain ⟨q2, heq2, hinv2⟩ := ih hinv1 fun op' hop' => hops op' (mem_cons_of_mem op hop')
    refine ⟨q2, ?_, hinv2⟩
    rw [run, foldlM_cons, heq1]
    exact heq2

/-- **The queue is consistent after every run.** No call of a history that starts with a new
queue panics, and afterwards: the deque and the trie of prefixes agree, without duplicates; the
queued prefixes are disjoint; every stored key is matched by exactly one of them; every one of
them matches a stored key, so that `FindSubtrie` finds what `Dequeue` asks for. -/
theorem consistent_of_run (ops : List Op) (hops : ∀ op ∈ ops, op.Valid) :
    ∃ q, new.run ops = some q ∧
      (q.queue.queue.Nodup ∧ q.queue.prefixes.keys.Nodup ∧
        ∀ p, p ∈ q.queue.queue ↔ p ∈ q.queue.prefixes.keys) ∧
      PrefixFree {p | p ∈ q.queue.queue} ∧
      (∀ k ∈ q.keys.keys, ∃! p, p ∈ q.queue.queue ∧ p <+: k.bits) ∧
      (∀ p ∈ q.queue.queue, ∃ k ∈ q.keys.keys, p <+: k.bits) ∧
      (∀ p ∈ q.queue.queue, (findSubtrie q.keys p).2 = true) := by
  obtain ⟨q, hrun, h⟩ := run_inv inv_new ops hops
  refine ⟨q, hrun, ⟨h.queue.nodup, h.queue.wf.keys_nodup, h.queue.mem_iff⟩, h.queue.prefixFree,
    fun k hk => h.existsUnique_prefix hk, fun p hp => ?_, fun p hp => ?_⟩
  · exact (hasKeyBelow_iff _ _).mp (h.nonempty p hp)
  · rw [findSubtrie_keys_ok h.wf]
    exact h.nonempty p hp

end Specs

/-- A history in which a prefix is consolidated, keys are taken from below it, and a prefix
loses its last key. -/
def sampleCalls : List Op :=
  [.enqueue [true, false, true, false] [[0, 1, 2]],
   .enqueue [false] [[0, 1, 4]],
   .enqueue [true, false] [[0, 1, 3]],
   .dequeueMatching [true, false, true, true],
   .remove ⟨id, List.Perm.refl⟩ [[0, 1, 4]],
   .dequeue]

theorem sampleCalls_valid : ∀ op ∈ sampleCalls, op.Valid := by
  have h2 : [true, false, true, false] <+: (mhToBit256 [0, 1, 2]).bits := by decide +kernel
  have h3 : [true, false] <+: (mhToBit256 [0, 1, 3]).bits := by decide +kernel
  have h4 : [false] <+: (mhToBit256 [0, 1, 4]).bits := by decide +kernel
  simp only [sampleCalls, forall_mem_cons, Op.Valid, not_mem_nil, false_implies,
    implies_true, and_true]
  exact ⟨h2, h4, h3⟩

theorem sampleCalls_consistent :
    (∀ op ∈ sampleCalls, op.Valid) ∧
    ∃ q, @run binaryTrie new sampleCalls = some q ∧
      (q.queue.queue.Nodup ∧ q.queue.prefixes.keys.Nodup ∧
        ∀ p, p ∈ q.queue.queue ↔ p ∈ q.queue.prefixes.keys) ∧
      PrefixFree {p | p ∈ q.queue.queue} ∧
      (∀ k ∈ q.keys.keys, ∃! p, p ∈ q.queue.queue ∧ p <+: k.bits) ∧
      (∀ p ∈ q.queue.queue, ∃ k ∈ q.keys.keys, p <+: k.bits) ∧
      (∀ p ∈ q.queue.queue, (findSubtrie q.keys p).2 = true) :=
  ⟨sampleCalls_valid, @consistent_of_run binaryTrie sampleCalls sampleCalls_valid⟩

end ProvideQueue

end KadDht
