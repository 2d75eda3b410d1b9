import KadDht.Provider.Batch
import KadDht.Provider.Network
import Mathlib.Data.List.AList
import Mathlib.Data.List.Dedup
import Mathlib.Data.List.Sort

/-!
# Provider — new keys (`provider/provider.go`)

`handleProvide` groups keys by the scheduled prefixes they lie under. Where nothing is scheduled it
takes a prefix of the average length, which is scheduled if the keys are to be reprovided. A group
takes over the groups that were made below its prefix. The groups go to the provide queue, the
largest first.

* **`groupAndScheduleKeysByPrefix_partition`** — the groups are a partition of the keys, and the
  schedule covers them if it is to.
* **`provideKeys_spec`** — then all these identifiers are in the provide queue.
-/

namespace KadDht

open BitKey List

namespace SweepingProvider

/-! ## Model -/

/-- The map `prefixes`. -/
abbrev Prefixes := AList fun _ : Bitstr => List Multihash

def Prefixes.keysAt (prefixes : Prefixes) (pfx : Bitstr) : List Multihash :=
  (prefixes.lookup pfx).getD []

/-- The variables of `groupAndScheduleKeysByPrefix`. -/
structure Grouping where
  seen : List Bit256
  prefixTrie : Trie Bitstr Unit
  prefixes : Prefixes

/-- The loop that moves the keys of some groups. -/
def moveKeys (ps : List Bitstr) (mhs : List Multihash) (prefixes : Prefixes) :
    List Multihash × Prefixes :=
  ps.foldl (fun r p => (r.1 ++ r.2.keysAt p, r.2.erase p)) (mhs, prefixes)

/-- `SortPrefixesBySize`, for the order in which the map is visited. -/
def sortPrefixesBySize (order : MapOrder (Bitstr × List Multihash)) (prefixes : Prefixes) :
    List (Bitstr × List Multihash) :=
  ((order.visit (prefixes.entries.map fun e => (e.1, e.2))).filter fun g => g.2 ≠ []).insertionSort
    fun a b => b.2.length ≤ a.2.length

/-- What a call depends on, besides the provider. -/
structure CallEnv extends Env where
  /-- `keystore.Put`: the new keys, or an error. -/
  put : List Multihash → Except String (List Multihash)
  isOffline : Bool
  /-- What `getAvgPrefixLenNoLock` returns. -/
  avgPrefixLen : Int
  groupOrder : MapOrder (Bitstr × List Multihash)
  queueOrder : MapOrder Bitstr

section Model

variable [TrieLib]

/-- The end of the loop body: a new group, which takes over those below its prefix. -/
def Grouping.add (order : Bit256) (g : Grouping) (pfx : Bitstr) (h : Multihash) : Grouping :=
  let subtrie := findSubtrie g.prefixTrie pfx
  if subtrie.2 then
    let moved := moveKeys (keysIter subtrie.1 order) [h] g.prefixes
    ⟨g.seen, TrieLib.add (pruneSubtrie g.prefixTrie pfx) pfx (), moved.2.insert pfx moved.1⟩
  else ⟨g.seen, TrieLib.add g.prefixTrie pfx (), g.prefixes.insert pfx [h]⟩

/-- The loop body of `groupAndScheduleKeysByPrefix`. It returns nil for the whole loop where it is
not known how long prefixes are. -/
def groupKey (env : CallEnv) (schedule : Bool) (g : Grouping) (h : Multihash) :
    ProviderM (Option Grouping) := do
  let k := mhToBit256 h
  if g.seen.any (· = k) then pure (some g)
  else
    let g := { g with seen := k :: g.seen }
    match findPrefixOfKey g.prefixTrie k with
    | some pfx =>
      pure (some { g with prefixes := g.prefixes.insert pfx (g.prefixes.keysAt pfx ++ [h]) })
    | none =>
      let s ← get
      match findPrefixOfKey s.schedule k with
      | some pfx => pure (some (g.add env.order pfx h))
      | none =>
        if env.avgPrefixLen = -1 then pure none
        -- the bits of the key are sliced
        else if env.avgPrefixLen < 0 ∨ keyLen < env.avgPrefixLen then goPanic
        else do
          let pfx := k.bits.take env.avgPrefixLen.toNat
          if schedule then schedulePrefixNoLock env.toEnv pfx false else pure ()
          pure (some (g.add env.order pfx h))

def groupLoop (env : CallEnv) (schedule : Bool) :
    List Multihash → Grouping → ProviderM (Option Prefixes)
  | [], g => pure (some g.prefixes)
  | h :: keys, g => do
    match ← groupKey env schedule g h with
    | none => pure none
    | some g => groupLoop env schedule keys g

def groupAndScheduleKeysByPrefix (env : CallEnv) (keys : List Multihash) (schedule : Bool) :
    ProviderM (Option Prefixes) :=
  groupLoop env schedule keys ⟨[], .emptyLeaf, ∅⟩

/-- `handleProvide` from where the keystore has been asked. The provide loop is not started. -/
def provideKeys (env : CallEnv) (reprovide : Bool) (keys : List Multihash) : ProviderM Unit :=
  if env.isOffline then pure ()
  else do
    match ← groupAndScheduleKeysByPrefix env keys reprovide with
    | none => pure ()
    | some prefixes =>
      (sortPrefixesBySize env.groupOrder prefixes).forM fun g => provideQueueEnqueue g.1 g.2

def handleProvide (env : CallEnv) (force reprovide : Bool) (keys : List Multihash) :
    ProviderM Unit :=
  if keys = [] then pure ()
  else if reprovide then
    match env.put keys with
    -- the error is logged
    | .error _ => pure ()
    | .ok newKeys => provideKeys env reprovide (if force then keys else newKeys)
  else provideKeys env reprovide keys

/-- What `StopProviding` does to the provide queue, whether or not `keystore.Delete` fails. -/
def stopProviding (env : CallEnv) (keys : List Multihash) : ProviderM Unit := fun s =>
  (s.provideQueue.remove env.queueOrder keys).map fun q => ((), { s with provideQueue := q })

end Model

/-! ## Groups

The map is looked at as the list of its keys, each with the prefix under which it is filed. A key
joins a group, or makes a new one that takes over those below its prefix: the other keys are filed
under other prefixes then, and none is lost or there twice. -/

/-- The keys in the groups, with the prefixes of their groups. -/
def Prefixes.filed (prefixes : Prefixes) : List (Bitstr × Multihash) :=
  prefixes.entries.flatMap fun e => e.2.map (e.1, ·)

namespace Prefixes

variable {prefixes : Prefixes}

theorem mem_filed {e : Bitstr × Multihash} :
    e ∈ prefixes.filed ↔ ∃ mhs, ⟨e.1, mhs⟩ ∈ prefixes.entries ∧ e.2 ∈ mhs := by
  simp only [filed, mem_flatMap, mem_map]
  constructor
  · rintro ⟨⟨p, mhs⟩, hmem, m, hm, rfl⟩
    exact ⟨mhs, hmem, hm⟩
  · rintro ⟨mhs, hmem, hm⟩
    exact ⟨⟨e.1, mhs⟩, hmem, e.2, hm, rfl⟩

theorem mem_of_mem_filed {e : Bitstr × Multihash} (he : e ∈ prefixes.filed) : e.1 ∈ prefixes := by
  obtain ⟨mhs, hmem, -⟩ := mem_filed.mp he
  exact mem_keys_of_mem hmem

theorem filed_erase (prefixes : Prefixes) (p : Bitstr) :
    ((prefixes.keysAt p).map (p, ·) ++ filed (prefixes.erase p)).Perm prefixes.filed := by
  by_cases hp : p ∈ prefixes
  · obtain ⟨mhs, before, after, -, hentries, herased⟩ := exists_of_kerase hp
    have hlookup : prefixes.lookup p = some mhs :=
      AList.mem_lookup_iff.mpr (hentries ▸ mem_append_right before mem_cons_self)
    have hfiled : filed (prefixes.erase p) = (before ++ after).flatMap fun e => e.2.map (e.1, ·) :=
      congrArg (flatMap _) herased
    rw [keysAt, hlookup, hfiled, filed, hentries, flatMap_append, flatMap_append, flatMap_cons]
    exact perm_append_comm_assoc _ _ _
  · have hfiled : filed (prefixes.erase p) = prefixes.filed :=
      congrArg (flatMap _) (kerase_of_notMem_keys hp)
    rw [keysAt, AList.lookup_eq_none.mpr hp, hfiled]
    rfl

theorem filed_insert (prefixes : Prefixes) (p : Bitstr) (mhs : List Multihash) :
    filed (prefixes.insert p mhs) = mhs.map (p, ·) ++ filed (prefixes.erase p) := by
  rw [filed, AList.entries_insert, flatMap_cons]
  rfl

end Prefixes

/-- The groups are moved: their keys are filed under another prefix. -/
theorem moveKeys_spec (pfx : Bitstr) (ps : List Bitstr) (mhs : List Multihash)
    (prefixes : Prefixes) :
    (∀ p, p ∈ (moveKeys ps mhs prefixes).2 ↔ p ∉ ps ∧ p ∈ prefixes) ∧
      ((moveKeys ps mhs prefixes).1.map (pfx, ·) ++ (moveKeys ps mhs prefixes).2.filed).Perm
        (mhs.map (pfx, ·) ++ prefixes.filed.map fun e => (if e.1 ∈ ps then pfx else e.1, e.2)) := by
  induction ps generalizing mhs prefixes with
  | nil => simp [moveKeys]
  | cons q ps ih =>
    obtain ⟨hdom, hfiled⟩ := ih (mhs ++ prefixes.keysAt q) (prefixes.erase q)
    refine ⟨fun p => (hdom p).trans ?_, hfiled.trans ?_⟩
    · rw [AList.mem_erase, mem_cons, not_or, and_left_comm, and_assoc]
    · have herase := (prefixes.filed_erase q).map fun e => (if e.1 ∈ q :: ps then pfx else e.1, e.2)
      rw [map_append, map_map] at herase
      rw [map_append, append_assoc]
      refine Perm.append_left _ (Perm.trans ?_ herase)
      refine Perm.append (Perm.of_eq (map_congr_left fun m _ => ?_))
        (Perm.of_eq (map_congr_left fun e he => ?_))
      · simp
      · have hne := (AList.mem_erase.mp (Prefixes.mem_of_mem_filed he)).1
        simp [hne]

/-- The groups have the identifiers seen, each once and below the prefix of its group. -/
structure Grouped (g : Grouping) : Prop where
  wf : g.prefixTrie.WF
  dom : ∀ p ∈ g.prefixes, p ∈ g.prefixTrie.keys
  below : ∀ e ∈ g.prefixes.filed, e.1 <+: (mhToBit256 e.2).bits
  ids : (g.prefixes.filed.map fun e => mhToBit256 e.2).Perm g.seen
  nodup : g.seen.Nodup

theorem grouped_empty : Grouped ⟨[], .emptyLeaf, ∅⟩ := by
  constructor <;> simp [Trie.wf_emptyLeaf, Prefixes.filed]

variable {g : Grouping} {pfx : Bitstr} {h : Multihash}

/-- The groups are moved to other prefixes, and a key is put in one of them. -/
theorem Grouped.regroup (hg : Grouped g) (hfresh : mhToBit256 h ∉ g.seen)
    (moveTo : Bitstr → Bitstr) {t : Trie Bitstr Unit} {prefixes : Prefixes} (ht : t.WF)
    (hdom : ∀ p ∈ prefixes, p ∈ t.keys) (hmoved : ∀ p ∈ g.prefixes, moveTo p <+: p)
    (hpfx : pfx <+: (mhToBit256 h).bits)
    (hfiled : prefixes.filed.Perm
      ((pfx, h) :: g.prefixes.filed.map fun e => (moveTo e.1, e.2))) :
    Grouped ⟨mhToBit256 h :: g.seen, t, prefixes⟩ := by
  refine ⟨ht, hdom, fun e he => ?_, ?_, nodup_cons.mpr ⟨hfresh, hg.nodup⟩⟩
  · rcases mem_cons.mp (hfiled.mem_iff.mp he) with rfl | he
    · exact hpfx
    · obtain ⟨old, hold, rfl⟩ := mem_map.mp he
      exact (hmoved old.1 (Prefixes.mem_of_mem_filed hold)).trans (hg.below old hold)
  · refine (hfiled.map _).trans ?_
    rw [map_cons, map_map]
    exact hg.ids.cons _

/-- A key joins the group that covers it. -/
theorem Grouped.insert (hg : Grouped g) (hfresh : mhToBit256 h ∉ g.seen)
    (hpfx : pfx ∈ g.prefixTrie.keys) (hpre : pfx <+: (mhToBit256 h).bits) :
    Grouped ⟨mhToBit256 h :: g.seen, g.prefixTrie,
      g.prefixes.insert pfx (g.prefixes.keysAt pfx ++ [h])⟩ := by
  refine hg.regroup hfresh id hg.wf (fun p hp => ?_) (fun p _ => prefix_rfl) hpre ?_
  · rcases (AList.mem_insert _).mp hp with rfl | hp
    · exact hpfx
    · exact hg.dom p hp
  · rw [Prefixes.filed_insert, map_append, append_assoc]
    refine perm_middle.trans (Perm.cons _ ?_)
    simpa using g.prefixes.filed_erase pfx

section Step

variable [TrieLib]

/-- A group is added in place of those below its prefix. -/
theorem Grouped.merge (hg : Grouped g) (hfresh : mhToBit256 h ∉ g.seen) (ps : List Bitstr)
    {t : Trie Bitstr Unit} (ht : t.WF) (hps : ∀ q ∈ g.prefixTrie.keys, q ∈ ps ↔ pfx <+: q)
    (hkept : ∀ q, q ∈ t.keys ↔ q ∈ g.prefixTrie.keys ∧ ¬ pfx <+: q)
    (hnew : ∀ p ∈ g.prefixTrie.keys, ¬ p <+: pfx) (hpfx : pfx <+: (mhToBit256 h).bits) :
    Grouped ⟨mhToBit256 h :: g.seen, TrieLib.add t pfx (),
        (moveKeys ps [h] g.prefixes).2.insert pfx (moveKeys ps [h] g.prefixes).1⟩ ∧
      ∀ p, p ∈ (TrieLib.add t pfx ()).keys → p ∈ g.prefixTrie.keys ∨ p = pfx := by
  obtain ⟨hdom, hfiled⟩ := moveKeys_spec pfx ps [h] g.prefixes
  have haccepts : t.Accepts pfx := fun p hp hov => by
    obtain ⟨hp, hnot⟩ := (hkept p).mp hp
    exact (hov.elim (hnew p hp) hnot).elim
  have hadd := fun p => TrieLib.mem_keys_add () p ht haccepts
  refine ⟨hg.regroup hfresh (fun q => if q ∈ ps then pfx else q) (TrieLib.add_wf () ht haccepts)
    (fun p hp => (hadd p).mpr ?_) (fun q hq => ?_) hpfx ?_,
    fun p hp => ((hadd p).mp hp).imp_left fun hp => ((hkept p).mp hp).1⟩
  · rcases (AList.mem_insert _).mp hp with rfl | hp
    · exact .inr rfl
    · obtain ⟨hnot, hp⟩ := (hdom p).mp hp
      exact .inl ((hkept p).mpr ⟨hg.dom p hp, mt (hps p (hg.dom p hp)).mpr hnot⟩)
  · split_ifs with hq'
    · exact (hps q (hg.dom q hq)).mp hq'
    · exact prefix_rfl
  · -- there was no group of that prefix
    have hnone : pfx ∉ (moveKeys ps [h] g.prefixes).2 := fun hp =>
      hnew pfx (hg.dom pfx ((hdom pfx).mp hp).2) prefix_rfl
    have herase := (moveKeys ps [h] g.prefixes).2.filed_erase pfx
    rw [Prefixes.keysAt, AList.lookup_eq_none.mpr hnone] at herase
    rw [Prefixes.filed_insert]
    exact (Perm.append_left _ herase).trans hfiled

/-- **A new group**, for a key that no group covers. -/
theorem Grouped.add (hg : Grouped g) (hfresh : mhToBit256 h ∉ g.seen) (order : Bit256)
    (hpfx : pfx <+: (mhToBit256 h).bits)
    (hnone : ∀ p ∈ g.prefixTrie.keys, ¬ p <+: (mhToBit256 h).bits) :
    ∃ g', Grouping.add order { g with seen := mhToBit256 h :: g.seen } pfx h = g' ∧ Grouped g' ∧
      g'.seen = mhToBit256 h :: g.seen ∧
      ∀ p ∈ g'.prefixTrie.keys, p ∈ g.prefixTrie.keys ∨ p = pfx := by
  have hnew : ∀ p ∈ g.prefixTrie.keys, ¬ p <+: pfx := fun p hp hpre => hnone p hp (hpre.trans hpfx)
  have hok := findSubtrie_ok hg.wf pfx
  unfold Grouping.add
  dsimp only
  split
  · next hfound =>
    have hps : ∀ q ∈ g.prefixTrie.keys,
        q ∈ keysIter (findSubtrie g.prefixTrie pfx).1 order ↔ pfx <+: q := by
      intro q hq
      rw [keysIter, (trieIterAtDepth_perm order _ _ _).mem_iff, ← Trie.keys, Trie.mem_keys]
      rw [Trie.mem_keys] at hq
      simp only [findSubtrie_entries hg.wf pfx hfound, mem_filter, decide_eq_true_iff,
        exists_and_right]
      exact and_iff_right hq
    obtain ⟨hgrouped, hkeys⟩ := hg.merge hfresh _ (pruneSubtrie_wf hg.wf pfx) hps
      (fun q => mem_keys_pruneSubtrie hg.wf pfx q) hnew hpfx
    exact ⟨_, rfl, hgrouped, rfl, hkeys⟩
  · next hfound =>
    have hnothing : ∀ q ∈ g.prefixTrie.keys, ¬ pfx <+: q := fun q hq hpre => by
      obtain ⟨d, hd⟩ := Trie.mem_keys.mp hq
      exact hfound (hok.mpr ⟨(q, d), hd, hpre⟩)
    obtain ⟨hgrouped, hkeys⟩ := hg.merge hfresh [] hg.wf
      (fun q hq => by simpa using hnothing q hq)
      (fun q => (and_iff_left_of_imp (hnothing q)).symm) hnew hpfx
    exact ⟨_, rfl, hgrouped, rfl, hkeys⟩

end Step

/-! ## The loop

The average length is at most that of a key, or it is not known and a key that needs it ends the
loop. A group that is made under a scheduled prefix, or under one that is scheduled for it, stays
below the schedule: later prefixes only take the place of those below them. -/

/-- The average length of a prefix, or -1 if it is not known. -/
def CallEnv.Measured (env : CallEnv) : Prop := -1 ≤ env.avgPrefixLen ∧ env.avgPrefixLen ≤ keyLen

variable {env : CallEnv} {schedule : Bool} {s0 s : State}

/-- What holds between the rounds of the loop, which was entered at `s0`. -/
structure GroupedFrom (env : CallEnv) (schedule : Bool) (s0 : State) (g : Grouping) (s : State) :
    Prop where
  grouped : Grouped g
  inv : s.Inv
  provideQueue : s.provideQueue = s0.provideQueue
  unchanged : schedule = false ∨ env.avgPrefixLen = -1 → s = s0
  covered : schedule = true ∨ env.avgPrefixLen = -1 →
    ∀ p ∈ g.prefixTrie.keys, Covers s.view.scheduled p

theorem groupedFrom_empty (hs : s.Inv) :
    GroupedFrom env schedule s ⟨[], .emptyLeaf, ∅⟩ s :=
  ⟨grouped_empty, hs, rfl, fun _ => rfl, fun _ _ hp => absurd hp not_mem_nil⟩

section Loop

variable [TrieLib]

/-- **One key**: its identifier is grouped, or it needs the average length, which is not known. -/
theorem groupKey_spec (henv : env.Measured) (hg : GroupedFrom env schedule s0 g s)
    (h : Multihash) :
    ∃ r s', groupKey env schedule g h s = some (r, s') ∧
      ((r = none ∧ s' = s ∧ env.avgPrefixLen = -1 ∧
          ¬ Covers s.view.scheduled (mhToBit256 h).bits) ∨
        ∃ g', r = some g' ∧ GroupedFrom env schedule s0 g' s' ∧
          ∀ k, k ∈ g'.seen ↔ k = mhToBit256 h ∨ k ∈ g.seen) := by
  have hwf := hg.grouped.wf
  unfold groupKey
  dsimp only
  split
  · -- a key with the same identifier came before
    next hseen =>
    obtain ⟨k, hk, heq⟩ := any_eq_true.mp hseen
    rw [← of_decide_eq_true heq]
    exact ⟨_, s, rfl, .inr ⟨g, rfl, hg, fun k' => (or_iff_right_of_imp fun h => h ▸ hk).symm⟩⟩
  next hseen =>
  have hfresh : mhToBit256 h ∉ g.seen := fun hmem =>
    hseen (any_eq_true.mpr ⟨_, hmem, decide_eq_true rfl⟩)
  split
  · -- a group covers the key
    next pfx hfound =>
    obtain ⟨hmem, hpre⟩ := (findPrefixOfKey_eq_some hwf _ pfx).mp hfound
    exact ⟨_, s, rfl, .inr ⟨_, rfl,
      { hg with grouped := hg.grouped.insert hfresh hmem hpre }, fun k => mem_cons⟩⟩
  next hfound =>
  have hnone := (findPrefixOfKey_eq_none hwf (mhToBit256 h)).mp hfound
  rw [get_bind]
  cases hscheduled : findPrefixOfKey s.schedule (mhToBit256 h) with
  | some pfx =>
    -- a scheduled prefix covers it, and makes a group
    obtain ⟨hmem, hpre⟩ := (findPrefixOfKey_eq_some hg.inv.schedule _ pfx).mp hscheduled
    obtain ⟨g', heq, hgrouped, hseen', hkeys⟩ := hg.grouped.add hfresh env.order hpre hnone
    refine ⟨_, s, rfl, .inr ⟨g', congrArg some heq, { hg with
      grouped := hgrouped
      covered := fun hsched p hp => ?_ }, fun k => by rw [hseen', mem_cons]⟩⟩
    rcases hkeys p hp with hp | rfl
    · exact hg.covered hsched p hp
    · exact ⟨p, hmem, prefix_rfl⟩
  | none =>
    have huncovered : ¬ Covers s.view.scheduled (mhToBit256 h).bits :=
      not_covers.mpr ((findPrefixOfKey_eq_none hg.inv.schedule (mhToBit256 h)).mp hscheduled)
    dsimp only
    split
    · next hunknown => exact ⟨none, s, rfl, .inl ⟨rfl, rfl, hunknown, huncovered⟩⟩
    next hknown =>
    rw [if_neg (by have := henv.1; have := henv.2; omega)]
    have hpfx := List.take_prefix env.avgPrefixLen.toNat (mhToBit256 h).bits
    obtain ⟨g', heq, hgrouped, hseen', hkeys⟩ := hg.grouped.add hfresh env.order hpfx hnone
    cases schedule with
    | false =>
      exact ⟨_, s, rfl, .inr ⟨g', congrArg some heq, { hg with
        grouped := hgrouped
        covered := fun hsched => hsched.elim nofun fun hunknown => absurd hunknown hknown },
        fun k => by rw [hseen', mem_cons]⟩⟩
    | true =>
      obtain ⟨s', hrun, hs', hview⟩ := simulates_schedulePrefixNoLock env.toEnv
        ((mhToBit256 h).bits.take env.avgPrefixLen.toNat) false s hg.inv
      have hscheduled' : s'.view.scheduled = absorb s.view.scheduled _ :=
        congrArg View.scheduled hview
      refine ⟨some g', s', ?_, .inr ⟨g', rfl, ⟨hgrouped, hs',
        (congrArg View.provideQueue hview).trans hg.provideQueue,
        fun hkept => hkept.elim nofun fun hunknown => absurd hunknown hknown,
        fun hsched p hp => ?_⟩, fun k => by rw [hseen', mem_cons]⟩⟩
      · show (schedulePrefixNoLock env.toEnv _ false s).bind _ = _
        rw [hrun, ← heq]
        rfl
      · rw [hscheduled', covers_absorb]
        rcases hkeys p hp with hp | rfl
        · exact .inl (hg.covered (.inl rfl) p hp)
        · exact .inr prefix_rfl

/-- The loop, over the keys that are left. -/
theorem groupLoop_spec (henv : env.Measured) (hg : GroupedFrom env schedule s0 g s)
    (keys : List Multihash) :
    ∃ r s', groupLoop env schedule keys g s = some (r, s') ∧
      ((r = none ∧ s' = s0 ∧ env.avgPrefixLen = -1 ∧
          ∃ h ∈ keys, ¬ Covers s0.view.scheduled (mhToBit256 h).bits) ∨
        ∃ g', r = some g'.prefixes ∧ GroupedFrom env schedule s0 g' s' ∧
          ∀ k, k ∈ g'.seen ↔ k ∈ g.seen ∨ k ∈ keys.map mhToBit256) := by
  induction keys generalizing g s with
  | nil => exact ⟨_, s, rfl, .inr ⟨g, rfl, hg, by simp⟩⟩
  | cons h keys ih =>
    obtain ⟨r, s1, heq, hend⟩ := groupKey_spec henv hg h
    have hloop : groupLoop env schedule (h :: keys) g s = (some (r, s1)).bind _ :=
      congrArg (Option.bind · _) heq
    rcases hend with ⟨rfl, rfl, hunknown, huncovered⟩ | ⟨g1, rfl, hg1, hseen1⟩
    · obtain rfl := hg.unchanged (.inr hunknown)
      exact ⟨none, s1, hloop, .inl ⟨rfl, rfl, hunknown, h, mem_cons_self, huncovered⟩⟩
    · obtain ⟨r, s2, heq2, hend2⟩ := ih hg1
      refine ⟨r, s2, hloop.trans heq2, ?_⟩
      rcases hend2 with ⟨hr, hs2, hunknown, h', hmem, huncovered⟩ | ⟨g2, hr, hg2, hseen2⟩
      · exact .inl ⟨hr, hs2, hunknown, h', mem_cons_of_mem _ hmem, huncovered⟩
      · refine .inr ⟨g2, hr, hg2, fun k => ?_⟩
        rw [hseen2, hseen1, map_cons, mem_cons, or_comm (a := k = _), or_assoc]

/-- The prefixes of the groups do not overlap, and each identifier is that of one key in one group,
below its prefix. -/
structure Partition (keys : List Multihash) (prefixes : Prefixes) : Prop where
  prefixFree : PrefixFree {p | p ∈ prefixes}
  below : ∀ e ∈ prefixes.filed, e.1 <+: (mhToBit256 e.2).bits
  ids : (prefixes.filed.map fun e => mhToBit256 e.2).Perm (keys.map mhToBit256).dedup

/-- **Keys are grouped and scheduled.** The call returns nil exactly if some key needs the average
length and it is not known. Otherwise the groups are a partition of the keys, and all keys are
covered by the schedule if they are to be. The schedule stays free of overlaps, and stays as it is
if nothing is to be scheduled. -/
theorem groupAndScheduleKeysByPrefix_partition (henv : env.Measured) (hs : s.Inv)
    (keys : List Multihash) (schedule : Bool) :
    ∃ r s', groupAndScheduleKeysByPrefix env keys schedule s = some (r, s') ∧
      (r = none ↔ env.avgPrefixLen = -1 ∧
        ∃ h ∈ keys, ∀ p ∈ s.schedule.keys, ¬ p <+: (mhToBit256 h).bits) ∧
      (∀ prefixes, r = some prefixes → Partition keys prefixes ∧ (schedule = true →
        ∀ h ∈ keys, ∃ p ∈ s'.schedule.keys, p <+: (mhToBit256 h).bits)) ∧
      PrefixFree {p | p ∈ s'.schedule.keys} ∧ (schedule = false → s'.schedule = s.schedule) := by
  obtain ⟨r, s', heq, hend⟩ := groupLoop_spec henv (groupedFrom_empty hs) keys
  refine ⟨r, s', heq, ?_⟩
  rcases hend with ⟨rfl, rfl, hunknown, h, hmem, huncovered⟩ | ⟨g, rfl, hg, hseen⟩
  · exact ⟨⟨fun _ => ⟨hunknown, h, hmem, not_covers.mp huncovered⟩, fun _ => rfl⟩, nofun,
      hs.prefixFree_scheduled, fun _ => rfl⟩
  have hids : ∀ k, k ∈ g.seen ↔ k ∈ (keys.map mhToBit256).dedup := fun k => by
    rw [hseen, mem_dedup, or_iff_right not_mem_nil]
  -- the group of a key lies below the schedule, and so does the key
  have hcovered (hsched : schedule = true ∨ env.avgPrefixLen = -1) :
      ∀ h ∈ keys, Covers s'.view.scheduled (mhToBit256 h).bits := by
    intro h hmem
    have hk : mhToBit256 h ∈ g.seen := (hids _).mpr (mem_dedup.mpr (mem_map_of_mem hmem))
    obtain ⟨e, he, heq⟩ := mem_map.mp (hg.grouped.ids.mem_iff.mpr hk)
    obtain ⟨p, hp, hpre⟩ :=
      hg.covered hsched e.1 (hg.grouped.dom e.1 (Prefixes.mem_of_mem_filed he))
    exact ⟨p, hp, hpre.trans (heq ▸ hg.grouped.below e he)⟩
  refine ⟨⟨nofun, ?_⟩, ?_, hg.inv.prefixFree_scheduled, fun hkeep => ?_⟩
  · rintro ⟨hunknown, h, hmem, huncovered⟩
    obtain rfl := hg.unchanged (.inr hunknown)
    exact absurd (hcovered (.inr hunknown) h hmem) (not_covers.mpr huncovered)
  · rintro _ ⟨⟩
    refine ⟨⟨hg.grouped.wf.prefixFree.mono fun p hp => ⟨p, hg.grouped.dom p hp, rfl⟩,
      hg.grouped.below, hg.grouped.ids.trans ?_⟩, fun hsched => hcovered (.inl hsched)⟩
    exact (perm_ext_iff_of_nodup hg.grouped.nodup (nodup_dedup _)).mpr hids
  · rw [hg.unchanged (.inl hkeep)]

end Loop

/-- All keys are new to the keystore, and prefixes have two bits on average. -/
def sampleCallEnv : CallEnv where
  toEnv := sampleEnv []
  put keys := .ok keys
  isOffline := false
  avgPrefixLen := 2
  groupOrder := ⟨id, fun _ => .refl _⟩
  queueOrder := ⟨id, fun _ => .refl _⟩

/-- Two of the keys lie below the prefix `00`, which is scheduled, and the third one does not. -/
theorem groupAndScheduleKeysByPrefix_uncoveredKeys :
    ∃ prefixes s', @groupAndScheduleKeysByPrefix binaryTrie sampleCallEnv uncoveredKeys true
        (sampleState [[false, false]]) = some (some prefixes, s') ∧
      Partition uncoveredKeys prefixes ∧
      ∀ h ∈ uncoveredKeys, ∃ p ∈ s'.schedule.keys, p <+: (mhToBit256 h).bits := by
  obtain ⟨r, s', heq, hnone, hsome, -⟩ := @groupAndScheduleKeysByPrefix_partition sampleCallEnv
    (sampleState [[false, false]]) binaryTrie ⟨by decide, by decide⟩ (sampleState_inv (by decide))
    uncoveredKeys true
  cases r with
  | none => exact absurd (hnone.mp rfl).1 (by decide)
  | some prefixes =>
    obtain ⟨hpartition, hcovered⟩ := hsome prefixes rfl
    exact ⟨prefixes, s', heq, hpartition, hcovered rfl⟩

/-! ## The provide queue

The groups lie below their prefixes and those without keys are left out, which is all that `enqueue`
requires. -/

/-- The node is online during the call. -/
structure CallEnv.Online (env : CallEnv) : Prop where
  isOffline : env.isOffline = false
  nonneg : 0 ≤ env.avgPrefixLen
  le_keyLen : env.avgPrefixLen ≤ keyLen

theorem mem_sortPrefixesBySize {order : MapOrder (Bitstr × List Multihash)} {prefixes : Prefixes}
    {group : Bitstr × List Multihash} :
    group ∈ sortPrefixesBySize order prefixes ↔
      ⟨group.1, group.2⟩ ∈ prefixes.entries ∧ group.2 ≠ [] := by
  rw [sortPrefixesBySize, (perm_insertionSort _ _).mem_iff, mem_filter, (order.perm _).mem_iff,
    decide_eq_true_iff, mem_map]
  refine and_congr_left fun _ => ⟨?_, fun hmem => ⟨_, hmem, rfl⟩⟩
  rintro ⟨e, he, rfl⟩
  exact he

section Queue

variable [TrieLib]

/-- The queue gets the identifiers of all groups. -/
theorem enqueueAll_spec (hs : s.Inv) (groups : List (Bitstr × List Multihash))
    (hgroups : ∀ group ∈ groups, group.2 ≠ [] ∧ ∀ m ∈ group.2, group.1 <+: (mhToBit256 m).bits) :
    ∃ s', (groups.forM fun group => provideQueueEnqueue group.1 group.2 : ProviderM Unit) s =
        some ((), s') ∧ s'.Inv ∧ ∀ k, k ∈ s'.provideQueue.keys.keys ↔
          k ∈ s.provideQueue.keys.keys ∨ ∃ group ∈ groups, k ∈ group.2.map mhToBit256 := by
  induction groups generalizing s with
  | nil => exact ⟨s, rfl, hs, by simp⟩
  | cons group groups ih =>
    rw [forall_mem_cons] at hgroups
    obtain ⟨q, heq, hq, -, hkeys⟩ :=
      ProvideQueue.enqueue_spec hs.provideQueue hgroups.1.1 hgroups.1.2
    obtain ⟨s', hrun, hs', hkeys'⟩ := ih (s := { s with provideQueue := q })
      { hs with provideQueue := hq } hgroups.2
    refine ⟨s', ?_, hs', fun k => ?_⟩
    · show ((s.provideQueue.enqueue group.1 group.2).map _).bind _ = _
      rw [heq]
      exact hrun
    · rw [hkeys', hkeys, TrieLib.mem_keys_addMany k hs.provideQueue.wf (acceptsAll_bit256 _ _),
        map_map, or_assoc, exists_mem_cons_iff]
      rfl

/-- **Keys are provided**: afterwards their identifiers are in the provide queue. -/
theorem provideKeys_spec (henv : env.Online) (hs : s.Inv) (reprovide : Bool)
    (keys : List Multihash) :
    ∃ s', provideKeys env reprovide keys s = some ((), s') ∧ s'.Inv ∧
      ∀ k, k ∈ s'.provideQueue.keys.keys ↔
        k ∈ s.provideQueue.keys.keys ∨ k ∈ keys.map mhToBit256 := by
  have hmeasured : env.Measured := ⟨by have := henv.nonneg; omega, henv.le_keyLen⟩
  obtain ⟨r, s1, heq1, ⟨-, -, hunknown, -⟩ | ⟨g, rfl, hg, hseen⟩⟩ :=
    groupLoop_spec hmeasured (groupedFrom_empty hs : GroupedFrom env reprovide s _ s) keys
  · have hnonneg := henv.nonneg
    omega
  obtain ⟨s2, heq2, hs2, hkeys⟩ := enqueueAll_spec hg.inv
    (sortPrefixesBySize env.groupOrder g.prefixes) fun group hgroup => by
      obtain ⟨hmem, hne⟩ := mem_sortPrefixesBySize.mp hgroup
      exact ⟨hne, fun m hm => hg.grouped.below (group.1, m) (Prefixes.mem_filed.mpr ⟨_, hmem, hm⟩)⟩
  refine ⟨s2, ?_, hs2, fun k => ?_⟩
  · rw [provideKeys, henv.isOffline, if_neg Bool.false_ne_true]
    show (groupAndScheduleKeysByPrefix env keys reprovide s).bind _ = _
    rw [groupAndScheduleKeysByPrefix, heq1]
    exact heq2
  · have hids : k ∈ g.seen ↔ k ∈ keys.map mhToBit256 := by rw [hseen, or_iff_right not_mem_nil]
    rw [hkeys, hg.provideQueue, ← hids, ← hg.grouped.ids.mem_iff, mem_map]
    refine or_congr_right ⟨?_, ?_⟩
    · rintro ⟨group, hgroup, hk⟩
      obtain ⟨m, hm, rfl⟩ := mem_map.mp hk
      exact ⟨(group.1, m),
        Prefixes.mem_filed.mpr ⟨_, (mem_sortPrefixesBySize.mp hgroup).1, hm⟩, rfl⟩
    · rintro ⟨e, he, rfl⟩
      obtain ⟨mhs, hmem, hm⟩ := Prefixes.mem_filed.mp he
      exact ⟨(e.1, mhs), mem_sortPrefixesBySize.mpr ⟨hmem, ne_nil_of_mem hm⟩, mem_map_of_mem hm⟩

end Queue

end SweepingProvider

end KadDht
