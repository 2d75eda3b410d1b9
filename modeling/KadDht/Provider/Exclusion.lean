import KadDht.Lib.Interleave
import KadDht.Provider.Abstract
import KadDht.Provider.Network

/-!
# Provider — who holds a region (`claimRegionReprovide`, `releaseRegionReprovide`)

Threads claim regions before they reprovide them and release them when they are done. A claim is
refused when an active claim covers it. A claim *above* active ones is granted: it replaces them,
although the threads that hold them are still at work, and when it is released nothing is left of
them either.

* **`claims_exclusive`** — regions held by different threads do not overlap.
-/

namespace KadDht.SweepingProvider

open List

/-! ## Threads that claim and release -/

/-- Regions none of which is below another one, as `RegionsFromPeers` returns them. -/
structure RegionList where
  regions : List Region
  disjoint : regions.Pairwise fun a b => ¬ Overlap a.pfx b.pfx

/-- What a thread does with claims: it claims regions, or is done with one of those it holds. -/
inductive ClaimOp where
  | claim (list : RegionList)
  | release (i : Nat)

/-- A thread: what it has yet to do, and the regions it was given and has not released. -/
structure Claimant where
  script : List ClaimOp
  held : List Region

namespace Claimant

def prefixes (t : Claimant) : List Bitstr := t.held.map Region.pfx

/-- The next step of a thread. Both methods run under a lock, so nothing interrupts them. -/
def step [TrieLib] (t : Claimant) : ProviderM Claimant :=
  match t.script with
  | [] => pure t
  | .claim list :: script => do
    let given ← claimRegionReprovide list.regions
    pure ⟨script, t.held ++ given⟩
  | .release i :: script =>
    match t.held[i]? with
    | none => pure ⟨script, t.held⟩
    | some r => do
      releaseRegionReprovide r.pfx
      pure ⟨script, t.held.eraseIdx i⟩

/-- The next step of the thread claims no region above an active claim. -/
def SparesClaims (t : Claimant) (s : State) : Prop :=
  match t.script with
  | .claim list :: _ => ∀ r ∈ list.regions, r.peers.isEmptyLeaf = false →
      ∀ a ∈ s.activeReprovides.keys, r.pfx <+: a → r.pfx = a
  | _ => True

instance (t : Claimant) (s : State) : Decidable (t.SparesClaims s) :=
  match h : t.script with
  | [] => isTrue (by simp [SparesClaims, h])
  | .release _ :: _ => isTrue (by simp [SparesClaims, h])
  | .claim list :: _ => decidable_of_iff (∀ r ∈ list.regions, r.peers.isEmptyLeaf = false →
      ∀ a ∈ s.activeReprovides.keys, r.pfx <+: a → r.pfx = a) (by simp [SparesClaims, h])

end Claimant

/-- The next step of the `i`-th thread claims no region above an active claim. -/
def SparesClaims (c : Pool State Claimant) (i : Nat) : Prop :=
  ∀ t ∈ c.threads[i]?, t.SparesClaims c.shared

/-! ## One claim -/

section Claim

variable [TrieLib]

theorem foldl_claimRegion_skip (regions : List Region) (acc : List Region × Trie Bitstr Unit) :
    regions.foldl claimRegion acc
      = (regions.filter fun r => !r.peers.isEmptyLeaf).foldl claimRegion acc := by
  induction regions generalizing acc with
  | nil => rfl
  | cons r regions ih =>
    rw [foldl_cons, ih]
    cases hempty : r.peers.isEmptyLeaf with
    | true => simp [hempty, claimRegion]
    | false => simp [hempty]

/-- **A claim that spares the active ones.** The regions given are disjoint from all active claims
and from each other, and they are active afterwards, as are the claims from before. -/
theorem claimRegionReprovide_spares {s : State} (h : s.activeReprovides.WF) (list : RegionList)
    (hspares : ∀ r ∈ list.regions, r.peers.isEmptyLeaf = false →
      ∀ a ∈ s.activeReprovides.keys, r.pfx <+: a → r.pfx = a) :
    ∃ given s', claimRegionReprovide list.regions s = some (given, s') ∧
      s'.activeReprovides.WF ∧
      (∀ a ∈ s.activeReprovides.keys, a ∈ s'.activeReprovides.keys) ∧
      (∀ r ∈ given, r.pfx ∈ s'.activeReprovides.keys ∧ r.pfx ∉ s.activeReprovides.keys) ∧
      (given.map Region.pfx).Nodup := by
  set claimable := list.regions.filter fun r => !r.peers.isEmptyLeaf with hclaimable
  have hfull : ∀ r ∈ claimable, r.peers.isEmptyLeaf = false := by
    intro r hr
    simpa using (mem_filter.mp hr).2
  have hmem : ∀ r ∈ claimable, r ∈ list.regions := fun r hr => (mem_filter.mp hr).1
  have hdisj : Separate claimable := list.disjoint.sublist filter_sublist
  obtain ⟨hwf, hkeys, hout⟩ := foldl_claimRegion_spec claimable ([], s.activeReprovides) h
    hfull hdisj
  rw [← foldl_claimRegion_skip] at hwf hkeys hout
  rw [nil_append] at hout
  set active : Set Bitstr := {p | p ∈ s.activeReprovides.keys} with hactive
  have hkept := fun a => Set.ext_iff.mp hkeys a
  refine ⟨_, _, rfl, hwf, ?_, ?_, ?_⟩
  · intro a ha
    refine (hkept a).mpr (mem_absorbAll_of_spared (s := active) ha fun p hp hpa => ?_)
    obtain ⟨r, hr, rfl⟩ := mem_map.mp hp
    exact hspares r (hmem r hr) (hfull r hr) a ha hpa
  · intro r hr
    rw [hout, mem_filter] at hr
    have hcov : ¬ Covers active r.pfx := by simpa using hr.2
    refine ⟨(hkept r.pfx).mpr (mem_absorbAll_of_not_covers (mem_map_of_mem hr.1) ?_ hcov),
      fun hold => hcov ⟨r.pfx, hold, prefix_rfl⟩⟩
    intro q hq hqr
    obtain ⟨r', hr', rfl⟩ := mem_map.mp hq
    by_contra hne
    have hne' : r' ≠ r := fun heq => hne (congrArg Region.pfx heq)
    have : Std.Symm (fun a b : Region => ¬ Overlap a.pfx b.pfx) := ⟨fun _ _ hn hov => hn hov.symm⟩
    exact hdisj.forall hr' hr.1 hne' (.inl hqr)
  · rw [hout]
    refine List.Nodup.sublist (List.Sublist.map _ filter_sublist) ?_
    rw [List.Nodup, pairwise_map]
    exact hdisj.imp fun {a b} hn (heq : a.pfx = b.pfx) => hn (heq ▸ Overlap.refl _)

end Claim

/-! ## Every interleaving -/

/-- The prefixes are distinct, and all of them are active claims. -/
structure ClaimsOf (s : State) (held : List Bitstr) : Prop where
  wf : s.activeReprovides.WF
  active : ∀ p ∈ held, p ∈ s.activeReprovides.keys
  nodup : held.Nodup

theorem ClaimsOf.perm {s : State} {held held' : List Bitstr} (h : ClaimsOf s held)
    (hp : held.Perm held') : ClaimsOf s held' :=
  ⟨h.wf, fun p hin => h.active p (hp.mem_iff.mpr hin), hp.nodup_iff.mp h.nodup⟩

section Steps

variable [TrieLib]

variable {s s' : State}

theorem ClaimsOf.claim {s s' : State} {held : List Bitstr} (h : ClaimsOf s held)
    {list : RegionList} {given : List Region}
    (hspares : ∀ r ∈ list.regions, r.peers.isEmptyLeaf = false →
      ∀ a ∈ s.activeReprovides.keys, r.pfx <+: a → r.pfx = a)
    (hclaim : claimRegionReprovide list.regions s = some (given, s')) :
    ClaimsOf s' (given.map Region.pfx ++ held) := by
  obtain ⟨given1, s1, hclaim1, hwf, hkept, hgiven, hnodup⟩ :=
    claimRegionReprovide_spares h.wf list hspares
  cases hclaim1.symm.trans hclaim
  refine ⟨hwf, fun p hp => ?_, nodup_append.mpr ⟨hnodup, h.nodup, fun p hp q hq => ?_⟩⟩
  · rcases mem_append.mp hp with hp | hp
    · obtain ⟨r, hr, rfl⟩ := mem_map.mp hp
      exact (hgiven r hr).1
    · exact hkept p (h.active p hp)
  · obtain ⟨r, hr, rfl⟩ := mem_map.mp hp
    rintro rfl
    exact (hgiven r hr).2 (h.active r.pfx hq)

omit [TrieLib] in
theorem ClaimsOf.release {pfx : Bitstr} {held : List Bitstr} (h : ClaimsOf s (pfx :: held))
    (hrel : releaseRegionReprovide pfx s = some ((), s')) : ClaimsOf s' held := by
  obtain rfl : { s with activeReprovides := pruneSubtrie s.activeReprovides pfx } = s' :=
    congrArg Prod.snd (Option.some.inj hrel)
  obtain ⟨hfresh, hnodup⟩ := nodup_cons.mp h.nodup
  refine ⟨pruneSubtrie_wf h.wf pfx, fun p hp => ?_, hnodup⟩
  have hactive := h.active p (mem_cons_of_mem pfx hp)
  refine (mem_keys_pruneSubtrie h.wf pfx p).mpr ⟨hactive, fun hbelow => hfresh ?_⟩
  -- active claims are disjoint, so one below the released claim is the released claim
  have heq := h.wf.eq_of_overlap (h.active pfx mem_cons_self) hactive (.inl hbelow)
  exact heq ▸ hp

/-- **One step.** The thread moves; `others` are the prefixes the other threads hold. -/
theorem Claimant.step_claimsOf {t t' : Claimant} {others : List Bitstr}
    (h : ClaimsOf s (t.prefixes ++ others)) (hspares : t.SparesClaims s)
    (hstep : t.step s = some (t', s')) : ClaimsOf s' (t'.prefixes ++ others) := by
  obtain ⟨script, held⟩ := t
  cases script with
  | nil =>
    cases hstep
    exact h
  | cons op script =>
    cases op with
    | claim list =>
      obtain ⟨given, s1, hclaim, ⟨⟩⟩ := bind_eq_some.mp hstep
      refine (h.claim hspares hclaim).perm ?_
      rw [prefixes, prefixes, map_append, ← append_assoc]
      exact perm_append_comm.append_right others
    | release i =>
      rw [step] at hstep
      cases hr : held[i]? with
      | none =>
        simp only [hr] at hstep
        cases hstep
        exact h
      | some r =>
        simp only [hr] at hstep
        obtain ⟨_, s1, hrel, ⟨⟩⟩ := bind_eq_some.mp hstep
        obtain ⟨hlt, hget⟩ := List.getElem?_eq_some_iff.mp hr
        -- the released region, followed by what the thread holds afterwards
        have hperm : (r :: held.eraseIdx i).Perm held := hget ▸ getElem_cons_eraseIdx_perm hlt
        exact (h.perm ((hperm.map Region.pfx).append_right others).symm).release hrel

end Steps

def heldPrefixes (c : Pool State Claimant) : List Bitstr := c.threads.flatMap Claimant.prefixes

/-- The regions held are distinct, and all of them are active claims. -/
def Exclusive (c : Pool State Claimant) : Prop := ClaimsOf c.shared (heldPrefixes c)

variable {c : Pool State Claimant} {i : Nat}

theorem heldPrefixes_set {t : Claimant} (hi : c.threads[i]? = some t) :
    ∃ others, (heldPrefixes c).Perm (t.prefixes ++ others) ∧
      ∀ (t' : Claimant) (s' : State),
        (heldPrefixes ⟨s', c.threads.set i t'⟩).Perm (t'.prefixes ++ others) := by
  obtain ⟨hlt, hget⟩ := List.getElem?_eq_some_iff.mp hi
  set before := (c.threads.take i).flatMap Claimant.prefixes
  set after := (c.threads.drop (i + 1)).flatMap Claimant.prefixes
  have hset : ∀ (t' : Claimant) (s' : State),
      (heldPrefixes ⟨s', c.threads.set i t'⟩).Perm (t'.prefixes ++ (before ++ after)) := by
    intro t' s'
    have heq : heldPrefixes ⟨s', c.threads.set i t'⟩ = before ++ (t'.prefixes ++ after) := by
      simp [heldPrefixes, set_eq_take_append_cons_drop, hlt, before, after]
    rw [heq, ← append_assoc, ← append_assoc]
    exact perm_append_comm.append_right after
  refine ⟨before ++ after, ?_, hset⟩
  rw [← hget]
  have hsame := hset c.threads[i] c.shared
  rwa [set_getElem_self] at hsame

theorem Exclusive.advance [TrieLib] {c' : Pool State Claimant} (h : Exclusive c)
    (hspares : SparesClaims c i) (hadv : c.advance Claimant.step i = some c') : Exclusive c' := by
  obtain ⟨t, t', s', hi, hstep, rfl⟩ := Pool.advance_eq_some hadv
  obtain ⟨others, hold, hnew⟩ := heldPrefixes_set hi
  have hmoved := Claimant.step_claimsOf (ClaimsOf.perm h hold) (hspares t hi) hstep
  exact hmoved.perm (hnew t' s').symm

theorem Exclusive.not_overlap (h : Exclusive c) {j : Nat} (hij : i < j) {t u : Claimant}
    (hi : c.threads[i]? = some t) (hj : c.threads[j]? = some u) {r r' : Region} (hr : r ∈ t.held)
    (hr' : r' ∈ u.held) : ¬ Overlap r.pfx r'.pfx := by
  intro hov
  have hheld : ∀ {k : Nat} {w : Claimant} {x : Region}, c.threads[k]? = some w → x ∈ w.held →
      x.pfx ∈ heldPrefixes c := fun hk hx =>
    mem_flatMap.mpr ⟨_, mem_of_getElem? hk, mem_map_of_mem hx⟩
  -- overlapping active claims are equal, but no prefix is held twice
  have heq := h.wf.eq_of_overlap (h.active _ (hheld hi hr)) (h.active _ (hheld hj hr')) hov
  obtain ⟨hilt, rfl⟩ := List.getElem?_eq_some_iff.mp hi
  obtain ⟨hjlt, rfl⟩ := List.getElem?_eq_some_iff.mp hj
  have hapart := pairwise_iff_getElem.mp (nodup_flatMap.mp h.nodup).2 i j hilt hjlt hij
  exact hapart (mem_map_of_mem hr) (heq ▸ mem_map_of_mem hr')

/-- No two threads hold regions of which one prefix is a prefix of the other. -/
def MutuallyExclusive (c : Pool State Claimant) : Prop :=
  ∀ (i j : Nat) (t u : Claimant), i ≠ j → c.threads[i]? = some t → c.threads[j]? = some u →
    ∀ r ∈ t.held, ∀ r' ∈ u.held, ¬ Overlap r.pfx r'.pfx

/-- **Mutual exclusion.** In every run of threads that start without claims, and that claim no
region above an active claim, regions held by different threads do not overlap. -/
theorem claims_exclusive [TrieLib] {c c' : Pool State Claimant}
    (hfree : c.shared.activeReprovides = .emptyLeaf) (hheld : ∀ t ∈ c.threads, t.held = [])
    (hrun : Pool.Runs Claimant.step SparesClaims c c') : MutuallyExclusive c' := by
  have hnone : heldPrefixes c = [] := by
    simp only [heldPrefixes, flatMap_eq_nil_iff]
    intro t ht
    rw [Claimant.prefixes, hheld t ht, map_nil]
  have hstart : Exclusive c := by
    refine ⟨hfree ▸ Trie.wf_emptyLeaf, ?_, ?_⟩
    · simp [hnone]
    · simp [hnone]
  have hend : Exclusive c' := hrun.invariant (fun _ _ _ h hcond hadv => h.advance hcond hadv) hstart
  intro i j t u hij hi hj r hr r' hr'
  rcases Nat.lt_or_gt_of_ne hij with hlt | hgt
  · exact hend.not_overlap hlt hi hj hr hr'
  · exact fun hov => hend.not_overlap hgt hj hi hr' hr hov.symm

/-! ## A claim above another one -/

def lonePeerRegion (pfx : Bitstr) : Region := ⟨pfx, .leaf zeroKey [0], .emptyLeaf⟩

def lonePeerClaimant (pfx : Bitstr) : Claimant :=
  ⟨[.claim ⟨[lonePeerRegion pfx], List.pairwise_singleton _ _⟩, .release 0], []⟩

/-- Three threads for `00`, `01` and `00`: the third one is refused as long as the first one
holds `00`. -/
theorem claims_exclusive_siblings :
    ∃ c', Pool.Runs (@Claimant.step binaryTrie) SparesClaims
        ⟨State.new, [[false, false], [false, true], [false, false]].map lonePeerClaimant⟩ c' ∧
      c'.threads.map Claimant.prefixes = [[[false, false]], [[false, true]], []] ∧
      MutuallyExclusive c' := by
  have hexec : ((Pool.mk State.new
      ([[false, false], [false, true], [false, false]].map lonePeerClaimant)).exec
      (@Claimant.step binaryTrie)
      (fun c i => c.threads[i]?.all fun t => decide (t.SparesClaims c.shared)) [0, 1, 2]).any
        (fun c => decide (c.threads.map Claimant.prefixes
          = [[[false, false]], [[false, true]], []])) = true := by decide +kernel
  obtain ⟨c', heq, hend⟩ := (Option.any_eq_true _ _).mp hexec
  have hrun : Pool.Runs (@Claimant.step binaryTrie) SparesClaims
      ⟨State.new, [[false, false], [false, true], [false, false]].map lonePeerClaimant⟩ c' := by
    refine Pool.runs_of_exec (fun c i hcheck t ht => ?_) _ heq
    rw [ht] at hcheck
    exact of_decide_eq_true hcheck
  exact ⟨c', hrun, of_decide_eq_true hend, @claims_exclusive binaryTrie _ c' rfl (by simp
    [lonePeerClaimant]) hrun⟩

/-- The second thread claims `0` while the first one holds `00`, and releases it: then the third
thread is given `00`, although the first one still holds it. -/
theorem claims_not_exclusive :
    ∃ c', Pool.Runs (@Claimant.step binaryTrie) (fun _ _ => True)
        ⟨State.new, [[false, false], [false], [false, false]].map lonePeerClaimant⟩ c' ∧
      c'.threads.map Claimant.prefixes = [[[false, false]], [], [[false, false]]] ∧
      ¬ MutuallyExclusive c' := by
  have hexec : ((Pool.mk State.new
      ([[false, false], [false], [false, false]].map lonePeerClaimant)).exec
      (@Claimant.step binaryTrie) (fun _ _ => true) [0, 1, 1, 2]).any
        (fun c => decide (c.threads.map Claimant.held
          = [[lonePeerRegion [false, false]], [], [lonePeerRegion [false, false]]])) = true := by
    decide +kernel
  obtain ⟨c', heq, hend⟩ := (Option.any_eq_true _ _).mp hexec
  have hheld := of_decide_eq_true hend
  refine ⟨c', Pool.runs_of_exec (fun _ _ _ => trivial) _ heq, ?_, fun hexcl => ?_⟩
  · have hpre := congrArg (map (map Region.pfx)) hheld
    rwa [map_map] at hpre
  · obtain ⟨shared, threads⟩ := c'
    match threads, hheld with
    | [t, _, u], hheld =>
      simp only [map_cons, map_nil, cons.injEq, and_true] at hheld
      refine hexcl 0 2 t u (by decide) rfl rfl (lonePeerRegion [false, false]) ?_
        (lonePeerRegion [false, false]) ?_ (Overlap.refl _)
      · simp [hheld.1]
      · simp [hheld.2.2]

end KadDht.SweepingProvider
