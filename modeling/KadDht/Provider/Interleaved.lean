import KadDht.Provider.Concurrent
import KadDht.Provider.Swallowed

/-!
# Provider — what the schedule covers under concurrent reprovides

Calls of `batchReprovide` run at the same time, in an arbitrary interleaving of their blocks. A
call that finds regions claimed by another call skips them, but unschedules its whole prefix,
including the skipped regions. As long as the other call has yet to reschedule them, nothing is
lost; when it has done so already, nobody schedules them again.

* **`interleaved_covers`** — once all calls have returned, the key is covered.
-/

namespace KadDht.SweepingProvider

open Abstraction List Call

/-! ## What a block does to the schedule -/

def Block.onSchedule : Block → Set Bitstr → Set Bitstr
  | .unschedule pfx, scheduled => {x | x ∈ scheduled ∧ ¬ pfx <+: x}
  | .reschedule pfx, scheduled => absorb scheduled pfx
  | _, scheduled => scheduled

def Block.Reschedules (k : Bitstr) : Block → Prop
  | .reschedule pfx => pfx <+: k
  | _ => False

instance (k : Bitstr) : DecidablePred (Block.Reschedules k)
  | .reschedule pfx => inferInstanceAs (Decidable (pfx <+: k))
  | .ongoing _ | .record _ | .vanillaProvide _ | .dequeueMatching _ | .removeQueued _
  | .unschedule _ | .send _ | .release _ | .count _ | .failedReprovide _ _ => isFalse id

def Call.Owes (k : Bitstr) : Call → Prop
  | .run _ todo => ∃ b ∈ todo, b.Reschedules k
  | _ => False

instance (k : Bitstr) : DecidablePred (Call.Owes k)
  | .run _ todo => inferInstanceAs (Decidable (∃ b ∈ todo, b.Reschedules k))
  | .enter _ | .claim _ _ _ _ => isFalse id

variable {k : Bitstr}

theorem Block.covers_onSchedule (b : Block) {scheduled : Set Bitstr} (h : Covers scheduled k) :
    Covers (b.onSchedule scheduled) k ∨
      ∃ pfx x, b = .unschedule pfx ∧ x ∈ scheduled ∧ x <+: k ∧ pfx <+: x := by
  cases b with
  | unschedule pfx =>
    obtain ⟨x, hx, hxk⟩ := h
    by_cases hpre : pfx <+: x
    · exact .inr ⟨pfx, x, rfl, hx, hxk, hpre⟩
    · exact .inl ⟨x, ⟨hx, hpre⟩, hxk⟩
  | reschedule pfx => exact .inl (covers_absorb.mpr (.inl h))
  | _ => exact .inl h

theorem Block.Reschedules.covers {b : Block} (h : b.Reschedules k) (scheduled : Set Bitstr) :
    Covers (b.onSchedule scheduled) k := by
  cases b with
  | reschedule pfx => exact covers_absorb.mpr (.inr h)
  | _ => exact h.elim

/-- What a call owes before it runs a block is covered afterwards, or still owed. -/
theorem Call.Owes.run {skipped : List Region} {b : Block} {todo : List Block}
    (h : (run skipped (b :: todo)).Owes k) :
    b.Reschedules k ∨ (run skipped todo).Owes k := by
  obtain ⟨b', hb', hk⟩ := h
  rcases mem_cons.mp hb' with rfl | hmem
  · exact .inl hk
  · exact .inr ⟨b', hmem, hk⟩

section Calls

variable [TrieLib]

variable {s : State} {stored : Set Multihash} {env : Env} {pfx : Bitstr} {regions : List Region}
  {c : Pool State Call} {i : Nat}

/-- **A block** does not panic, keeps the invariant, and acts on the schedule as
`Block.onSchedule`. -/
theorem Block.run_spec (env : Env) (b : Block) (hs : s.Inv) :
    ∃ s', b.run env s = some ((), s') ∧ s'.Inv ∧
      s'.view.scheduled = b.onSchedule s.view.scheduled := by
  have hview : ∀ {m : ProviderM Unit} {f : View → View}, sweeping.Simulates m (fun v => ((), f v)) →
      (∀ v, (f v).scheduled = b.onSchedule v.scheduled) →
      ∃ s', m s = some ((), s') ∧ s'.Inv ∧ s'.view.scheduled = b.onSchedule s.view.scheduled := by
    intro m f hm hf
    obtain ⟨s', heq, hinv, hview⟩ := hm s hs
    exact ⟨s', heq, hinv, (congrArg View.scheduled hview).trans (hf s.view)⟩
  cases b with
  | ongoing f =>
    exact hview (f := fun v => v) (simulates_modifyStats fun st =>
      { st with ongoingReprovides := f st.ongoingReprovides }) fun _ => rfl
  | record e => exact hview (simulates_emit e) fun _ => rfl
  | vanillaProvide key =>
    exact hview (Simulates.andThen (simulates_vanillaProvide env key) (Simulates.pure ()))
      fun _ => rfl
  | dequeueMatching pfx =>
    refine hview (f := fun v => (v.dequeueMatching pfx).2)
      (Simulates.bind (g := fun _ v => ((), v)) (simulates_provideQueueDequeueMatching pfx)
        fun _ => Simulates.pure ()) fun v => ?_
    unfold View.dequeueMatching
    split
    · rfl
    · rfl
  | removeQueued pfx => exact hview (simulates_reprovideQueueRemove pfx) fun _ => rfl
  | unschedule pfx =>
    exact hview (simulates_unscheduleSubsumedPrefixesNoLock env pfx) fun _ => rfl
  | send r =>
    refine hview (f := fun v => v.emitAll (regionEvents env r)) ?_ fun _ => rfl
    refine Simulates.congr (Simulates.andThen (simulates_emitAll _) (Simulates.andThen
      (simulates_sendProviderRecords env _ _) (Simulates.pure ()))) fun v => ?_
    simp only [View.emitAll_emitAll]
    rfl
  | release pfx => exact hview (simulates_releaseRegionReprovide pfx) fun _ => rfl
  | reschedule pfx => exact hview (simulates_reschedulePrefix env pfx) fun _ => rfl
  | count n =>
    exact hview (f := fun v => v) (simulates_modifyStats fun st =>
      { st with provideCounter := st.provideCounter + n }) fun _ => rfl
  | failedReprovide pfx err => exact hview (simulates_failedReprovide pfx err) fun _ => rfl

/-! ## What a call restores -/

/-- Of the stored keys below a prefix that is unscheduled, those are rescheduled later that lie in
no skipped region. -/
def Restores (stored : Set Multihash) (skipped : List Region) : List Block → Prop
  | [] => True
  | b :: todo =>
    (∀ pfx, b = .unschedule pfx → ∀ m ∈ stored, pfx <+: (mhToBit256 m).bits →
      (∃ b' ∈ todo, b'.Reschedules (mhToBit256 m).bits) ∨
        ∃ r ∈ skipped, r.pfx <+: (mhToBit256 m).bits) ∧
    Restores stored skipped todo

omit [TrieLib] in
theorem restores_of_not_mem {skipped : List Region} {todo : List Block}
    (h : ∀ pfx, .unschedule pfx ∉ todo) : Restores stored skipped todo := by
  induction todo with
  | nil => trivial
  | cons b todo ih =>
    refine ⟨fun pfx hb => ?_, ih fun pfx hmem => h pfx (mem_cons_of_mem b hmem)⟩
    exact absurd (hb ▸ mem_cons_self) (h pfx)

/-- What is known of a call: exploring finds regions that cover a prefix of the requested one. -/
def Call.Sound (env : Env) (stored : Set Multihash) : Call → Prop
  | .enter pfx => ∀ regions c, exploreSwarm env pfx = .ok (regions, c) → c <+: pfx
  | .claim pfx keys regions c => Explores env pfx keys regions c ∧ c <+: pfx
  | .run skipped todo => Restores stored skipped todo

theorem sound_beginCall (h : (enter pfx).Sound env stored) :
    (beginCall env pfx).Sound env stored := by
  rcases beginCall_cases env pfx with ⟨todo, heq, hnone⟩ | ⟨keys, regions, c, heq, hexplores⟩
  · rw [heq]
    exact restores_of_not_mem hnone
  · rw [heq]
    exact ⟨hexplores, h regions c hexplores.explored⟩

omit [TrieLib] in
theorem unschedule_not_mem_assignedBlocks (env : Env) (pfx : Bitstr) (regions : List Region)
    (p : Bitstr) : .unschedule p ∉ assignedBlocks env pfx regions := by
  unfold assignedBlocks
  rw [mem_append, mem_flatMap, mem_singleton, not_or]
  constructor
  · rintro ⟨r, -, hr⟩
    unfold regionBlocks at hr
    split at hr
    · simp at hr
    · cases hout : regionErr env r with
      | none | some err => simp [hout] at hr
  · split
    · simp
    · simp

omit [TrieLib] in
theorem reschedule_mem_assignedBlocks (env : Env) (pfx : Bitstr) {x : Bitstr}
    (hx : x ∈ livePrefixes regions) : .reschedule x ∈ assignedBlocks env pfx regions := by
  obtain ⟨r, hr, rfl⟩ := mem_map.mp hx
  obtain ⟨hr, hlive⟩ := mem_filter.mp hr
  refine mem_append_left _ (mem_flatMap.mpr ⟨r, hr, ?_⟩)
  have hkeys : r.keys.isEmptyLeaf = false := by simpa using hlive
  simp [regionBlocks, hkeys]

theorem restores_sweepBlocks {c : Bitstr} {claimed : List Region} {loaded : List Multihash}
    (hexplore : exploreSwarm env pfx = .ok (regions, c)) (hclaimed : claimed.Sublist regions)
    (hloaded : ∀ m ∈ stored, c <+: (mhToBit256 m).bits → m ∈ loaded) :
    Restores stored (regions.filter fun r => r.pfx ∉ claimed.map Region.pfx)
      (sweepBlocks env c loaded claimed) := by
  have hrest : Restores stored (regions.filter fun r => r.pfx ∉ claimed.map Region.pfx)
      (assignedBlocks env c (assignKeysToRegions claimed loaded)
        ++ [.ongoing (.finish loaded.length)]) := by
    refine restores_of_not_mem fun p => ?_
    rw [mem_append, not_or]
    exact ⟨unschedule_not_mem_assignedBlocks env c _ p, by simp⟩
  refine ⟨by simp, by simp, fun p hp m hm hpm => ?_, by simp, hrest⟩
  cases hp
  -- the key lies in a region that was found, which was claimed or skipped
  obtain ⟨r, hr, hrm⟩ := (exploreSwarm_region_iff hexplore (mhToBit256 m)).mpr hpm
  by_cases hmem : r.pfx ∈ claimed.map Region.pfx
  · obtain ⟨r', hr', hpfx⟩ := mem_map.mp hmem
    have hdisj := (exploreSwarm_disjoint hexplore).sublist hclaimed
    obtain ⟨x, hx, hxm⟩ := (covered_livePrefixes hdisj (hloaded m hm hpm)).mpr ⟨r', hr', hpfx ▸ hrm⟩
    exact .inl ⟨.reschedule x, mem_cons_of_mem _
      (mem_append_left _ (reschedule_mem_assignedBlocks env c hx)), hxm⟩
  · exact .inr ⟨r, mem_filter.mpr ⟨hr, by simpa using hmem⟩, hrm⟩

theorem sound_claimedCall {c : Bitstr} {keys : List Multihash} {claimed : List Region}
    (hstores : env.Stores stored) (h : (claim pfx keys regions c).Sound env stored)
    (hclaimed : claimed.Sublist regions) :
    (claimedCall env pfx keys regions c claimed).Sound env stored := by
  obtain ⟨hexplores, hc⟩ := h
  show Restores stored _ (claimedBlocks env pfx keys c claimed)
  unfold claimedBlocks
  split
  · cases hget : env.keystoreGet c with
    | error err => exact restores_of_not_mem (by simp)
    | ok allKeys =>
      refine ⟨by simp, restores_sweepBlocks hexplores.explored hclaimed fun m hm hcm => ?_⟩
      exact (hstores c allKeys hget m).mpr ⟨hm, hcm⟩
  · next hlen =>
    -- the covered prefix is not shorter, so it is the requested one
    obtain rfl : c = pfx := hc.eq_of_length_le (by omega)
    refine restores_sweepBlocks hexplores.explored hclaimed fun m hm hcm => ?_
    exact (hstores c keys hexplores.loaded m).mpr ⟨hm, hcm⟩

/-- **A step of a call** does not panic, keeps the invariant, leaves a sound call, and touches the
schedule only as its block does. -/
theorem Call.step_spec (hstores : env.Stores stored) (hs : s.Inv) {call : Call}
    (hcall : call.Sound env stored) :
    ∃ call' s', call.step env s = some (call', s') ∧ s'.Inv ∧ call'.Sound env stored ∧
      ((s'.view.scheduled = s.view.scheduled ∧ ∀ k, call.Owes k → call'.Owes k) ∨
        ∃ skipped b todo, call = .run skipped (b :: todo) ∧ call' = .run skipped todo ∧
          s'.view.scheduled = b.onSchedule s.view.scheduled) := by
  match call, hcall with
  | .enter pfx, hcall =>
    exact ⟨_, s, rfl, hs, sound_beginCall hcall, .inl ⟨rfl, fun _ h => h.elim⟩⟩
  | .claim pfx keys regions c, hcall =>
    have hexplore := hcall.1.explored
    have hclaim : sweeping.Simulates (do
        ongoingReprovides (.start keys.length)
        claimRegionReprovide regions) (fun v => (v.claimed regions, v.claim regions)) :=
      Simulates.skip (simulates_modifyStats _) (simulates_claimRegionReprovide
        (fun r hr => (exploreSwarm_peers hexplore hr).nonempty) (exploreSwarm_disjoint hexplore))
    obtain ⟨s', heq, hinv, hview⟩ := hclaim s hs
    have hsched : s'.view.scheduled = (s.view.claim regions).scheduled :=
      congrArg View.scheduled hview
    refine ⟨claimedCall env pfx keys regions c (s.view.claimed regions), s', ?_, hinv,
      sound_claimedCall hstores hcall filter_sublist, .inl ⟨hsched, fun _ h => h.elim⟩⟩
    rw [step, ← bind_assoc]
    exact bind_eq_some.mpr ⟨_, _, heq, rfl⟩
  | .run skipped [], hcall => exact ⟨_, s, rfl, hs, hcall, .inl ⟨rfl, fun _ h => h⟩⟩
  | .run skipped (b :: todo), hcall =>
    obtain ⟨s', heq, hinv, hsched⟩ := b.run_spec env hs
    exact ⟨.run skipped todo, s', bind_eq_some.mpr ⟨_, _, heq, rfl⟩, hinv, hcall.2,
      .inr ⟨skipped, b, todo, rfl, rfl, hsched⟩⟩

/-! ## Any number of calls -/

structure Healthy (env : Env) (stored : Set Multihash) (c : Pool State Call) : Prop where
  inv : c.shared.Inv
  sound : ∀ call ∈ c.threads, call.Sound env stored

theorem healthy_enter (hs : s.Inv) {pfxs : List Bitstr}
    (hexplore : ∀ p ∈ pfxs, ∀ regions c, exploreSwarm env p = .ok (regions, c) → c <+: p) :
    Healthy env stored ⟨s, pfxs.map .enter⟩ := by
  refine ⟨hs, fun call hcall => ?_⟩
  obtain ⟨p, hp, rfl⟩ := mem_map.mp hcall
  exact hexplore p hp

/-- Every step keeps the provider consistent and the calls sound. -/
theorem Healthy.step (hstores : env.Stores stored) {c' : Pool State Call} (h : Healthy env stored c)
    (hadv : c.advance (step env) i = some c') : Healthy env stored c' := by
  obtain ⟨call, call', s', hi, hstep, rfl⟩ := Pool.advance_eq_some hadv
  obtain ⟨call1, s1, heq, hinv, hsound, -⟩ :=
    step_spec hstores h.inv (h.sound call (mem_of_getElem? hi))
  cases hstep.symm.trans heq
  refine ⟨hinv, fun call'' hcall => ?_⟩
  rcases mem_or_eq_of_mem_set hcall with hmem | rfl
  · exact h.sound call'' hmem
  · exact hsound

/-- The regions that a call is about to claim are explored. -/
def Call.Explored (env : Env) : Call → Prop
  | .claim pfx keys regions c => Explores env pfx keys regions c
  | _ => True

/-- No step panics, in whatever environment. -/
theorem Call.step_inv (hs : s.Inv) {call : Call} (h : call.Explored env) :
    ∃ call' s', call.step env s = some (call', s') ∧ s'.Inv ∧ call'.Explored env := by
  cases call with
  | enter pfx =>
    refine ⟨beginCall env pfx, s, rfl, hs, ?_⟩
    rcases beginCall_cases env pfx with ⟨todo, hcall, -⟩ | ⟨keys, regions, c, hcall, hexplores⟩
    · rw [hcall]
      trivial
    · rw [hcall]
      exact hexplores
  | claim pfx keys regions c =>
    obtain ⟨s1, hstart, hs1, -⟩ :=
      simulates_modifyStats (fun st => { st with ongoingReprovides := .start keys.length _ }) s hs
    obtain ⟨s2, hclaim, hs2, -⟩ := simulates_claimRegionReprovide
      (fun r hr => (exploreSwarm_peers h.explored hr).nonempty) (exploreSwarm_disjoint h.explored)
      s1 hs1
    exact ⟨claimedCall env pfx keys regions c _, s2,
      bind_eq_some.mpr ⟨_, _, hstart, bind_eq_some.mpr ⟨_, _, hclaim, rfl⟩⟩, hs2, trivial⟩
  | run skipped todo =>
    cases todo with
    | nil => exact ⟨_, s, rfl, hs, trivial⟩
    | cons b todo =>
      obtain ⟨s', heq, hs', -⟩ := b.run_spec env hs
      exact ⟨.run skipped todo, s', bind_eq_some.mpr ⟨_, _, heq, rfl⟩, hs', trivial⟩

/-- **No interleaving makes a call panic**, or leaves the provider inconsistent. -/
theorem advances (hs : s.Inv) {pfxs : List Bitstr} (hrun : AnyRun env ⟨s, pfxs.map .enter⟩ c)
    {call : Call} (hi : c.threads[i]? = some call) :
    c.shared.Inv ∧ ∃ c', c.advance (Call.step env) i = some c' := by
  have hkeep : c.shared.Inv ∧ ∀ call ∈ c.threads, call.Explored env := by
    refine hrun.invariant (P := fun c => c.shared.Inv ∧ ∀ call ∈ c.threads, call.Explored env)
      (fun c i c' h _ hadv => ?_) ⟨hs, fun call hcall => ?_⟩
    · obtain ⟨t, t', s1, hi, hstep, rfl⟩ := Pool.advance_eq_some hadv
      obtain ⟨_, _, heq, hs1, ht'⟩ := step_inv h.1 (h.2 t (mem_of_getElem? hi))
      cases hstep.symm.trans heq
      refine ⟨hs1, fun call hcall => ?_⟩
      rcases mem_or_eq_of_mem_set hcall with hmem | rfl
      · exact h.2 call hmem
      · exact ht'
    · obtain ⟨p, -, rfl⟩ := mem_map.mp hcall
      trivial
  obtain ⟨_, _, heq, -⟩ := step_inv hkeep.1 (hkeep.2 call (mem_of_getElem? hi))
  exact ⟨hkeep.1, _, by rw [Pool.advance, hi]; simp only [heq]; rfl⟩

/-- The condition on the next step of a call: when it unschedules a prefix, a stored key of a
skipped region that loses its scheduled prefix is one that some call has yet to reschedule. -/
def Call.PruneSafe (stored : Set Multihash) (c : Pool State Call) : Call → Prop
  | .run skipped (.unschedule pfx :: _) =>
    ∀ r ∈ skipped, ∀ m ∈ stored, r.pfx <+: (mhToBit256 m).bits →
      ∀ x ∈ c.shared.schedule.keys, x <+: (mhToBit256 m).bits → pfx <+: x →
        ∃ call ∈ c.threads, call.Owes (mhToBit256 m).bits
  | _ => True

def PruneSafe (stored : Set Multihash) (c : Pool State Call) (i : Nat) : Prop :=
  ∀ call, c.threads[i]? = some call → call.PruneSafe stored c

structure Covering (env : Env) (stored keys : Set Multihash) (c : Pool State Call) : Prop
    extends Healthy env stored c where
  kept : ∀ m ∈ keys, Covers c.shared.view.scheduled (mhToBit256 m).bits ∨
    ∃ call ∈ c.threads, call.Owes (mhToBit256 m).bits

/-- **A step that meets the condition** loses no key. -/
theorem Covering.step {keys : Set Multihash} (hstores : env.Stores stored) (hkeys : keys ⊆ stored)
    {c' : Pool State Call} (h : Covering env stored keys c) (hsafe : PruneSafe stored c i)
    (hadv : c.advance (step env) i = some c') : Covering env stored keys c' := by
  refine ⟨h.toHealthy.step hstores hadv, fun m hm => ?_⟩
  obtain ⟨call, call', s', hi, hstep, rfl⟩ := Pool.advance_eq_some hadv
  have hsound := h.sound call (List.mem_of_getElem? hi)
  obtain ⟨call1, s1, heq, -, -, hkeep⟩ := step_spec hstores h.inv hsound
  cases hstep.symm.trans heq
  rcases hkeep with ⟨hsched, howes⟩ | ⟨skipped, b, todo, rfl, rfl, hsched⟩
  · rcases h.kept m hm with hcov | howed
    · exact .inl (hsched ▸ hcov)
    · exact .inr (Pool.exists_mem_set hi (howes _) howed)
  · show Covers s'.view.scheduled _ ∨ _
    rw [hsched]
    rcases h.kept m hm with hcov | howed
    · rcases b.covers_onSchedule hcov with hcov | ⟨pfx, x, rfl, hx, hxm, hpx⟩
      · exact .inl hcov
      · -- the key loses its prefix: this call reschedules it later, or it was skipped
        right
        rcases hsound.1 pfx rfl m (hkeys hm) (hpx.trans hxm) with howes | ⟨r, hr, hrm⟩
        · exact ⟨_, List.mem_set (List.getElem?_eq_some_iff.mp hi).1 _, howes⟩
        · have howed := hsafe _ hi r hr m (hkeys hm) hrm x hx hxm hpx
          exact Pool.exists_mem_set hi (fun howes => howes.run.resolve_left id) howed
    · by_cases hb : b.Reschedules (mhToBit256 m).bits
      · exact .inl (hb.covers _)
      · exact .inr (Pool.exists_mem_set hi (fun howes => howes.run.resolve_left hb) howed)

/-- **Coverage under concurrent reprovides.** In every interleaving whose steps meet the condition,
a stored key that was scheduled at the beginning is scheduled once all calls have returned. -/
theorem interleaved_covers {env : Env} {stored : Set Multihash} (hstores : env.Stores stored)
    {s : State} (hs : s.Inv) {pfxs : List Bitstr}
    (hexplore : ∀ p ∈ pfxs, ∀ regions c, exploreSwarm env p = .ok (regions, c) → c <+: p)
    {c : Pool State Call}
    (hrun : Pool.Runs (Call.step env) (PruneSafe stored) ⟨s, pfxs.map .enter⟩ c)
    (hreturned : ∀ call ∈ c.threads, call.Returned) :
    ∀ m ∈ stored, (∃ x ∈ s.schedule.keys, x <+: (mhToBit256 m).bits) →
      (∃ x ∈ c.shared.schedule.keys, x <+: (mhToBit256 m).bits) ∨
        ∃ x ∈ c.shared.reprovideQueue.queue, x <+: (mhToBit256 m).bits := by
  intro m hm hcov
  let keys : Set Multihash := {m | m ∈ stored ∧ Covers s.view.scheduled (mhToBit256 m).bits}
  have hstart : Covering env stored keys ⟨s, pfxs.map .enter⟩ :=
    ⟨healthy_enter hs hexplore, fun m hm => .inl hm.2⟩
  have hend : Covering env stored keys c := hrun.invariant
    (fun _ _ _ h hsafe hadv => h.step hstores (fun m hm => hm.1) hsafe hadv) hstart
  rcases hend.kept m ⟨hm, hcov⟩ with hcov | ⟨call, hcall, howes⟩
  · exact .inl hcov
  · -- a call that has returned owes nothing
    have hret := hreturned call hcall
    match call, hret, howes with
    | .run _ [], _, ⟨b, hb, _⟩ => cases hb

end Calls

/-! ## Two calls -/

instance : DecidablePred Call.Returned
  | .run _ [] => isTrue trivial
  | .run _ (_ :: _) | .enter _ | .claim _ _ _ _ => isFalse id

instance (keys : List Multihash) (c : Pool State Call) :
    DecidablePred (Call.PruneSafe {m | m ∈ keys} c)
  | .run skipped (.unschedule pfx :: _) =>
    inferInstanceAs (Decidable (∀ r ∈ skipped, ∀ m ∈ keys, r.pfx <+: (mhToBit256 m).bits →
      ∀ x ∈ c.shared.schedule.keys, x <+: (mhToBit256 m).bits → pfx <+: x →
        ∃ call ∈ c.threads, call.Owes (mhToBit256 m).bits))
  | .run _ [] | .enter _ | .claim _ _ _ _ => isTrue trivial
  | .run _ (.ongoing _ :: _) | .run _ (.record _ :: _) | .run _ (.vanillaProvide _ :: _)
  | .run _ (.dequeueMatching _ :: _) | .run _ (.removeQueued _ :: _) | .run _ (.send _ :: _)
  | .run _ (.release _ :: _) | .run _ (.reschedule _ :: _) | .run _ (.count _ :: _)
  | .run _ (.failedReprovide _ _ :: _) => isTrue trivial

def shrunkKeys : List Multihash :=
  [[0, 1, 21], [0, 1, 34], [0, 1, 39], [0, 1, 4], [0, 1, 5], [0, 1, 27]]

def shrunkPrefixes : List Bitstr := [[false, false, false], [false, false, true]]

def shrunkState : State := sampleState shrunkPrefixes

example : [false, false] <+: (mhToBit256 [0, 1, 21]).bits := by
  decide +kernel

theorem shrunk_explores : ∀ p ∈ shrunkPrefixes, ∀ regions c,
    @exploreSwarm binaryTrie (sampleEnv shrunkKeys) p = .ok (regions, c) → c <+: p := by
  have hcov : ∀ p ∈ shrunkPrefixes,
      ((@exploreSwarm binaryTrie (sampleEnv shrunkKeys) p).toOption.map Prod.snd)
        = some [false, false] := by decide +kernel
  have hbelow : ∀ p ∈ shrunkPrefixes, [false, false] <+: p := by decide
  intro p hp regions c hexplore
  have hc := hcov p hp
  rw [hexplore] at hc
  cases hc
  exact hbelow p hp

theorem shrunkState_inv : shrunkState.Inv := sampleState_inv (by decide)

/-- The call for `001` has returned, and the one for `000` goes on. -/
theorem advances_shrunk : shrunkState.Inv ∧
    ∃ c, @AnyRun binaryTrie (sampleEnv shrunkKeys) ⟨shrunkState, shrunkPrefixes.map .enter⟩ c ∧
      (∃ call ∈ c.threads, call.Returned) ∧ c.shared.Inv ∧
      ∃ c', c.advance (@Call.step binaryTrie (sampleEnv shrunkKeys)) 0 = some c' := by
  have hexec : ((Pool.mk shrunkState (shrunkPrefixes.map .enter)).exec
      (@Call.step binaryTrie (sampleEnv shrunkKeys)) (fun _ _ => true)
      ([0, 0, 1, 1] ++ replicate 7 1)).any (fun c => decide (c.threads[0]?.isSome ∧
        ∃ call ∈ c.threads, call.Returned)) = true := by decide +kernel
  obtain ⟨c, heq, hend⟩ := (Option.any_eq_true _ _).mp hexec
  obtain ⟨hsome, hreturned⟩ := of_decide_eq_true hend
  obtain ⟨call, hcall⟩ := Option.isSome_iff_exists.mp hsome
  have hrun : @AnyRun binaryTrie (sampleEnv shrunkKeys) _ c :=
    Pool.runs_of_exec (fun _ _ _ => trivial) _ heq
  exact ⟨shrunkState_inv, c, hrun, hreturned,
    @advances binaryTrie _ _ _ _ shrunkState_inv _ hrun _ hcall⟩

/-- The call for `001` skips the region `00`, and unschedules it before the call for `000` does
anything else: `00` is scheduled in the end. -/
theorem interleaved_covers_shrunk :
    shrunkState.Inv ∧ (sampleEnv shrunkKeys).Stores {m | m ∈ shrunkKeys} ∧
    ∃ c, Pool.Runs (@Call.step binaryTrie (sampleEnv shrunkKeys)) (PruneSafe {m | m ∈ shrunkKeys})
        ⟨shrunkState, shrunkPrefixes.map .enter⟩ c ∧
      (∀ call ∈ c.threads, call.Returned) ∧
      ∀ m ∈ shrunkKeys, (∃ x ∈ shrunkState.schedule.keys, x <+: (mhToBit256 m).bits) →
        (∃ x ∈ c.shared.schedule.keys, x <+: (mhToBit256 m).bits) ∨
          ∃ x ∈ c.shared.reprovideQueue.queue, x <+: (mhToBit256 m).bits := by
  have hexec : ((Pool.mk shrunkState (shrunkPrefixes.map .enter)).exec
      (@Call.step binaryTrie (sampleEnv shrunkKeys))
      (fun c i => c.threads[i]?.all fun call => decide (call.PruneSafe {m | m ∈ shrunkKeys} c))
      ([0, 0, 1, 1] ++ replicate 7 1 ++ replicate 11 0)).any
        (fun c => decide (∀ call ∈ c.threads, call.Returned)) = true := by decide +kernel
  obtain ⟨c, heq, hend⟩ := (Option.any_eq_true _ _).mp hexec
  have hreturned := of_decide_eq_true hend
  have hrun : Pool.Runs (@Call.step binaryTrie (sampleEnv shrunkKeys))
      (PruneSafe {m | m ∈ shrunkKeys}) ⟨shrunkState, shrunkPrefixes.map .enter⟩ c := by
    refine Pool.runs_of_exec (fun c i hcheck call hcall => ?_) _ heq
    rw [hcall] at hcheck
    exact of_decide_eq_true hcheck
  exact ⟨shrunkState_inv, Network.stores _ _, c, hrun, hreturned, @interleaved_covers binaryTrie _ _
    (Network.stores _ _) _ shrunkState_inv _ shrunk_explores c hrun hreturned⟩

/-- The call for `001` skips the region `00`, but unschedules it only after the call for `000` has
rescheduled it and returned: nothing is scheduled in the end. -/
theorem interleaved_uncovers :
    shrunkState.Inv ∧ shrunkState.activeReprovides = .emptyLeaf ∧
    (sampleEnv shrunkKeys).Flawless ∧ (sampleEnv shrunkKeys).Stores {m | m ∈ shrunkKeys} ∧
    (∀ p ∈ shrunkPrefixes, ∀ regions c,
      @exploreSwarm binaryTrie (sampleEnv shrunkKeys) p = .ok (regions, c) → c <+: p) ∧
    (∀ m ∈ shrunkKeys, ∃ x ∈ shrunkState.schedule.keys, x <+: (mhToBit256 m).bits) ∧
    ∃ c, @AnyRun binaryTrie (sampleEnv shrunkKeys) ⟨shrunkState, shrunkPrefixes.map .enter⟩ c ∧
      (∀ call ∈ c.threads, call.Returned) ∧
      ∀ m ∈ shrunkKeys, (∀ x ∈ c.shared.schedule.keys, ¬ x <+: (mhToBit256 m).bits) ∧
        ∀ x ∈ c.shared.reprovideQueue.queue, ¬ x <+: (mhToBit256 m).bits := by
  have hexec : ((Pool.mk shrunkState (shrunkPrefixes.map .enter)).exec
      (@Call.step binaryTrie (sampleEnv shrunkKeys)) (fun _ _ => true)
      ([0, 0, 1, 1] ++ replicate 11 0 ++ replicate 7 1)).any
        (fun c => decide ((∀ call ∈ c.threads, call.Returned) ∧
          c.shared.schedule.keys = [] ∧ c.shared.reprovideQueue.queue = [])) = true := by
    decide +kernel
  obtain ⟨c, heq, hend⟩ := (Option.any_eq_true _ _).mp hexec
  obtain ⟨hreturned, hsched, hqueue⟩ := of_decide_eq_true hend
  refine ⟨shrunkState_inv, rfl, sampleEnv_flawless _, Network.stores _ _, shrunk_explores,
    by decide +kernel, c, Pool.runs_of_exec (fun _ _ _ => trivial) _ heq, hreturned, fun m _ => ?_⟩
  simp [hsched, hqueue]

end KadDht.SweepingProvider
