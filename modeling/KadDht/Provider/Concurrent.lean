import KadDht.Lib.Interleave
import KadDht.Provider.Reprovide

/-!
# Provider — `batchReprovide` as a sequence of critical sections

Several workers run `batchReprovide` at the same time. What they share is protected by locks, so
that a call is a sequence of *blocks* that nothing interrupts: each is one critical section, or work
on nothing shared.

* **`batchReprovide_iff_alone`** — a call whose blocks nobody interrupts.
-/

namespace KadDht.SweepingProvider

open Abstraction

/-! ## Blocks -/

/-- A part of `batchReprovide` that runs without interruption. -/
inductive Block where
  /-- An update of the statistics on ongoing reprovides. -/
  | ongoing (f : OngoingOpStats → OngoingOpStats)
  /-- A line in the log or an entry of the reprovide history. -/
  | record (e : Event)
  | vanillaProvide (key : Multihash)
  | dequeueMatching (pfx : Bitstr)
  /-- `reprovideQueue.Remove` -/
  | removeQueued (pfx : Bitstr)
  /-- `unscheduleSubsumedPrefixesNoLock`, with the lock of the schedule -/
  | unschedule (pfx : Bitstr)
  /-- `provideRegions` sends the keys of a region. -/
  | send (r : Region)
  /-- `releaseRegionReprovide` -/
  | release (pfx : Bitstr)
  /-- `reschedulePrefix` -/
  | reschedule (pfx : Bitstr)
  /-- `increaseProvideCounter` -/
  | count (n : Int)
  | failedReprovide (pfx : Bitstr) (err : String)

inductive Call where
  /-- The call has just begun. -/
  | enter (pfx : Bitstr)
  /-- The keys are loaded and the swarm is explored; the regions are claimed next. -/
  | claim (pfx : Bitstr) (keys : List Multihash) (regions : List Region) (coveredPrefix : Bitstr)
  /-- The blocks that are left, and the regions that were skipped because another call had
  claimed them. -/
  | run (skipped : List Region) (todo : List Block)

def Call.Returned : Call → Prop
  | .run _ [] => True
  | _ => False

variable [TrieLib]

def Block.run (env : Env) : Block → ProviderM Unit
  | .ongoing f => ongoingReprovides f
  | .record e => emit e
  | .vanillaProvide key => do
    let _ ← SweepingProvider.vanillaProvide env key
  | .dequeueMatching pfx => do
    let _ ← provideQueueDequeueMatching pfx
  | .removeQueued pfx => reprovideQueueRemove pfx
  | .unschedule pfx => unscheduleSubsumedPrefixesNoLock env pfx
  | .send r => do
    let keys := valuesIter r.keys env.order
    modify fun s => { s with trace := s.trace ++ keys.map .addLocalRecord }
    let _ ← sendProviderRecords env (regionAllocations env r) keys.length
  | .release pfx => releaseRegionReprovide pfx
  | .reschedule pfx => reschedulePrefix env pfx
  | .count n => increaseProvideCounter n
  | .failedReprovide pfx err => SweepingProvider.failedReprovide pfx err

def finishBlocks (pfx : Bitstr) (provideErr : Option String) : List Block :=
  [.reschedule pfx,
    match provideErr with
    | none => .record (.persistSuccessfulReprovide pfx)
    | some err => .failedReprovide pfx err]

def individualBlocks (env : Env) (pfx : Bitstr) (keys : List Multihash) : List Block :=
  keys.map .vanillaProvide ++
    finishBlocks (individualResult env pfx keys).1 (individualResult env pfx keys).2

/-- The blocks of one round of the loop of `provideRegions`. -/
def regionBlocks (env : Env) (r : Region) : List Block :=
  if r.keys.isEmptyLeaf then [.release r.pfx]
  else [.send r, .release r.pfx, .reschedule r.pfx,
    match regionErr env r with
    | none => .count (valuesIter r.keys env.order).length
    | some err => .failedReprovide r.pfx (regionError r.pfx err)]

/-- The blocks of `batchReprovide` once keys are assigned to the claimed regions. -/
def assignedBlocks (env : Env) (pfx : Bitstr) (regions : List Region) : List Block :=
  regions.flatMap (regionBlocks env) ++
    [if regions.countP (regionFails env) < regions.length
      then .record (.persistSuccessfulReprovide pfx)
      else .record (.warn ("failed to reprovide any region for prefix " ++ bitstrString pfx))]

/-- The blocks of `batchReprovide` once the regions are claimed and the keys are loaded. -/
def sweepBlocks (env : Env) (pfx : Bitstr) (keys : List Multihash) (claimed : List Region) :
    List Block :=
  .dequeueMatching pfx :: .removeQueued pfx :: .unschedule pfx ::
    .record (.assignKeysToRegions (assignKeysToRegions claimed keys)) ::
    assignedBlocks env pfx (assignKeysToRegions claimed keys) ++ [.ongoing (.finish keys.length)]

/-- The blocks of `batchReprovide` once the regions are claimed. -/
def claimedBlocks (env : Env) (pfx : Bitstr) (keys : List Multihash) (coveredPrefix : Bitstr)
    (claimed : List Region) : List Block :=
  if coveredPrefix.length < pfx.length then
    match env.keystoreGet coveredPrefix with
    | .error err => [.failedReprovide pfx (loadError err), .reschedule pfx, .ongoing (.finish 0)]
    | .ok allKeys =>
      .ongoing (.addKeys (allKeys.length - keys.length)) ::
        sweepBlocks env coveredPrefix allKeys claimed
  else sweepBlocks env pfx keys claimed

/-- The beginning of `batchReprovide`, which touches nothing shared. -/
def beginCall (env : Env) (pfx : Bitstr) : Call :=
  if env.closed then .run [] []
  else if env.selfAddrs.isEmpty then
    .run [] [.record (.warn "provider: no self addresses available for providing keys"),
      .record .triggerCheck]
  else
    match env.keystoreGet pfx with
    | .error err => .run [] [.failedReprovide pfx (loadError err), .reschedule pfx]
    | .ok keys =>
      if keys.isEmpty then .run [] []
      else if keys.length ≤ individualProvideThreshold then
        .run [] (.ongoing (.start keys.length) :: individualBlocks env pfx keys ++
          [.ongoing (.finish keys.length)])
      else
        match exploreSwarm env pfx with
        | .error err =>
          .run [] [.ongoing (.start keys.length),
            .failedReprovide pfx ("reprovide '" ++ bitstrString pfx ++ "': " ++ err),
            .reschedule pfx, .ongoing (.finish keys.length)]
        | .ok (regions, coveredPrefix) => .claim pfx keys regions coveredPrefix

/-- The call after `claimRegionReprovide` returned the claimed ones among the regions. -/
def claimedCall (env : Env) (pfx : Bitstr) (keys : List Multihash) (regions : List Region)
    (coveredPrefix : Bitstr) (claimed : List Region) : Call :=
  .run (regions.filter fun r => r.pfx ∉ claimed.map Region.pfx)
    (claimedBlocks env pfx keys coveredPrefix claimed)

/-- A call runs its next block. One that has returned stays as it is. -/
def Call.step (env : Env) : Call → ProviderM Call
  | .enter pfx => pure (beginCall env pfx)
  | .claim pfx keys regions coveredPrefix => do
    ongoingReprovides (.start keys.length)
    let claimed ← claimRegionReprovide regions
    pure (claimedCall env pfx keys regions coveredPrefix claimed)
  | .run skipped [] => pure (.run skipped [])
  | .run skipped (b :: todo) => do
    b.run env
    pure (.run skipped todo)

variable {env : Env} {call : Call} {s s' : State}

/-- A call begins by exploring the swarm, or it is about to return without unscheduling
anything. -/
theorem beginCall_cases (env : Env) (pfx : Bitstr) :
    (∃ todo, beginCall env pfx = .run [] todo ∧ ∀ p, .unschedule p ∉ todo) ∨
    ∃ keys regions c, beginCall env pfx = .claim pfx keys regions c ∧
      Explores env pfx keys regions c := by
  unfold beginCall
  split
  · exact .inl ⟨_, rfl, by simp⟩
  · next hopen =>
    split
    · exact .inl ⟨_, rfl, by simp⟩
    · next haddr =>
      cases hget : env.keystoreGet pfx with
      | error err => exact .inl ⟨_, rfl, by simp⟩
      | ok keys =>
        simp only []
        split
        · exact .inl ⟨_, rfl, by simp⟩
        · split
          · refine .inl ⟨_, rfl, fun p => ?_⟩
            cases hresult : (individualResult env pfx keys).2 with
            | none | some err => simp [individualBlocks, finishBlocks, hresult]
          · next hmany =>
            cases hexplore : exploreSwarm env pfx with
            | error err => exact .inl ⟨_, rfl, by simp⟩
            | ok r =>
              exact .inr ⟨keys, r.1, r.2, rfl, by simpa using hopen, by simpa using haddr, hget,
                by omega, hexplore⟩

/-! ## The blocks make up the method -/

abbrev runBlocks (env : Env) (todo : List Block) : ProviderM Unit := forM todo (Block.run env)

def Call.complete (env : Env) : Call → ProviderM Unit
  | .enter pfx => batchReprovide env pfx
  | .claim pfx keys regions coveredPrefix => do
    ongoingReprovides (.start keys.length)
    let claimed ← claimRegionReprovide regions
    runBlocks env (claimedBlocks env pfx keys coveredPrefix claimed)
  | .run _ todo => runBlocks env todo

omit [TrieLib] in
theorem vanillaProvide_bind (env : Env) (key : Multihash) {α : Type}
    (k : Bitstr × Option String → ProviderM α) :
    (vanillaProvide env key >>= k)
      = (vanillaProvide env key >>= fun _ => k (vanillaOutcome env key)) := by
  unfold vanillaProvide vanillaOutcome
  cases env.getClosestPeers key with
  | error err => simp
  | ok peers => simp [sendProviderRecords]

theorem runBlocks_finishBlocks (env : Env) (pfx : Bitstr) (provideErr : Option String) :
    runBlocks env (finishBlocks pfx provideErr) = finishReprovide env pfx provideErr := by
  cases provideErr with
  | none => simp [finishBlocks, finishReprovide, Block.run, persistSuccessfulReprovide]
  | some err => simp [finishBlocks, finishReprovide, Block.run]

theorem foldlM_provideOne (env : Env) (pfx : Bitstr) (keys : List Multihash) (success : Bool) :
    keys.foldlM (provideOne env pfx true) success = (do
      runBlocks env (keys.map .vanillaProvide)
      pure (success || keys.any fun key => (vanillaOutcome env key).2.isNone)) := by
  induction keys generalizing success with
  | nil => simp
  | cons key keys ih =>
    rw [List.foldlM_cons, provideOne, vanillaProvide_bind]
    cases hout : (vanillaOutcome env key).2 with
    | none | some err => simp [ih, Block.run, hout]

theorem runBlocks_individualBlocks (env : Env) (pfx : Bitstr) {keys : List Multihash}
    (hne : keys ≠ []) :
    runBlocks env (individualBlocks env pfx keys) = individualProvide env pfx keys true := by
  rw [individualBlocks, runBlocks, List.forM_append]
  rw [show forM (finishBlocks _ _) _ = _ from runBlocks_finishBlocks env _ _]
  match keys with
  | [] => exact absurd rfl hne
  | [key] =>
    rw [individualProvide, vanillaProvide_bind]
    simp [Block.run, concludeSingle, individualResult]
  | key :: key' :: rest =>
    rw [individualProvide, foldlM_provideOne]
    · simp [concludeAll, individualResult]
    · simp
    · simp

theorem provideRegion_eq (env : Env) (errCount : Nat) (r : Region) :
    provideRegion env true errCount r = (do
      runBlocks env (regionBlocks env r)
      pure (errCount + (regionFails env r).toNat)) := by
  unfold provideRegion regionBlocks regionFails
  cases hempty : r.keys.isEmptyLeaf with
  | true => simp [Block.run]
  | false =>
    have herr : (sendOutcome env (allocateToKClosest r.keys r.peers env.replicationFactor)).2
        = regionErr env r := rfl
    cases hout : regionErr env r with
    | none | some err =>
      simp [Block.run, concludeRegion, sendProviderRecords, regionAllocations, herr, hout]

theorem foldlM_provideRegion (env : Env) (regions : List Region) (errCount : Nat) :
    regions.foldlM (provideRegion env true) errCount = (do
      runBlocks env (regions.flatMap (regionBlocks env))
      pure (errCount + regions.countP (regionFails env))) := by
  induction regions generalizing errCount with
  | nil => simp
  | cons r regions ih =>
    have hcount : errCount + (regionFails env r).toNat + regions.countP (regionFails env)
        = errCount + (r :: regions).countP (regionFails env) := by
      rw [List.countP_cons]
      cases regionFails env r with
      | false => simp
      | true => simp; omega
    rw [List.foldlM_cons, provideRegion_eq]
    simp [ih, hcount]

theorem runBlocks_sweepBlocks (env : Env) (pfx : Bitstr) (keys : List Multihash)
    (claimed : List Region) :
    runBlocks env (sweepBlocks env pfx keys claimed) = (do
      reprovideClaimed env pfx keys claimed
      ongoingReprovides (.finish keys.length)) := by
  unfold sweepBlocks assignedBlocks reprovideClaimed
  split
  · next hlt =>
    simp [Block.run, provideRegions, foldlM_provideRegion, persistSuccessfulReprovide, hlt]
  · next hlt => simp [Block.run, provideRegions, foldlM_provideRegion, hlt]

theorem complete_beginCall (env : Env) (pfx : Bitstr) :
    (beginCall env pfx).complete env = batchReprovide env pfx := by
  unfold beginCall batchReprovide selfAddrInfo
  split
  · rfl
  split
  · simp [Call.complete, Block.run]
  cases env.keystoreGet pfx with
  | error err => simp [Call.complete, Block.run]
  | ok keys =>
    simp only [pure_bind, Bool.not_true, Bool.false_eq_true, if_false]
    split
    · rfl
    · next hempty =>
      have hne : keys ≠ [] := by simpa using hempty
      split
      · have hblocks := runBlocks_individualBlocks env pfx hne
        simp [Call.complete, Block.run, hblocks]
      · cases exploreSwarm env pfx with
        | error err => simp [Call.complete, Block.run]
        | ok r =>
          simp only [Call.complete, claimedBlocks]
          congr; funext _
          congr; funext claimed
          split
          · cases env.keystoreGet r.2 with
            | error err => simp [Block.run]
            | ok allKeys => simp [Block.run, runBlocks_sweepBlocks]
          · simp [runBlocks_sweepBlocks]

/-- **A step and the rest of the call make up the call.** -/
theorem Call.complete_step (env : Env) (call : Call) :
    call.complete env = (do
      let call' ← call.step env
      call'.complete env) := by
  match call with
  | .enter pfx =>
    rw [Call.step, pure_bind, complete_beginCall]
    rfl
  | .claim pfx keys regions coveredPrefix => simp [Call.step, claimedCall, Call.complete]
  | .run skipped [] | .run skipped (b :: todo) => simp [Call.step, Call.complete]

/-! ## A call alone -/

/-- A run without conditions on its steps. -/
abbrev AnyRun (env : Env) : Pool State Call → Pool State Call → Prop :=
  Pool.Runs (Call.step env) fun _ _ => True

theorem AnyRun.single {call' : Call} {s1 : State} {c : Pool State Call}
    (hstep : call.step env s = some (call', s1)) (h : AnyRun env ⟨s1, [call']⟩ c) :
    AnyRun env ⟨s, [call]⟩ c := by
  refine Pool.Runs.head (i := 0) trivial ?_ h
  simp [Pool.advance, hstep]

theorem alone_runs (skipped : List Region) (todo : List Block)
    (h : runBlocks env todo s = some ((), s')) :
    AnyRun env ⟨s, [.run skipped todo]⟩ ⟨s', [.run skipped []]⟩ := by
  induction todo generalizing s with
  | nil =>
    cases h
    exact Pool.Runs.refl
  | cons b todo ih =>
    rw [runBlocks, List.forM_cons] at h
    obtain ⟨⟨⟩, s1, hrun, hrest⟩ := bind_eq_some.mp h
    have hstep : (Call.run skipped (b :: todo)).step env s = some (.run skipped todo, s1) :=
      bind_eq_some.mpr ⟨(), s1, hrun, rfl⟩
    exact AnyRun.single hstep (ih hrest)

/-- What is left of a call that runs alone leads to where the whole call leads. -/
theorem AnyRun.complete {pfx : Bitstr} {c : Pool State Call} (h : AnyRun env ⟨s, [.enter pfx]⟩ c) :
    ∃ call, c.threads = [call] ∧ call.complete env c.shared = batchReprovide env pfx s := by
  induction h with
  | refl => exact ⟨_, rfl, rfl⟩
  | @tail c _ i _ _ hadv ih =>
    obtain ⟨call, hcall, hleft⟩ := ih
    obtain ⟨t, t', s1, hi, hstep, rfl⟩ := Pool.advance_eq_some hadv
    rw [hcall] at hi ⊢
    cases i with
    | zero =>
      cases hi
      refine ⟨t', rfl, ?_⟩
      rw [← hleft, Call.complete_step env call]
      show _ = (call.step env c.shared).bind _
      rw [hstep]
      rfl
    | succ i => cases hi

/-- **A call that no other one interrupts** does what `batchReprovide` does. -/
theorem batchReprovide_iff_alone {pfx : Bitstr} : batchReprovide env pfx s = some ((), s') ↔
    ∃ skipped, AnyRun env ⟨s, [.enter pfx]⟩ ⟨s', [.run skipped []]⟩ := by
  constructor
  · intro h
    have hbegin : (Call.enter pfx).step env s = some (beginCall env pfx, s) := rfl
    rw [← complete_beginCall] at h
    rcases beginCall_cases env pfx with ⟨todo, hcall, -⟩ | ⟨keys, regions, c, hcall, -⟩
    · rw [hcall] at h hbegin
      exact ⟨[], AnyRun.single hbegin (alone_runs [] todo h)⟩
    · rw [hcall] at h hbegin
      rw [Call.complete, ← bind_assoc] at h
      obtain ⟨claimed, s1, hclaim, hrest⟩ := bind_eq_some.mp h
      have hstep : (Call.claim pfx keys regions c).step env s
          = some (claimedCall env pfx keys regions c claimed, s1) := by
        rw [Call.step, ← bind_assoc]
        exact bind_eq_some.mpr ⟨claimed, s1, hclaim, rfl⟩
      exact ⟨_, AnyRun.single hbegin (AnyRun.single hstep (alone_runs _ _ hrest))⟩
  · rintro ⟨skipped, hrun⟩
    obtain ⟨_, ⟨⟩, hleft⟩ := hrun.complete
    exact hleft.symm

end KadDht.SweepingProvider
