import KadDht.Provider.Explore
import KadDht.Provider.Schedule
import KadDht.Provider.Send

/-!
# Provider — batch provides and reprovides (`provider/provider.go`)

The methods that provide the keys of a keyspace prefix, as the source has them: `batchProvide` for
keys of the provide queue, `batchReprovide` for those the keystore holds below a prefix.

The goroutines `individualProvide` starts for two keys only share a flag that is set; they run one
after the other here.
-/

namespace KadDht.SweepingProvider

/-! ## Statistics -/

def OngoingOpStats.start (keyCount : Int) (st : OngoingOpStats) : OngoingOpStats :=
  ⟨st.opCount + 1, st.keyCount + keyCount⟩

def OngoingOpStats.addKeys (keyCount : Int) (st : OngoingOpStats) : OngoingOpStats :=
  ⟨st.opCount, st.keyCount + keyCount⟩

def OngoingOpStats.finish (keyCount : Int) (st : OngoingOpStats) : OngoingOpStats :=
  ⟨st.opCount - 1, st.keyCount - keyCount⟩

def ongoingProvides (f : OngoingOpStats → OngoingOpStats) : ProviderM Unit :=
  modifyStats fun st => { st with ongoingProvides := f st.ongoingProvides }

def ongoingReprovides (f : OngoingOpStats → OngoingOpStats) : ProviderM Unit :=
  modifyStats fun st => { st with ongoingReprovides := f st.ongoingReprovides }

/-! ## Queues and claims -/

/-- `selfAddrInfo`: whether the node has an address to announce. -/
def selfAddrInfo (env : Env) : ProviderM Bool :=
  if env.selfAddrs.isEmpty then do
    emit (.warn "provider: no self addresses available for providing keys")
    emit .triggerCheck
    pure false
  else pure true

def releaseRegionReprovide (pfx : Bitstr) : ProviderM Unit :=
  modify fun s => { s with activeReprovides := pruneSubtrie s.activeReprovides pfx }

/-- `persistSuccessfulReprovide`: the region is logged as reprovided. -/
def persistSuccessfulReprovide (pfx : Bitstr) : ProviderM Unit :=
  emit (.persistSuccessfulReprovide pfx)

variable [TrieLib]

def reprovideQueueEnqueue (pfx : Bitstr) : ProviderM Unit := fun s =>
  (s.reprovideQueue.push pfx).map fun q => ((), { s with reprovideQueue := q })

def reprovideQueueRemove (pfx : Bitstr) : ProviderM Unit := fun s =>
  (s.reprovideQueue.remove pfx).map fun r => ((), { s with reprovideQueue := r.1 })

def provideQueueEnqueue (pfx : Bitstr) (keys : List Multihash) : ProviderM Unit := fun s =>
  (s.provideQueue.enqueue pfx keys).map fun q => ((), { s with provideQueue := q })

def provideQueueDequeueMatching (pfx : Bitstr) : ProviderM (List Multihash) := fun s =>
  (s.provideQueue.dequeueMatching pfx).map fun r =>
    (r.2, { s with provideQueue := r.1, trace := s.trace ++ [.dequeueMatching r.2] })

def failedProvide (pfx : Bitstr) (keys : List Multihash) (err : String) : ProviderM Unit := do
  emit (.warn err)
  provideQueueEnqueue pfx keys
  emit .triggerCheck

def failedReprovide (pfx : Bitstr) (err : String) : ProviderM Unit := do
  emit (.warn err)
  reprovideQueueEnqueue pfx
  emit .triggerCheck

/-- The loop body of `claimRegionReprovide`: the regions claimed so far, and the claims. -/
def claimRegion (acc : List Region × Trie Bitstr Unit) (r : Region) :
    List Region × Trie Bitstr Unit :=
  if r.peers.isEmptyLeaf then acc
  else if (findPrefixOfKey acc.2 r.pfx).isNone then
    (acc.1 ++ [r], TrieLib.add (pruneSubtrie acc.2 r.pfx) r.pfx ())
  else acc

/-- `claimRegionReprovide`: the regions that no other thread is reproviding. -/
def claimRegionReprovide (regions : List Region) : ProviderM (List Region) := fun s =>
  let (out, activeReprovides) := regions.foldl claimRegion ([], s.activeReprovides)
  some (out, { s with activeReprovides })

/-! ## Individual provides -/

/-- The end of `individualProvide` for a reprovide. -/
def finishReprovide (env : Env) (pfx : Bitstr) (provideErr : Option String) : ProviderM Unit := do
  reschedulePrefix env pfx
  match provideErr with
  | none => persistSuccessfulReprovide pfx
  | some err => failedReprovide pfx err

/-- One goroutine of `individualProvide`; `success` tells whether another one succeeded. -/
def provideOne (env : Env) (pfx : Bitstr) (reprovide success : Bool) (key : Multihash) :
    ProviderM Bool := do
  let r ← vanillaProvide env key
  match r.2 with
  | none => pure true
  | some err =>
    if reprovide then pure success
    else do
      failedProvide pfx [key] err
      pure success

/-- The end of `individualProvide` for a single key, after `vanillaProvide` returned. The next
reprovide is scheduled for the prefix the lookup covered. -/
def concludeSingle (env : Env) (pfx : Bitstr) (key : Multihash) (reprovide : Bool)
    (r : Bitstr × Option String) : ProviderM Unit :=
  if reprovide then finishReprovide env (if r.2.isNone then r.1 else pfx) r.2
  else
    match r.2 with
    | none => pure ()
    | some err =>
      failedProvide pfx [key]
        ("individual provide failed for prefix '" ++ bitstrString pfx ++ "', " ++ err)

/-- The end of `individualProvide` for several keys: it is an error if all of them failed. -/
def concludeAll (env : Env) (pfx : Bitstr) (reprovide success : Bool) : ProviderM Unit :=
  if reprovide then
    finishReprovide env pfx (if success then none
      else some ("all individual provides failed for prefix " ++ bitstrString pfx))
  else pure ()

def individualProvide (env : Env) (pfx : Bitstr) (keys : List Multihash) (reprovide : Bool) :
    ProviderM Unit :=
  match keys with
  | [] => pure ()
  | [key] => do
    let r ← vanillaProvide env key
    concludeSingle env pfx key reprovide r
  | keys => do
    let success ← keys.foldlM (provideOne env pfx reprovide) false
    concludeAll env pfx reprovide success

/-! ## Providing regions -/

/-- The text of the error for a region that could not be sent. -/
def regionError (pfx : Bitstr) (err : String) : String :=
  "cannot send provider records for region " ++ bitstrString pfx ++ ": " ++ err

/-- The end of the loop body of `provideRegions`, after the records of a region were sent. -/
def concludeRegion (env : Env) (reprovide : Bool) (errCount : Nat) (r : Region)
    (err : Option String) : ProviderM Nat := do
  let keys := valuesIter r.keys env.order
  if reprovide then do
    releaseRegionReprovide r.pfx
    reschedulePrefix env r.pfx
  else pure ()
  match err with
  | none => do
    increaseProvideCounter keys.length
    pure errCount
  | some err => do
    if reprovide then failedReprovide r.pfx (regionError r.pfx err)
    else failedProvide r.pfx keys (regionError r.pfx err)
    pure (errCount + 1)

/-- The loop body of `provideRegions`, returning the number of errors so far. -/
def provideRegion (env : Env) (reprovide : Bool) (errCount : Nat) (r : Region) :
    ProviderM Nat :=
  if r.keys.isEmptyLeaf then do
    if reprovide then releaseRegionReprovide r.pfx else pure ()
    pure errCount
  else do
    let keys := valuesIter r.keys env.order
    modify fun s => { s with trace := s.trace ++ keys.map .addLocalRecord }
    let keysAllocations := allocateToKClosest r.keys r.peers env.replicationFactor
    let sent ← sendProviderRecords env keysAllocations keys.length
    concludeRegion env reprovide errCount r sent.2

/-- `provideRegions`: whether not every region failed. -/
def provideRegions (env : Env) (regions : List Region) (reprovide : Bool) : ProviderM Bool := do
  let errCount ← regions.foldlM (provideRegion env reprovide) 0
  pure (decide (errCount < regions.length))

/-! ## Batches -/

def batchProvide (env : Env) (pfx : Bitstr) (keys : List Multihash) : ProviderM Unit :=
  if keys.isEmpty then pure ()
  else do
    let ok ← selfAddrInfo env
    if !ok then pure ()
    else do
      ongoingProvides (.start keys.length)
      if keys.length ≤ individualProvideThreshold then do
        individualProvide env pfx keys false
        ongoingProvides (.finish keys.length)
      else
        match exploreSwarm env pfx with
        | .error err => do
          failedProvide pfx keys ("provide '" ++ bitstrString pfx ++ "': " ++ err)
          ongoingProvides (.finish keys.length)
        | .ok (regions, coveredPrefix) => do
          let extraKeys ← provideQueueDequeueMatching coveredPrefix
          ongoingProvides (.addKeys extraKeys.length)
          let regions := assignKeysToRegions regions (keys ++ extraKeys)
          emit (.assignKeysToRegions regions)
          let provided ← provideRegions env regions false
          if provided then pure ()
          else emit (.warn ("failed to provide any region for prefix " ++ bitstrString pfx))
          ongoingProvides (.finish (keys ++ extraKeys).length)

/-- The end of `batchReprovide`, once the regions to reprovide are claimed and the keys matching
the prefix are loaded. -/
def reprovideClaimed (env : Env) (pfx : Bitstr) (keys : List Multihash) (regions : List Region) :
    ProviderM Unit := do
  let _ ← provideQueueDequeueMatching pfx
  reprovideQueueRemove pfx
  unscheduleSubsumedPrefixesNoLock env pfx
  let regions := assignKeysToRegions regions keys
  emit (.assignKeysToRegions regions)
  let provided ← provideRegions env regions true
  if provided then persistSuccessfulReprovide pfx
  else emit (.warn ("failed to reprovide any region for prefix " ++ bitstrString pfx))

/-- The text of the error for keys that could not be loaded. -/
def loadError (err : String) : String :=
  "could not reprovide, error when loading keys: " ++ err

def batchReprovide (env : Env) (pfx : Bitstr) : ProviderM Unit :=
  if env.closed then pure ()
  else do
    let ok ← selfAddrInfo env
    if !ok then pure ()
    else
      match env.keystoreGet pfx with
      | .error err => do
        failedReprovide pfx (loadError err)
        reschedulePrefix env pfx
      | .ok keys =>
        if keys.isEmpty then pure ()
        else do
          ongoingReprovides (.start keys.length)
          if keys.length ≤ individualProvideThreshold then do
            individualProvide env pfx keys true
            ongoingReprovides (.finish keys.length)
          else
            match exploreSwarm env pfx with
            | .error err => do
              failedReprovide pfx ("reprovide '" ++ bitstrString pfx ++ "': " ++ err)
              reschedulePrefix env pfx
              ongoingReprovides (.finish keys.length)
            | .ok (regions, coveredPrefix) => do
              let claimed ← claimRegionReprovide regions
              if coveredPrefix.length < pfx.length then
                match env.keystoreGet coveredPrefix with
                | .error err => do
                  failedReprovide pfx (loadError err)
                  reschedulePrefix env pfx
                  -- the keys were overwritten by the nil slice that came with the error
                  ongoingReprovides (.finish 0)
                | .ok allKeys => do
                  ongoingReprovides (.addKeys (allKeys.length - keys.length))
                  reprovideClaimed env coveredPrefix allKeys claimed
                  ongoingReprovides (.finish allKeys.length)
              else do
                reprovideClaimed env pfx keys claimed
                ongoingReprovides (.finish keys.length)

end KadDht.SweepingProvider
