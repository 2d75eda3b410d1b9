import KadDht.Provider.State
import Mathlib.Data.List.Dedup

/-!
# Provider — sending provider records (`provider/provider.go`)

`sendProviderRecords` hands the allocated keys to their peers and decides whether enough peers
were reached; `vanillaProvide` sends a single key to the peers closest to it.

The jobs of `sendProviderRecords` run concurrently, one for each peer, and only count errors, so
the outcome does not depend on their order. When the provider is shutting down, the workers drop
their jobs: no error is counted.
-/

namespace KadDht.SweepingProvider

open Abstraction

/-! ## One peer -/

structure SendLoop where
  sentKeys : Nat
  errCount : Nat
  errStreak : Nat

/-- The inner loop of `provideKeysToPeer`. An early return gives the error and the number of
records to add to the statistics. -/
def provideBatch (env : Env) (p : PeerId) (lastBatch : Bool) :
    List Multihash → SendLoop → Except (String × Nat) SendLoop
  | [], st => .ok st
  | m :: rest, st =>
    if env.closed then .error (errClosed, 0)
    else
      match env.sendMessage p m with
      | none => provideBatch env p lastBatch rest ⟨st.sentKeys + 1, st.errCount, 0⟩
      | some err =>
        let st : SendLoop := ⟨st.sentKeys + 1, st.errCount + 1, st.errStreak + 1⟩
        if st.errStreak > maxConsecutiveProvideFailuresAllowed ∨
            (st.errStreak = st.sentKeys ∧ lastBatch ∧ rest.isEmpty) then
          .error ("failed to provide to " ++ env.peerString p ++ ": " ++ err,
            st.sentKeys - st.errCount)
        else provideBatch env p lastBatch rest st

def provideBatches (env : Env) (p : PeerId) :
    List (List Multihash) → SendLoop → Except (String × Nat) SendLoop
  | [], st => .ok st
  | batch :: rest, st =>
    match provideBatch env p rest.isEmpty batch st with
    | .error e => .error e
    | .ok st => provideBatches env p rest st

/-- `provideKeysToPeer`: the error, if any, and the number of provided records. -/
def provideKeysToPeer (env : Env) (p : PeerId) (batches : List (List Multihash)) :
    Option String × Nat :=
  match provideBatches env p batches ⟨0, 0, 0⟩ with
  | .error (err, provided) => (some err, provided)
  | .ok st => (none, st.sentKeys - st.errCount)

/-! ## All peers -/

/-- Round a natural number to a `float32` significand: 24 bits, ties to even. -/
def roundFloat32 (m : Nat) : Nat :=
  let shift := m.log2 + 1 - 24
  let q := m / 2 ^ shift
  let r := m % 2 ^ shift
  if 2 * r < 2 ^ shift ∨ (2 * r = 2 ^ shift ∧ q % 2 = 0) ∨ shift = 0 then q * 2 ^ shift
  else (q + 1) * 2 ^ shift

/-- `1 - minimalRegionReachablePeersRatio` as a `float32`, times `2 ^ 24`. -/
def unreachableRatio : Nat := 13421773

/-- `int(float32(nPeers)*(1-minimalRegionReachablePeersRatio))`. -/
def maxToleratedErrors (nPeers : Nat) : Nat :=
  roundFloat32 (roundFloat32 nPeers * unreachableRatio) / 2 ^ 24

/-- The jobs that end with an error. A closed provider runs no job. -/
def failedJobs (env : Env) (keysAllocations : Allocations Multihash PeerId) :
    Allocations Multihash PeerId :=
  if env.closed then []
  else keysAllocations.filter fun job => (provideKeysToPeer env job.1 job.2).1.isSome

/-- What `sendProviderRecords` returns: the number of reachable peers and the error. -/
def sendOutcome (env : Env) (keysAllocations : Allocations Multihash PeerId) :
    Nat × Option String :=
  let nPeers := keysAllocations.length
  if nPeers = 0 then (0, none)
  else
    let errCount := (failedJobs env keysAllocations).length
    let reachablePeers := nPeers - errCount
    if errCount = nPeers ∨ errCount > maxToleratedErrors nPeers then
      (reachablePeers, some ("unable to provide to enough peers (" ++ toString reachablePeers
        ++ "/" ++ toString nPeers ++ ")"))
    else (reachablePeers, none)

/-- The number of keys that failed with as many peers as the replication factor. -/
def failedKeys (env : Env) (keysAllocations : Allocations Multihash PeerId) : Nat :=
  let failures := (failedJobs env keysAllocations).flatMap fun job => job.2.flatten
  (failures.dedup.filter fun k => failures.count k == env.replicationFactor).length

def providedRecords (env : Env) (keysAllocations : Allocations Multihash PeerId) : Nat :=
  if env.closed then 0
  else (keysAllocations.map fun job => (provideKeysToPeer env job.1 job.2).2).sum

def increaseProvideCounter (n : Int) : ProviderM Unit :=
  modifyStats fun st => { st with provideCounter := st.provideCounter + n }

/-- The statistics of `sendProviderRecords`. Without peers there are none. -/
def recordSend (env : Env) (keysAllocations : Allocations Multihash PeerId) (nKeys : Nat) :
    ProviderM Unit := do
  if keysAllocations.isEmpty then pure ()
  else
    let failed : Int := failedKeys env keysAllocations
    let records : Int := providedRecords env keysAllocations
    modifyStats fun st =>
      { st with
        recordsProvided := st.recordsProvided + records
        keysProvided := st.keysProvided + (nKeys - failed)
        keysFailed := st.keysFailed + failed }
    increaseProvideCounter (nKeys - failed)

def sendProviderRecords (env : Env) (keysAllocations : Allocations Multihash PeerId)
    (nKeys : Nat) : ProviderM (Nat × Option String) := do
  recordSend env keysAllocations nKeys
  emit (.sendProviderRecords keysAllocations (sendOutcome env keysAllocations).2)
  pure (sendOutcome env keysAllocations)

/-! ## A single key -/

/-- The allocations of `vanillaProvide`: the key to every peer found. -/
def singleKeyAllocations (k : Multihash) (peers : List PeerId) : Allocations Multihash PeerId :=
  peers.dedup.map fun p => (p, [[k]])

/-- `vanillaProvide`: the prefix covered by the lookup, and the error. -/
def vanillaProvide (env : Env) (k : Multihash) : ProviderM (Bitstr × Option String) := do
  emit (.addLocalRecord k)
  match env.getClosestPeers k with
  | .error err => pure ([], some err)
  | .ok peers => do
    let coveredPrefix :=
      (shortestCoveredPrefix env.sortClosestPeers (mhToBit256 k).bits peers).1
    let sent ← sendProviderRecords env (singleKeyAllocations k peers) 1
    pure (coveredPrefix, sent.2)

/-! ## What sending leaves behind -/

namespace View

def emitAll (es : List Event) (v : View) : View := { v with trace := v.trace ++ es }

@[simp] theorem emit_eq_emitAll (e : Event) (v : View) : v.emit e = v.emitAll [e] := rfl

@[simp] theorem emitAll_emitAll (es es' : List Event) (v : View) :
    (v.emitAll es).emitAll es' = v.emitAll (es ++ es') := by
  simp [emitAll]

end View

/-- **`sendProviderRecords`** leaves one event. -/
theorem simulates_sendProviderRecords (env : Env)
    (keysAllocations : Allocations Multihash PeerId) (nKeys : Nat) :
    sweeping.Simulates (sendProviderRecords env keysAllocations nKeys) (fun v =>
      (sendOutcome env keysAllocations,
        v.emitAll [.sendProviderRecords keysAllocations (sendOutcome env keysAllocations).2])) := by
  have hstats : sweeping.Simulates (recordSend env keysAllocations nKeys) (fun v => ((), v)) := by
    unfold recordSend
    split
    · exact Simulates.pure ()
    · exact Simulates.skip (simulates_modifyStats _) (simulates_modifyStats _)
  refine Simulates.skip hstats ?_
  exact Simulates.congr (Simulates.andThen (simulates_emit _) (Simulates.pure _)) fun v => rfl

def vanillaOutcome (env : Env) (k : Multihash) : Bitstr × Option String :=
  match env.getClosestPeers k with
  | .error err => ([], some err)
  | .ok peers =>
    ((shortestCoveredPrefix env.sortClosestPeers (mhToBit256 k).bits peers).1,
      (sendOutcome env (singleKeyAllocations k peers)).2)

def vanillaEvents (env : Env) (k : Multihash) : List Event :=
  match env.getClosestPeers k with
  | .error _ => [.addLocalRecord k]
  | .ok peers =>
    [.addLocalRecord k, .sendProviderRecords (singleKeyAllocations k peers)
      (sendOutcome env (singleKeyAllocations k peers)).2]

/-- **`vanillaProvide`** leaves its events. -/
theorem simulates_vanillaProvide (env : Env) (k : Multihash) :
    sweeping.Simulates (vanillaProvide env k) (fun v =>
      (vanillaOutcome env k, v.emitAll (vanillaEvents env k))) := by
  unfold vanillaProvide vanillaOutcome vanillaEvents
  cases env.getClosestPeers k with
  | error err => exact (simulates_emit _).andThen (Simulates.pure _)
  | ok peers =>
    exact Simulates.congr (Simulates.andThen (simulates_emit _)
      (Simulates.andThen (simulates_sendProviderRecords env (singleKeyAllocations k peers) 1)
        (Simulates.pure _))) fun v => by simp

variable {env : Env}

theorem mem_vanillaEvents_of_ok {k : Multihash} (h : (vanillaOutcome env k).2 = none) :
    ∃ peers, .sendProviderRecords (singleKeyAllocations k peers) none ∈ vanillaEvents env k := by
  unfold vanillaOutcome at h
  unfold vanillaEvents
  cases hpeers : env.getClosestPeers k with
  | error err =>
    rw [hpeers] at h
    cases h
  | ok peers =>
    rw [hpeers] at h
    exact ⟨peers, by simpa using h.symm⟩

theorem vanillaOutcome_below {k : Multihash} (h : (vanillaOutcome env k).2 = none) :
    (vanillaOutcome env k).1 <+: (mhToBit256 k).bits := by
  unfold vanillaOutcome at h ⊢
  cases hpeers : env.getClosestPeers k with
  | error err =>
    rw [hpeers] at h
    cases h
  | ok peers =>
    show (shortestCoveredPrefix env.sortClosestPeers (mhToBit256 k).bits peers).1 <+: _
    unfold shortestCoveredPrefix
    split
    · exact List.prefix_rfl
    · exact List.take_prefix _ _

/-! ## Sending without errors -/

theorem provideBatch_ok (hopen : env.closed = false)
    (hsend : ∀ p m, env.sendMessage p m = none) (p : PeerId) (lastBatch : Bool)
    (batch : List Multihash) (st : SendLoop) :
    ∃ st', provideBatch env p lastBatch batch st = .ok st' := by
  induction batch generalizing st with
  | nil => exact ⟨st, rfl⟩
  | cons m rest ih =>
    obtain ⟨st', heq⟩ := ih ⟨st.sentKeys + 1, st.errCount, 0⟩
    exact ⟨st', by simp [provideBatch, hopen, hsend, heq]⟩

theorem provideBatches_ok (hopen : env.closed = false)
    (hsend : ∀ p m, env.sendMessage p m = none) (p : PeerId) (batches : List (List Multihash))
    (st : SendLoop) : ∃ st', provideBatches env p batches st = .ok st' := by
  induction batches generalizing st with
  | nil => exact ⟨st, rfl⟩
  | cons batch rest ih =>
    obtain ⟨st1, heq1⟩ := provideBatch_ok hopen hsend p rest.isEmpty batch st
    obtain ⟨st', heq⟩ := ih st1
    exact ⟨st', by simp [provideBatches, heq1, heq]⟩

/-- **When every message is answered**, sending returns no error. -/
theorem sendOutcome_ok (hopen : env.closed = false)
    (hsend : ∀ p m, env.sendMessage p m = none) (keysAllocations : Allocations Multihash PeerId) :
    (sendOutcome env keysAllocations).2 = none := by
  have hjob : ∀ p batches, (provideKeysToPeer env p batches).1 = none := by
    intro p batches
    obtain ⟨st, heq⟩ := provideBatches_ok hopen hsend p batches ⟨0, 0, 0⟩
    simp [provideKeysToPeer, heq]
  have hfailed : failedJobs env keysAllocations = [] := by
    simp [failedJobs, hopen, hjob]
  unfold sendOutcome
  by_cases hnone : keysAllocations.length = 0
  · simp [hnone]
  · simp [hnone, hfailed, Ne.symm hnone]

theorem allocated_singleKeyAllocations (k : Multihash) (peers : List PeerId) (m : Multihash) :
    Allocated (singleKeyAllocations k peers) m ↔ peers ≠ [] ∧ m = k := by
  unfold Allocated singleKeyAllocations
  constructor
  · rintro ⟨e, he, batch, hbatch, hm⟩
    obtain ⟨p, hp, rfl⟩ := List.mem_map.mp he
    rw [List.mem_singleton] at hbatch
    rw [hbatch, List.mem_singleton] at hm
    exact ⟨List.ne_nil_of_mem (List.mem_dedup.mp hp), hm⟩
  · rintro ⟨hne, rfl⟩
    obtain ⟨p, hp⟩ := List.exists_mem_of_ne_nil _ hne
    exact ⟨(p, [[m]]), List.mem_map.mpr ⟨p, List.mem_dedup.mpr hp, rfl⟩, [m], by simp, by simp⟩

end KadDht.SweepingProvider
