import KadDht.Keystore.Worker
import KadDht.Lib.Multihash

/-!
# Buffered — the worker (`provider/buffered/provider.go`)

The buffered provider queues its operations as bytes. A worker takes them out in batches, groups the
multihashes of a batch by operation, and calls the wrapped provider once for each group: forced
starts first, then starts, single provides, and stops last. A stop is dropped when a start of the
same multihash comes after it in the batch.
-/

namespace KadDht.Buffered

/-! ## Queued operations -/

inductive Op where
  | provideOnceOp
  | startProvidingOp
  | forceStartProvidingOp
  | stopProvidingOp
deriving DecidableEq

def Op.toByte : Op → UInt8
  | provideOnceOp => 0
  | startProvidingOp => 1
  | forceStartProvidingOp => 2
  | stopProvidingOp => 3

def Op.ofByte (b : UInt8) : Option Op :=
  if b = 0 then some provideOnceOp
  else if b = 1 then some startProvidingOp
  else if b = 2 then some forceStartProvidingOp
  else if b = 3 then some stopProvidingOp
  else none

def toBytes (op : UInt8) (key : Multihash) : Bytes := op :: key

section Parse

variable [MultihashLib]

def cast (buf : Bytes) : Except String Multihash :=
  match MultihashLib.mhFromBytes buf with
  | .error e => .error e
  | .ok (n, m) => if n = buf.length then .ok m else .error "multihash length inconsistent"

/-- `fromBytes`. The first byte of nothing is a panic. -/
def fromBytes : Bytes → Except Failure (UInt8 × Multihash)
  | [] => .error .panic
  | op :: rest =>
    match cast rest with
    | .error e => .error (.error e)
    | .ok h => .ok (op, h)

structure Operations where
  provideOnce : List Multihash
  startProviding : List Multihash
  forceStartProviding : List Multihash
  stopProviding : List Multihash

/-- The body of the loop of `getOperations`. Until the end `stopProviding` is the map `stopProv`. -/
def Operations.add (ops : Operations) : Op → Multihash → Operations
  | .provideOnceOp, h => { ops with provideOnce := ops.provideOnce ++ [h] }
  | .startProvidingOp, h =>
    { ops with
      startProviding := ops.startProviding ++ [h]
      stopProviding := ops.stopProviding.filter (· ≠ h) }
  | .forceStartProvidingOp, h =>
    { ops with
      forceStartProviding := ops.forceStartProviding ++ [h]
      stopProviding := ops.stopProviding.filter (· ≠ h) }
  | .stopProvidingOp, h => { ops with stopProviding := ops.stopProviding.filter (· ≠ h) ++ [h] }

def getOperationsLoop : List Bytes → Operations → Except Failure Operations
  | [], ops => .ok ops
  | bs :: dequeued, ops =>
    match fromBytes bs with
    | .error e => .error e
    | .ok (op, h) =>
      match Op.ofByte op with
      | some op => getOperationsLoop dequeued (ops.add op h)
      | none => getOperationsLoop dequeued ops

def getOperations (order : MapOrder Multihash) (dequeued : List Bytes) :
    Except Failure Operations := do
  let ops ← getOperationsLoop dequeued ⟨[], [], [], []⟩
  .ok { ops with stopProviding := order.visit ops.stopProviding }

end Parse

/-! ## Calls of the wrapped provider -/

inductive Call where
  | provideOnce (keys : List Multihash)
  | startProviding (force : Bool) (keys : List Multihash)
  | stopProviding (keys : List Multihash)

def executeOperation (f : List Multihash → Call) (keys : List Multihash) : List Call :=
  if keys = [] then [] else [f keys]

def Operations.calls (ops : Operations) : List Call :=
  executeOperation (.startProviding true) ops.forceStartProviding ++
    executeOperation (.startProviding false) ops.startProviding ++
    executeOperation .provideOnce ops.provideOnce ++
    executeOperation .stopProviding ops.stopProviding

def worker [MultihashLib] (order : MapOrder Multihash) (dequeued : List Bytes) :
    Except Failure (List Call) := do
  let ops ← getOperations order dequeued
  .ok ops.calls

section Provider

variable (cfg : Keystore.Config) (faults : CommitFaults)

/-- The part of `handleProvide` that uses the keystore. The keys that it returns go to the schedule
and to the provide queue. -/
def handleProvide (force reprovide : Bool) (keys : List Multihash) :
    Keystore.KeystoreM (List Multihash) :=
  if keys = [] then pure []
  else if reprovide then do
    let response ← Keystore.Request.serve cfg faults (.put keys)
    match response with
    | .error _ => pure []
    | .ok newKeys => pure (if force then keys else newKeys)
  else pure keys

def stopProviding (keys : List Multihash) : Keystore.KeystoreM (Except String Unit) :=
  -- `keystore.Delete` of nothing does nothing
  if keys = [] then pure (.ok ())
  else do
    let response ← Keystore.Request.serve cfg faults (.delete keys)
    match response with
    | .error e => pure (.error ("failed to stop providing keys: " ++ e))
    | .ok _ => pure (.ok ())

/-- What a call does to the keystore. Errors are only logged. -/
def Call.run : Call → Keystore.KeystoreM Unit
  | .provideOnce keys => do
    let _ ← handleProvide cfg faults true false keys
    pure ()
  | .startProviding force keys => do
    let _ ← handleProvide cfg faults force true keys
    pure ()
  | .stopProviding keys => do
    let _ ← Buffered.stopProviding cfg faults keys
    pure ()

def runAll : List Call → Keystore.KeystoreM Unit
  | [] => pure ()
  | call :: calls => do
    call.run cfg faults
    runAll calls

end Provider

/-! ## The set of keys -/

def Call.keys : Call → Set Multihash → Set Multihash
  | provideOnce _, K => K
  | startProviding _ keys, K => K ∪ {h | h ∈ keys}
  | stopProviding keys, K => K \ {h | h ∈ keys}

def keysAfter (calls : List Call) (K : Set Multihash) : Set Multihash :=
  calls.foldl (fun K call => call.keys K) K

theorem keysAfter_append (calls calls' : List Call) (K : Set Multihash) :
    keysAfter (calls ++ calls') K = keysAfter calls' (keysAfter calls K) := List.foldl_append

theorem keysAfter_executeOperation {f : List Multihash → Call} (hnil : ∀ K, (f []).keys K = K)
    (keys : List Multihash) (K : Set Multihash) :
    keysAfter (executeOperation f keys) K = (f keys).keys K := by
  rw [executeOperation]
  split
  · next hkeys =>
    rw [hkeys, hnil]
    rfl
  · rfl

structure Queued where
  op : Op
  key : Multihash
deriving DecidableEq

namespace Queued

def bytes (q : Queued) : Bytes := toBytes q.op.toByte q.key

def call (q : Queued) : Call :=
  match q.op with
  | .provideOnceOp => .provideOnce [q.key]
  | .startProvidingOp => .startProviding false [q.key]
  | .forceStartProvidingOp => .startProviding true [q.key]
  | .stopProvidingOp => .stopProviding [q.key]

end Queued

section Batch

variable {queued : List Queued} {ops : Operations} {K K0 : Set Multihash}

/-- The set after a part of the batch, in terms of what was collected from it. -/
def Agrees (K0 : Set Multihash) (ops : Operations) (K : Set Multihash) : Prop :=
  ∀ h, h ∈ K ↔
    (h ∈ K0 ∨ h ∈ ops.forceStartProviding ∨ h ∈ ops.startProviding) ∧ h ∉ ops.stopProviding

theorem Agrees.add (hagrees : Agrees K0 ops K) (q : Queued) :
    Agrees K0 (ops.add q.op q.key) (q.call.keys K) := by
  obtain ⟨op, key⟩ := q
  intro h
  have hh := hagrees h
  cases op with
  | provideOnceOp => exact hh
  | startProvidingOp | forceStartProvidingOp =>
    -- after a start the key is there, whatever came before
    by_cases hkey : h = key
    · simp [Queued.call, Call.keys, Operations.add, hkey]
    · simp [Queued.call, Call.keys, Operations.add, hkey, hh]
  | stopProvidingOp =>
    by_cases hkey : h = key
    · simp [Queued.call, Call.keys, Operations.add, hkey]
    · simp [Queued.call, Call.keys, Operations.add, hkey, hh]

theorem Agrees.collect (hagrees : Agrees K0 ops K) :
    Agrees K0 (queued.foldl (fun ops q => ops.add q.op q.key) ops)
      (keysAfter (queued.map Queued.call) K) := by
  induction queued generalizing ops K with
  | nil => exact hagrees
  | cons q queued ih => exact ih (hagrees.add q)

theorem keysAfter_calls : keysAfter ops.calls K0 =
    ((K0 ∪ {h | h ∈ ops.forceStartProviding}) ∪ {h | h ∈ ops.startProviding}) \
      {h | h ∈ ops.stopProviding} := by
  have hstart (force : Bool) (K : Set Multihash) : (Call.startProviding force []).keys K = K := by
    simp [Call.keys]
  have honce (K : Set Multihash) : (Call.provideOnce []).keys K = K := rfl
  have hstop (K : Set Multihash) : (Call.stopProviding []).keys K = K := by simp [Call.keys]
  rw [Operations.calls, keysAfter_append, keysAfter_append, keysAfter_append,
    keysAfter_executeOperation (hstart true), keysAfter_executeOperation (hstart false),
    keysAfter_executeOperation honce, keysAfter_executeOperation hstop]
  rfl

def collect (queued : List Queued) : Operations :=
  queued.foldl (fun ops q => ops.add q.op q.key) ⟨[], [], [], []⟩

def grouped (order : MapOrder Multihash) (queued : List Queued) : List Call :=
  { collect queued with stopProviding := order.visit (collect queued).stopProviding }.calls

/-- **Grouping a batch.** The calls of the worker leave the set of keys that the queued operations
leave when they are executed one by one. -/
theorem keysAfter_grouped (order : MapOrder Multihash) (queued : List Queued) (K : Set Multihash) :
    keysAfter (grouped order queued) K = keysAfter (queued.map Queued.call) K := by
  have hagrees : Agrees K (collect queued) (keysAfter (queued.map Queued.call) K) :=
    Agrees.collect fun h => by simp
  ext h
  rw [hagrees h, grouped, keysAfter_calls]
  simp only [Set.mem_sdiff, Set.mem_union, Set.mem_ofPred_eq, or_assoc, (order.perm _).mem_iff]

variable [MultihashLib]

theorem cast_wellFormed {h : Multihash} (hwf : MultihashLib.wellFormed h) : cast h = .ok h := by
  have hparse := MultihashLib.mhFromBytes_append [] hwf
  rw [List.append_nil] at hparse
  rw [cast, hparse]
  exact if_pos rfl

theorem getOperationsLoop_eq (hwf : ∀ q ∈ queued, MultihashLib.wellFormed q.key) :
    getOperationsLoop (queued.map Queued.bytes) ops =
      .ok (queued.foldl (fun ops q => ops.add q.op q.key) ops) := by
  induction queued generalizing ops with
  | nil => rfl
  | cons q queued ih =>
    have hfrom : fromBytes q.bytes = .ok (q.op.toByte, q.key) := by
      rw [Queued.bytes, toBytes, fromBytes, cast_wellFormed (hwf q List.mem_cons_self)]
    have hop : Op.ofByte q.op.toByte = some q.op := by cases q.op <;> rfl
    have hrest := @ih (ops.add q.op q.key) fun q' hq' => hwf q' (List.mem_cons_of_mem q hq')
    rw [List.map_cons, getOperationsLoop, hfrom]
    dsimp only
    rw [hop]
    exact hrest

/-- A batch of well-formed operations is grouped. -/
theorem worker_eq (order : MapOrder Multihash)
    (hwf : ∀ q ∈ queued, MultihashLib.wellFormed q.key) :
    worker order (queued.map Queued.bytes) = .ok (grouped order queued) := by
  rw [worker, getOperations, getOperationsLoop_eq hwf]
  rfl

end Batch

end KadDht.Buffered
