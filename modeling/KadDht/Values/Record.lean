import KadDht.Lib.Clock
import KadDht.Lib.Datastore
import KadDht.Lib.Interleave
import KadDht.Lib.Trace

/-!
# Values — the stored record of a key (`handlers.go`, `routing.go`, `dht.go`)

A node stores one record for a key. Peers read and replace it with GET_VALUE and PUT_VALUE messages;
the node itself replaces it with `PutValue`. All of them run at the same time. An access to the
datastore is one step, and so is what a call does before it; `handlePutValue` holds a lock from
before its first access to after its second one.
-/

namespace KadDht.Values

/-! ## Model -/

/-- What the namespace of a key decides about its values. A value may cease to be valid. -/
structure Validator where
  /-- `Validate`, at a time: the error. -/
  validate : Time → Bytes → Bytes → Option String
  /-- `Select`, with two values: the index of the better one. -/
  select : Bytes → Bytes → Bytes → Except String Nat

structure Record where
  key : Bytes
  value : Bytes
  /-- The time that `TimeReceived` is parsed to; nothing if it is not a time. -/
  timeReceived : Option Time
deriving DecidableEq

structure PutMessage where
  key : Bytes
  record : Option Record
deriving DecidableEq

/-- What the calls share: the clock, what the datastore holds under the key, and the lock of
`handlePutValue`. Bytes that are not a record are an entry too. -/
structure Shared where
  now : Time
  entry : Option (Option Record)
  locked : Bool
deriving DecidableEq

/-- Who puts a record: a peer, through `handlePutValue`, or the node, through `PutValue`. -/
inductive Origin where
  | peer
  | node
deriving DecidableEq

inductive Call where
  | handlePutValue (msg : PutMessage)
  /-- `handlePutValue` waits for the lock. -/
  | lock (rec : Record)
  | putValue (value : Bytes)
  /-- The stored record is read next, and compared. -/
  | compare (origin : Origin) (rec : Record)
  /-- The record is written next. -/
  | store (origin : Origin) (rec : Record)
  | handleGetValue (key : Bytes)
  /-- `checkLocalDatastore` has read a record. -/
  | judge (rec : Record)
  /-- The record is deleted next. -/
  | delete
  /-- The put has been successful. -/
  | stored (value : Bytes)
  | answered (rec : Option Record)
  | failed (err : String)
deriving DecidableEq

/-- `getRecordFromDatastore`. An error is one of the datastore. -/
def getRecordFromDatastore (v : Validator) (err : Option String) (s : Shared) :
    Except String (Option Record) :=
  match err with
  | some e => .error e
  | none =>
    match s.entry with
    | some (some rec) =>
      if (v.validate s.now rec.key rec.value).isNone then .ok (some rec) else .ok none
    | _ => .ok none

def getLocal (v : Validator) (key : Bytes) (err : Option String) (s : Shared) :
    Except String (Option Record) :=
  match getRecordFromDatastore v err s with
  | .ok (some rec) => if rec.key ≠ key then .ok none else .ok (some rec)
  | r => r

namespace Call

/-- The lock is released when `handlePutValue` returns. -/
def unlock (origin : Origin) (s : Shared) : Shared :=
  match origin with
  | .peer => { s with locked := false }
  | .node => s

/-- The comparison with the stored record: the error, if the record is not to be stored. -/
def rejects (v : Validator) (key : Bytes) (rec : Record) (err : Option String) (s : Shared) :
    Origin → Option String
  | .peer =>
    match getRecordFromDatastore v err s with
    | .error e => some e
    | .ok none => none
    | .ok (some existing) =>
      match v.select rec.key rec.value existing.value with
      | .error e => some e
      | .ok i => if i ≠ 0 then some "old record" else none
  | .node =>
    match getLocal v key err s with
    | .error e => some e
    | .ok none => none
    | .ok (some old) =>
      if old.value = rec.value then none
      else
        match v.select key rec.value old.value with
        | .error e => some e
        | .ok i => if i ≠ 0 then some "can't replace a newer value with an older value" else none

def checkMessage (v : Validator) (now : Time) (msg : PutMessage) : Call :=
  if msg.key = [] then .failed "handleGetValue but no key was provided"
  else
    match msg.record with
    | none => .failed "nil record"
    | some rec =>
      if msg.key ≠ rec.key then .failed "put key doesn't match record key"
      else
        match v.validate now rec.key rec.value with
        | some e => .failed e
        -- `cleanRecord`
        | none => .lock { rec with timeReceived := none }

/-- `checkLocalDatastore`, up to the check of the record. -/
def readRecord (key : Bytes) (err : Option String) (s : Shared) : Call :=
  if key = [] then .failed "handleGetValue but no key was provided"
  else
    match err with
    | some e => .failed e
    | none =>
      match s.entry with
      | none => .answered none
      | some none => .failed "failed to unmarshal DHT record from datastore"
      | some (some rec) => .judge rec

/-- The check of `checkLocalDatastore`. A record without a time is bad. -/
def recordIsBad (maxRecordAge : Int64) (now : Time) (rec : Record) : Bool :=
  match rec.timeReceived with
  | none => true
  | some recvtime => maxRecordAge < now.sub recvtime

/-- The next step of a call on the record of a key. The error is the one of its access to the
datastore. There is no step when the lock is taken, or when the call has returned. -/
def step (v : Validator) (maxRecordAge : Int64) (key : Bytes) (err : Option String) :
    Call → StateT Shared Option Call
  | handlePutValue msg => fun s => some (checkMessage v s.now msg, s)
  | lock rec => fun s =>
    if s.locked then none else some (compare .peer rec, { s with locked := true })
  | putValue value => fun s =>
    match v.validate s.now key value with
    | some e => some (failed e, s)
    | none => some (compare .node ⟨key, value, none⟩, s)
  | compare origin rec => fun s =>
    match rejects v key rec err s origin with
    | some e => some (failed e, unlock origin s)
    | none => some (store origin rec, s)
  | store origin rec => fun s =>
    match err with
    | some e => some (failed e, unlock origin s)
    | none =>
      some (stored rec.value,
        unlock origin { s with entry := some (some { rec with timeReceived := some s.now }) })
  | handleGetValue k => fun s => some (readRecord k err s, s)
  | judge rec => fun s =>
    if recordIsBad maxRecordAge s.now rec then some (delete, s) else some (answered (some rec), s)
  | delete => fun s =>
    -- a failed deletion is only logged
    some (answered none, if err.isNone then { s with entry := none } else s)
  | stored _ | answered _ | failed _ => fun _ => none

end Call

abbrev Node := Pool Shared Call

inductive Label where
  /-- Time passes. -/
  | tick (now : Time)
  /-- A call takes a step; the error is the one of its access to the datastore. -/
  | call (i : Nat) (err : Option String)
deriving DecidableEq

namespace Node

def step (v : Validator) (maxRecordAge : Int64) (key : Bytes) : Label → Node → Option Node
  | .tick now, w =>
    if w.shared.now.ns ≤ now.ns then some { w with shared := { w.shared with now := now } }
    else none
  | .call i err, w => w.advance (Call.step v maxRecordAge key err) i

end Node

/-! ## What a step does -/

namespace Call

@[simp]
theorem unlock_entry (origin : Origin) (s : Shared) : (unlock origin s).entry = s.entry := by
  cases origin with
  | peer => rfl
  | node => rfl

@[simp]
theorem unlock_now (origin : Origin) (s : Shared) : (unlock origin s).now = s.now := by
  cases origin with
  | peer => rfl
  | node => rfl

variable {v : Validator} {maxRecordAge : Int64} {key : Bytes} {err : Option String}

variable (v : Validator) (maxRecordAge : Int64) (key : Bytes) (err : Option String) (s : Shared) in
inductive Goes : Call → Call → Shared → Prop where
  | message (msg : PutMessage) : Goes (handlePutValue msg) (checkMessage v s.now msg) s
  | locks (rec : Record) (hfree : s.locked = false) :
    Goes (lock rec) (compare .peer rec) { s with locked := true }
  | invalid {value : Bytes} {e : String} (hvalid : v.validate s.now key value = some e) :
    Goes (putValue value) (failed e) s
  | valid {value : Bytes} (hvalid : v.validate s.now key value = none) :
    Goes (putValue value) (compare .node ⟨key, value, none⟩) s
  | rejected {origin : Origin} {rec : Record} {e : String}
    (hrejects : rejects v key rec err s origin = some e) :
    Goes (compare origin rec) (failed e) (unlock origin s)
  | passes {origin : Origin} {rec : Record} (hrejects : rejects v key rec err s origin = none) :
    Goes (compare origin rec) (store origin rec) s
  | storeFails {origin : Origin} {rec : Record} {e : String} (herr : err = some e) :
    Goes (store origin rec) (failed e) (unlock origin s)
  | stores {origin : Origin} {rec : Record} (herr : err = none) :
    Goes (store origin rec) (stored rec.value)
      (unlock origin { s with entry := some (some { rec with timeReceived := some s.now }) })
  | reads (k : Bytes) : Goes (handleGetValue k) (readRecord k err s) s
  | bad {rec : Record} (hbad : recordIsBad maxRecordAge s.now rec = true) :
    Goes (judge rec) delete s
  | good {rec : Record} (hgood : recordIsBad maxRecordAge s.now rec = false) :
    Goes (judge rec) (answered (some rec)) s
  | deletes (herr : err = none) : Goes delete (answered none) { s with entry := none }
  | deleteFails (herr : err.isNone = false) : Goes delete (answered none) s

theorem goes {c c' : Call} {s s' : Shared}
    (h : step v maxRecordAge key err c s = some (c', s')) :
    Goes v maxRecordAge key err s c c' s' := by
  cases c with
  | handlePutValue msg =>
    cases h
    exact .message msg
  | lock rec =>
    dsimp only [step] at h
    split at h
    · cases h
    · next hfree =>
      cases h
      exact .locks rec (Bool.not_eq_true _ ▸ hfree)
  | putValue value | compare origin rec =>
    dsimp only [step] at h
    split at h <;> cases h <;> constructor <;> assumption
  | store origin rec | delete =>
    cases err with
    | some e =>
      cases h
      constructor
      rfl
    | none =>
      cases h
      constructor
      rfl
  | handleGetValue k =>
    cases h
    exact .reads k
  | judge rec =>
    dsimp only [step] at h
    split at h
    · next hbad =>
      cases h
      exact .bad hbad
    · next hgood =>
      cases h
      exact .good (Bool.not_eq_true _ ▸ hgood)
  | stored value | answered rec | failed e => cases h

end Call

end KadDht.Values
