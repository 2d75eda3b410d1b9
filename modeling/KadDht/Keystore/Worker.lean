import KadDht.Keystore.Layout
import KadDht.Lib.PartialCommit

/-!
# Keystore — the worker (`provider/keystore/keystore.go`)

A worker goroutine serves the requests one after the other, and keeps the number of stored keys in a
counter. The counter is updated by what a request added or removed, and counted again after a
request that failed. On a clean shutdown it is written to the datastore, from where the next start
reads and removes it.
-/

namespace KadDht.Keystore

open List DsM

structure Config where
  prefixBits : Nat
  batchSize : Nat
  bits_le : prefixBits ≤ 256
  bits_aligned : prefixBits % 8 = 0
  batch_pos : 0 < batchSize

def defaultConfig : Config := ⟨16, 1 <<< 14, by decide, by decide, by decide⟩

structure State where
  size : Int64

abbrev KeystoreM := DsM State

/-! ## Calls on the datastore -/

def batch : KeystoreM Batch := do
  DsM.call ""
  pure []

def has (k : DsKey) : KeystoreM Bool := do
  DsM.call ""
  let d ← DsM.store
  pure (decide (k ∈ d.keys))

def dsGet (k : DsKey) : KeystoreM Bytes := do
  DsM.call ""
  let d ← DsM.store
  match d.find k with
  | none => DsM.fail (.error "datastore: key not found")
  | some v => pure v

def setSize (size : Int64) : KeystoreM Unit := DsM.setCaller ⟨size⟩

def refreshSize : KeystoreM Nat := do
  let results ← DsM.query (DsKey.new [])
  pure results.length

/-- Count the keys again; an error is only logged. -/
def refresh : KeystoreM Unit :=
  DsM.ignore do
    let size ← refreshSize
    setSize (Int64.ofNat size)

/-! ## Requests -/

/-- The loop of `put`: the identifiers seen, the writes and the new keys so far. -/
def putLoop (cfg : Config) : List Multihash → List Bit256 → Batch → List Multihash →
    KeystoreM (Batch × List Multihash)
  | [], _, b, newKeys => pure (b, newKeys)
  | h :: keys, seen, b, newKeys =>
    if mhToBit256 h ∈ seen then putLoop cfg keys seen b newKeys
    else do
      let dsk := dsKey (mhToBit256 h) cfg.prefixBits
      let ok ← has dsk
      if ok then putLoop cfg keys (mhToBit256 h :: seen) b newKeys
      else do
        DsM.call "cannot put to batch: "
        putLoop cfg keys (mhToBit256 h :: seen) (b ++ [.put dsk h]) (newKeys ++ [h])

def put (cfg : Config) (faults : CommitFaults) (keys : List Multihash) :
    KeystoreM (List Multihash) := do
  let b ← batch
  let r ← putLoop cfg keys [] b []
  DsM.commitWith faults "cannot commit keystore updates: " r.1
  let s ← DsM.caller
  setSize (s.size + Int64.ofNat r.2.length)
  DsM.ignore (DsM.call "")
  pure r.2

/-- The loop of `delete`: the identifiers seen, the writes and the number of removed keys. -/
def deleteLoop (cfg : Config) : List Multihash → List Bit256 → Batch → Nat →
    KeystoreM (Batch × Nat)
  | [], _, b, removedCount => pure (b, removedCount)
  | h :: keys, seen, b, removedCount =>
    if mhToBit256 h ∈ seen then deleteLoop cfg keys seen b removedCount
    else do
      let dsk := dsKey (mhToBit256 h) cfg.prefixBits
      let ok ← has dsk
      if ok then do
        DsM.call ""
        deleteLoop cfg keys (mhToBit256 h :: seen) (b ++ [.delete dsk]) (removedCount + 1)
      else deleteLoop cfg keys (mhToBit256 h :: seen) b removedCount

def delete (cfg : Config) (faults : CommitFaults) (keys : List Multihash) : KeystoreM Unit := do
  let b ← batch
  let r ← deleteLoop cfg keys [] b 0
  DsM.commitWith faults "cannot commit keystore updates: " r.1
  let s ← DsM.caller
  setSize (s.size - Int64.ofNat r.2)
  DsM.ignore (DsM.call "")

/-- The loop of `empty`: the writes since the last commit, and how many they are. -/
def emptyLoop (cfg : Config) (faults : CommitFaults) : List DsKey → Batch → Nat →
    KeystoreM (Batch × Nat)
  | [], b, writeCount => pure (b, writeCount)
  | k :: results, b, writeCount =>
    if writeCount ≥ cfg.batchSize then do
      DsM.commitWith faults "cannot commit keystore updates: " b
      let b ← batch
      DsM.call "cannot delete key from keystore: "
      emptyLoop cfg faults results (b ++ [.delete k]) 1
    else do
      DsM.call "cannot delete key from keystore: "
      emptyLoop cfg faults results (b ++ [.delete k]) (writeCount + 1)

def empty (cfg : Config) (faults : CommitFaults) : KeystoreM Unit := do
  let b ← batch
  let results ← DsM.query (DsKey.new [])
  let r ← emptyLoop cfg faults (results.map Prod.fst) b 0
  if r.2 > 0 then DsM.commitWith faults "cannot commit keystore updates: " r.1 else pure ()
  DsM.ignore (DsM.call "")

/-! ## Start and shutdown -/

def putUint64 (v : UInt64) : Bytes :=
  (List.range 8).map fun i => UInt8.ofNat (v.toNat / 256 ^ (7 - i))

def uint64 (bs : Bytes) : UInt64 := UInt64.ofNat (bs.foldl (fun n b => 256 * n + b.toNat) 0)

/-- The end of `loadSize` when the size is unavailable or corrupt. -/
def reloadSize : KeystoreM Unit := do
  DsM.ignore (DsM.delete sizeKey)
  refresh

def loadSize : KeystoreM Unit := do
  let sizeBytes ← DsM.handle (do
    let bs ← dsGet sizeKey
    pure (some bs)) fun _ => pure none
  match sizeBytes with
  | none => reloadSize
  | some bs =>
    if bs.length ≠ 8 then reloadSize
    else do
      setSize (uint64 bs).toInt64
      DsM.ignore (DsM.delete sizeKey)

/-- A keystore is opened: its worker starts with `loadSize`. -/
def start : KeystoreM Unit := do
  setSize 0
  loadSize

def persistSize : KeystoreM Unit := do
  let s ← DsM.caller
  DsM.put sizeKey (putUint64 s.size.toUInt64)

def close : KeystoreM Unit := do
  DsM.handle persistSize fun e => DsM.fail (.error ("error persisting size on close: " ++ e))
  DsM.call "error syncing size on close: "

/-! ## The worker -/

inductive Request where
  | put (keys : List Multihash)
  | delete (keys : List Multihash)
  | empty

/-- A request is served, and the size is counted again when it failed. The response to a put is its
new keys. -/
def serveWith (m : KeystoreM (List Multihash)) : KeystoreM (Except String (List Multihash)) :=
  DsM.handle
    (do
      let newKeys ← m
      pure (.ok newKeys))
    fun e => do
      refresh
      pure (.error e)

def Request.serve (cfg : Config) (faults : CommitFaults) :
    Request → KeystoreM (Except String (List Multihash))
  | .put keys => serveWith (Keystore.put cfg faults keys)
  | .delete keys => serveWith do
    Keystore.delete cfg faults keys
    pure []
  | .empty => serveWith do
    Keystore.empty cfg faults
    setSize 0
    pure []

def size : KeystoreM Int64 := do
  let s ← DsM.caller
  pure s.size

/-! ## What the parts do -/

section Specs

variable {cfg : Config} {faults : CommitFaults} {c : State} {d : Datastore}

theorem returns_batch : DsM.Returns batch c d [] c d := (returns_call "").bind returns_pure

theorem returns_size : DsM.Returns size c d c.size c d := returns_caller.bind returns_pure

theorem returns_has (k : DsKey) : DsM.Returns (has k) c d (decide (k ∈ d.keys)) c d :=
  (returns_call "").bind (returns_store.bind returns_pure)

theorem returns_sync : DsM.Returns (DsM.ignore (DsM.call "") : KeystoreM Unit) c d () c d :=
  (returns_call "").handle _

theorem query_root (d : Datastore) : d.query (DsKey.new []) = d.entries := if_pos rfl

theorem returns_refresh : DsM.Returns refresh c d () ⟨Int64.ofNat d.keys.length⟩ d := by
  have hcount : DsM.Returns refreshSize c d d.keys.length c d := by
    have hquery := returns_query (c := c) (d := d) (DsKey.new [])
    rw [query_root] at hquery
    refine hquery.bind ?_
    rw [show d.entries.length = d.keys.length from (length_map Prod.fst).symm]
    exact returns_pure
  exact DsM.Returns.handle (hcount.bind returns_setCaller) _

/-- The keys among the given ones that are seen for the first time and satisfy a condition. -/
structure Fresh (keys : List Multihash) (seen : List Bit256) (wanted : Bit256 → Prop)
    (out : List Multihash) : Prop where
  sublist : out.Sublist keys
  nodup : (out.map mhToBit256).Nodup
  mem_iff : ∀ k, k ∈ out.map mhToBit256 ↔ k ∈ keys.map mhToBit256 ∧ k ∉ seen ∧ wanted k

theorem Fresh.nil (seen : List Bit256) (wanted : Bit256 → Prop) : Fresh [] seen wanted [] :=
  ⟨List.Sublist.refl [], nodup_nil, by simp⟩

variable {keys out : List Multihash} {seen : List Bit256} {wanted : Bit256 → Prop} {h : Multihash}

theorem Fresh.skip_seen (hout : Fresh keys seen wanted out) (hseen : mhToBit256 h ∈ seen) :
    Fresh (h :: keys) seen wanted out := by
  refine ⟨hout.sublist.cons h, hout.nodup, fun k => ?_⟩
  rw [hout.mem_iff, map_cons, mem_cons]
  constructor
  · exact fun hk => ⟨.inr hk.1, hk.2⟩
  · rintro ⟨rfl | hk, hnot, hwanted⟩
    · exact (hnot hseen).elim
    · exact ⟨hk, hnot, hwanted⟩

theorem Fresh.skip_unwanted (hout : Fresh keys (mhToBit256 h :: seen) wanted out)
    (hno : ¬ wanted (mhToBit256 h)) : Fresh (h :: keys) seen wanted out := by
  refine ⟨hout.sublist.cons h, hout.nodup, fun k => ?_⟩
  rw [hout.mem_iff, map_cons, mem_cons, mem_cons, not_or]
  constructor
  · exact fun hk => ⟨.inr hk.1, hk.2.1.2, hk.2.2⟩
  · rintro ⟨hk, hnot, hwanted⟩
    have hne : k ≠ mhToBit256 h := fun heq => hno (heq ▸ hwanted)
    exact ⟨hk.resolve_left hne, ⟨hne, hnot⟩, hwanted⟩

theorem Fresh.take (hout : Fresh keys (mhToBit256 h :: seen) wanted out)
    (hseen : mhToBit256 h ∉ seen) (hyes : wanted (mhToBit256 h)) :
    Fresh (h :: keys) seen wanted (h :: out) := by
  refine ⟨hout.sublist.cons_cons h, ?_, fun k => ?_⟩
  · rw [map_cons, nodup_cons]
    refine ⟨fun hmem => ?_, hout.nodup⟩
    exact ((hout.mem_iff _).mp hmem).2.1 mem_cons_self
  · rw [map_cons, mem_cons, hout.mem_iff, map_cons, mem_cons, mem_cons, not_or]
    by_cases hk : k = mhToBit256 h
    · simp [hk, hseen, hyes]
    · simp [hk]

def putOp (cfg : Config) (h : Multihash) : BatchOp := .put (dsKey (mhToBit256 h) cfg.prefixBits) h

def deleteOp (cfg : Config) (h : Multihash) : BatchOp :=
  .delete (dsKey (mhToBit256 h) cfg.prefixBits)

variable (cfg c d) in
/-- **The loop of `put`** collects each key that is not stored once. -/
theorem putLoop_returns (keys : List Multihash) (seen : List Bit256) (b : Batch)
    (newKeys : List Multihash) :
    ∃ out, DsM.Returns (putLoop cfg keys seen b newKeys) c d
        (b ++ out.map (putOp cfg), newKeys ++ out) c d ∧
      Fresh keys seen (fun k => dsKey k cfg.prefixBits ∉ d.keys) out := by
  induction keys generalizing seen b newKeys with
  | nil =>
    refine ⟨[], ?_, Fresh.nil seen _⟩
    simp only [map_nil, append_nil]
    exact returns_pure
  | cons h keys ih =>
    rw [putLoop]
    split
    · next hseen =>
      obtain ⟨out, hreturns, hout⟩ := ih seen b newKeys
      exact ⟨out, hreturns, hout.skip_seen hseen⟩
    · next hseen =>
      by_cases hstored : dsKey (mhToBit256 h) cfg.prefixBits ∈ d.keys
      · obtain ⟨out, hreturns, hout⟩ := ih (mhToBit256 h :: seen) b newKeys
        refine ⟨out, (returns_has _).bind ?_, hout.skip_unwanted (not_not.mpr hstored)⟩
        rw [decide_eq_true hstored]
        exact hreturns
      · obtain ⟨out, hreturns, hout⟩ :=
          ih (mhToBit256 h :: seen) (b ++ [putOp cfg h]) (newKeys ++ [h])
        rw [append_assoc, append_assoc] at hreturns
        refine ⟨h :: out, (returns_has _).bind ?_, hout.take hseen hstored⟩
        rw [decide_eq_false hstored]
        exact (returns_call _).bind hreturns

variable (cfg c d) in
/-- **The loop of `delete`** collects each key that is stored once. -/
theorem deleteLoop_returns (keys : List Multihash) (seen : List Bit256) (b : Batch)
    (removedCount : Nat) :
    ∃ out, DsM.Returns (deleteLoop cfg keys seen b removedCount) c d
        (b ++ out.map (deleteOp cfg), removedCount + out.length) c d ∧
      Fresh keys seen (fun k => dsKey k cfg.prefixBits ∈ d.keys) out := by
  induction keys generalizing seen b removedCount with
  | nil =>
    refine ⟨[], ?_, Fresh.nil seen _⟩
    simp only [map_nil, append_nil, length_nil, Nat.add_zero]
    exact returns_pure
  | cons h keys ih =>
    rw [deleteLoop]
    split
    · next hseen =>
      obtain ⟨out, hreturns, hout⟩ := ih seen b removedCount
      exact ⟨out, hreturns, hout.skip_seen hseen⟩
    · next hseen =>
      by_cases hstored : dsKey (mhToBit256 h) cfg.prefixBits ∈ d.keys
      · obtain ⟨out, hreturns, hout⟩ :=
          ih (mhToBit256 h :: seen) (b ++ [deleteOp cfg h]) (removedCount + 1)
        rw [append_assoc, Nat.add_assoc, Nat.add_comm 1] at hreturns
        refine ⟨h :: out, (returns_has _).bind ?_, hout.take hseen hstored⟩
        rw [decide_eq_true hstored]
        exact (returns_call _).bind hreturns
      · obtain ⟨out, hreturns, hout⟩ := ih (mhToBit256 h :: seen) b removedCount
        refine ⟨out, (returns_has _).bind ?_, hout.skip_unwanted hstored⟩
        rw [decide_eq_false hstored]
        exact hreturns

end Specs

/-! ## Emptying a datastore -/

section Empty

variable {α : Type} {cfg : Config} {faults : CommitFaults} {c : State} {d : Datastore}
  {H : (Nat → Option String) → Prop}

/-- A computation returns, or it fails with an error and leaves a store as described behind. -/
def Settles (left : Datastore → Prop) (ok : α → State → Datastore → Prop) :
    Except Failure α → State → Datastore → Prop
  | .ok a, c, d => ok a c d
  | .error (.error _), _, d => left d
  | .error .panic, _, _ => False

theorem ends_batch {Q : Except Failure Batch → State → Datastore → Prop} (hok : Q (.ok []) c d)
    (hfail : ∀ faults n e, H faults → faults n = some e → Q (.error (.error ("" ++ e))) c d) :
    DsM.EndsIn H batch c d Q :=
  DsM.EndsIn.bind (ends_call (fun _ _ _ _ => ends_pure hok) hfail)

theorem ends_sync {Q : Except Failure Unit → State → Datastore → Prop} (hQ : Q (.ok ()) c d) :
    DsM.EndsIn H (DsM.ignore (DsM.call "")) c d Q :=
  DsM.EndsIn.handle (ends_call (fun _ _ _ _ => hQ) fun _ _ _ _ _ => ends_pure hQ)

/-- Keys were only removed, and some call or commit failed. -/
structure Interrupted (H : (Nat → Option String) → Prop) (faults : CommitFaults)
    (d d' : Datastore) : Prop where
  mem_of_mem : ∀ k ∈ d'.keys, k ∈ d.keys
  fault : (∃ oracle n e, H oracle ∧ oracle n = some e) ∨ ∃ n, faults.applied n ≠ none

/-- **The loop of `empty`.** What was committed and what is still pending delete the same keys. -/
theorem emptyLoop_settles (results : List DsKey) {b : Batch} {writeCount : Nat}
    (hb : ∀ op ∈ b, ∃ k, op = .delete k) (hcount : writeCount = 0 → b = []) :
    DsM.EndsIn H (emptyLoop cfg faults results b writeCount) c d
      (Settles (Interrupted H faults d) fun r c' d' => c' = c ∧
        Batch.applyTo r.1 d' = Batch.applyTo (b ++ results.map .delete) d ∧
        (∀ op ∈ r.1, ∃ k, op = .delete k) ∧ (r.2 = 0 → r.1 = []) ∧
        ∀ k ∈ d'.keys, k ∈ d.keys) := by
  induction results generalizing b writeCount d with
  | nil =>
    refine ends_pure ⟨rfl, ?_, hb, hcount, fun _ hk => hk⟩
    rw [map_nil, append_nil]
  | cons k results ih =>
    have hadd : ∀ b : Batch, (∀ op ∈ b, ∃ k, op = .delete k) →
        ∀ op ∈ b ++ [.delete k], ∃ k, op = .delete k := by
      intro b hb op hop
      rcases mem_append.mp hop with hop | hop
      · exact hb op hop
      · exact ⟨k, mem_singleton.mp hop⟩
    rw [emptyLoop]
    split
    · -- the pending deletions are committed first
      have hless : ∀ k ∈ (b.applyTo d).keys, k ∈ d.keys := fun _ => Batch.mem_keys_of_deletes hb
      refine DsM.EndsIn.bind (ends_commitWith ?_ fun n e b' hn hb' => ⟨?_, .inr ⟨n, hn⟩⟩)
      · refine DsM.EndsIn.bind (ends_batch ?_ fun f n e hf he => ⟨hless, .inl ⟨f, n, e, hf, he⟩⟩)
        refine DsM.EndsIn.bind (ends_call (fun _ _ _ _ => ?_)
          fun f n e hf he => ⟨hless, .inl ⟨f, n, e, hf, he⟩⟩)
        refine (ih (hadd [] (by simp)) (by omega)).mono fun r c' d' hr => ?_
        match r with
        | .ok r =>
          rw [Settles, Batch.applyTo_append]
          exact ⟨hr.1, hr.2.1, hr.2.2.1, hr.2.2.2.1, fun k hk => hless k (hr.2.2.2.2 k hk)⟩
        | .error (.error e) => exact ⟨fun k hk => hless k (hr.mem_of_mem k hk), hr.fault⟩
        | .error .panic => exact hr
      · exact fun _ => Batch.mem_keys_of_deletes fun op hop => hb op (hb'.subset hop)
    · refine DsM.EndsIn.bind (ends_call (fun _ _ _ _ => ?_)
        fun f n e hf he => ⟨fun _ hk => hk, .inl ⟨f, n, e, hf, he⟩⟩)
      refine (ih (hadd b hb) (by omega)).mono fun r c' d' hr => ?_
      rw [append_assoc] at hr
      exact hr

/-- **`empty`** leaves no key, unless it is interrupted. -/
theorem empty_settles : DsM.EndsIn H (empty cfg faults) c d
    (Settles (Interrupted H faults d) fun _ _ d' => d' = Datastore.empty) := by
  refine DsM.EndsIn.bind (ends_batch ?_ fun f n e hf he => ⟨fun _ hk => hk, .inl ⟨f, n, e, hf, he⟩⟩)
  refine DsM.EndsIn.bind (DsM.EndsIn.bind (ends_call (fun _ _ _ _ => ?_)
    fun f n e hf he => ⟨fun _ hk => hk, .inl ⟨f, n, e, hf, he⟩⟩))
  refine DsM.EndsIn.bind (ends_store (ends_pure ?_))
  refine DsM.EndsIn.bind ((emptyLoop_settles d.keys (by simp) fun _ => rfl).mono
    fun r c' d' hr => ?_)
  match r with
  | .ok r =>
    obtain ⟨rfl, hall, hdeletes, hcount, hless⟩ := hr
    rw [nil_append, Batch.applyTo_deleteAll d.keys d fun k hk => hk] at hall
    dsimp only
    split
    · refine DsM.EndsIn.bind (ends_commitWith ?_
        fun n e b hn hb => ⟨fun k hk => hless k ?_, .inr ⟨n, hn⟩⟩)
      · exact ends_sync hall
      · exact Batch.mem_keys_of_deletes (fun op hop => hdeletes op (hb.subset hop)) hk
    · refine ends_sync ?_
      rw [hcount (by omega)] at hall
      exact hall
  | .error (.error e) => exact hr
  | .error .panic => exact hr

end Empty

end KadDht.Keystore
