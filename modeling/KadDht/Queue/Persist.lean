import KadDht.Lib.Datastore
import KadDht.Lib.Multihash
import KadDht.Queue.Provide

/-!
# Queue — persisting the provide queue (`provider/internal/queue/provide.go`)

`Persist` writes the queue to a datastore, one record per queued prefix: the key is the position
of the prefix in the queue, in hexadecimal, followed by the prefix itself; the value is the
concatenation of the multihashes. `DrainDatastore` reads the records back in key order, enqueues
their keys and deletes them.

Both are computations on a datastore (`DsM`) whose calls may fail; the state of the caller is the
queue. The queries are answered from the store as it is when they are made.

* **`persist_drain_roundTrip`** — when the round trip restores the queue and empties the store.
-/

namespace KadDht

open BitKey List Datastore TrieLib DsM MultihashLib

namespace ProvideQueue

/-! ## The encoding -/

def hexDigit (n : Nat) : Char := "0123456789abcdef".toList.getD n '0'

def hexFixed : Nat → Nat → List Char
  | 0, _ => []
  | width + 1, n => hexFixed width (n / 16) ++ [hexDigit (n % 16)]

/-- `%012x`: at least twelve digits, more when the number needs them. -/
def hex012 (n : Nat) : List Char := hexFixed (max 12 (n.log2 / 4 + 1)) n

def bitstrChars (pfx : Bitstr) : List Char := pfx.map fun b => if b then '1' else '0'

def parseBitstr (s : List Char) : Bitstr := s.map (· == '1')

def recordKey (i : Nat) (pfx : Bitstr) : DsKey := DsKey.new (hex012 i ++ '/' :: bitstrChars pfx)

/-- The value of the record of a prefix: its multihashes, concatenated. -/
def recordValue (q : ProvideQueue) (pfx : Bitstr) : Bytes :=
  (valuesIter (findSubtrie q.keys pfx).1 zeroKey).flatten

/-! ## `Persist` -/

/-- The closure `commitBatchIfFull`. A batch size of zero makes the remainder panic. -/
def commitBatchIfFull (batchSize : Nat) (b : Batch) (size : Nat) : DsM ProvideQueue Batch :=
  if batchSize = 0 then DsM.fail .panic
  else if size % batchSize = 0 then do
    DsM.commit b
    DsM.newBatch
  else pure b

def finalCommit (batchSize : Nat) (b : Batch) (size : Nat) : DsM ProvideQueue Unit :=
  if batchSize = 0 then DsM.fail .panic
  else if size % batchSize ≠ 0 then DsM.commit b
  else pure ()

def deleteLoop (batchSize : Nat) : List DsKey → Batch → Nat → DsM ProvideQueue (Batch × Nat)
  | [], b, i => pure (b, i)
  | k :: ks, b, i => do
    DsM.call "error reading query result: "
    let b ← commitBatchIfFull batchSize (b ++ [.delete (DsKey.new k.path)]) (i + 1)
    deleteLoop batchSize ks b (i + 1)

def writePrefix (q : ProvideQueue) (pfx : Bitstr) (b : Batch) (i : Nat) : DsM ProvideQueue Batch :=
  if (findSubtrie q.keys pfx).2 then do
    DsM.call "failed to store prefix data: "
    pure (b ++ [.put (recordKey i pfx) (q.recordValue pfx)])
  else pure b

def writeLoop (q : ProvideQueue) (batchSize : Nat) :
    List Bitstr → Batch → Nat → DsM ProvideQueue (Batch × Nat)
  | [], b, i => pure (b, i)
  | pfx :: rest, b, i => do
    let b ← q.writePrefix pfx b i
    let b ← commitBatchIfFull batchSize b (i + 1)
    q.writeLoop batchSize rest b (i + 1)

def persist (batchSize : Nat) : DsM ProvideQueue Unit := do
  let q ← DsM.caller
  let batch ← DsM.newBatch
  DsM.call "failed to query datastore: "
  let d ← DsM.store
  let (batch, i) ← deleteLoop batchSize d.keys batch 0
  finalCommit batchSize batch i
  let batch ← DsM.newBatch
  let (batch, i) ← q.writeLoop batchSize q.queue.queue batch 0
  finalCommit batchSize batch i

/-! ## `DrainDatastore` -/

section Drain

variable [MultihashLib]

/-- The loop of `decodeMultihashes` at an offset; `fuel` bounds the number of multihashes. -/
def decodeLoop : Nat → Nat → Bytes → Except String (List Multihash)
  | _, _, [] => .ok []
  | 0, _, _ :: _ => .error "unreachable"
  | fuel + 1, offset, c :: data =>
    match MultihashLib.mhFromBytes (c :: data) with
    | .error e => .error ("failed to decode multihash at offset " ++ toString offset ++ ": " ++ e)
    | .ok (consumed, m) =>
      (decodeLoop fuel (offset + consumed) ((c :: data).drop consumed)).map (m :: ·)

/-- `decodeMultihashes`. A multihash has at least one byte. -/
def decodeMultihashes (data : Bytes) : Except String (List Multihash) :=
  decodeLoop data.length 0 data

variable [TrieLib]

def drainLoop : List (DsKey × Bytes) → Batch → DsM ProvideQueue Batch
  | [], b => pure b
  | (k, value) :: rest, b => do
    DsM.call "error reading query result: "
    match (k.path.drop 1).splitOn '/' with
    | [_, bitstring] =>
      match decodeMultihashes value with
      | .error e => DsM.fail (.error ("failed to decode multihashes for prefix "
          ++ String.ofList bitstring ++ ": " ++ e))
      | .ok [] => drainLoop rest b
      | .ok keys => do
        let q ← DsM.caller
        match q.enqueueNoLock (parseBitstr bitstring) keys with
        | none => DsM.fail .panic
        | some q => do
          DsM.setCaller q
          drainLoop rest (b ++ [.delete (DsKey.new k.path)])
    | _ => drainLoop rest b   -- skip invalid keys

def drainDatastore : DsM ProvideQueue Unit := do
  DsM.call "failed to query datastore: "
  let d ← DsM.store
  let batch ← DsM.newBatch
  let batch ← drainLoop d.sorted batch
  DsM.call "failed to close query results: "
  DsM.commit batch

end Drain

/-! ## Record keys -/

theorem hexDigit_plain (n : Nat) (h : n < 16) :
    hexDigit n ≠ '.' ∧ hexDigit n ≠ '/' ∧ ∀ m < n, (hexDigit m).toNat < (hexDigit n).toNat := by
  revert n
  decide

theorem length_hexFixed (w n : Nat) : (hexFixed w n).length = w := by
  induction w generalizing n with
  | zero => rfl
  | succ w ih => simp [hexFixed, ih]

variable {w n : Nat} {pfx : Bitstr}

theorem mem_hexFixed_digit {c : Char} (h : c ∈ hexFixed w n) : ∃ d < 16, c = hexDigit d := by
  induction w generalizing n with
  | zero => simp [hexFixed] at h
  | succ w ih =>
    rw [hexFixed, mem_append, mem_singleton] at h
    rcases h with h | rfl
    · exact ih h
    · exact ⟨n % 16, Nat.mod_lt n (by omega), rfl⟩

theorem mem_hexFixed {c : Char} (h : c ∈ hexFixed w n) : c ≠ '.' ∧ c ≠ '/' := by
  obtain ⟨d, hd, rfl⟩ := mem_hexFixed_digit h
  obtain ⟨hdot, hslash, -⟩ := hexDigit_plain d hd
  exact ⟨hdot, hslash⟩

theorem hexFixed_plain (hw : 2 < w) (n : Nat) : PlainComponent (hexFixed w n) := by
  have hlen := length_hexFixed w n
  refine ⟨fun h => ?_, fun h => ?_, fun h => ?_, fun h => (mem_hexFixed h).2 rfl⟩
  all_goals
    simp [h] at hlen
    omega

theorem hex012_plain (n : Nat) : PlainComponent (hex012 n) :=
  hexFixed_plain (lt_of_lt_of_le (by omega) (le_max_left _ _)) n

theorem bitstrChars_plain (h : pfx ≠ []) : PlainComponent (bitstrChars pfx) := by
  have hmem : ∀ c ∈ bitstrChars pfx, c ≠ '.' ∧ c ≠ '/' := by
    intro c hc
    obtain ⟨b, -, rfl⟩ := mem_map.mp hc
    cases b <;> decide
  have hdot : '.' ∉ bitstrChars pfx := fun hc => (hmem _ hc).1 rfl
  refine ⟨fun h' => h (map_eq_nil_iff.mp h'), fun h' => ?_, fun h' => ?_,
    fun hc => (hmem _ hc).2 rfl⟩
  · exact hdot (h' ▸ mem_cons_self)
  · exact hdot (h' ▸ mem_cons_self)

theorem parseBitstr_bitstrChars (pfx : Bitstr) : parseBitstr (bitstrChars pfx) = pfx := by
  rw [parseBitstr, bitstrChars, map_map, map_congr_left, map_id]
  intro b _
  cases b <;> rfl

theorem recordKey_path (i : Nat) (h : pfx ≠ []) :
    (recordKey i pfx).path = '/' :: (hex012 i ++ '/' :: bitstrChars pfx) := by
  have hplain : ∀ w ∈ [hex012 i, bitstrChars pfx], PlainComponent w := by
    intro w hw
    rcases mem_pair.mp hw with rfl | rfl
    · exact hex012_plain i
    · exact bitstrChars_plain h
  have hpath := DsKey.path_new_intercalate _ hplain
  simpa [recordKey, intercalate] using hpath

theorem splitOn_recordKey (i : Nat) (h : pfx ≠ []) :
    ((recordKey i pfx).path.drop 1).splitOn '/' = [hex012 i, bitstrChars pfx] := by
  have hslash : ∀ w ∈ [hex012 i, bitstrChars pfx], '/' ∉ w := by
    intro w hw
    rcases mem_pair.mp hw with rfl | rfl
    · exact (hex012_plain i).no_slash
    · exact (bitstrChars_plain h).no_slash
  have hsplit := splitOn_intercalate '/' hslash (cons_ne_nil _ _)
  rw [recordKey_path i h]
  simpa [intercalate] using hsplit

/-! ## The order of record keys -/

theorem pathLe_cons (c : Char) (a b : List Char) : pathLe (c :: a) (c :: b) = pathLe a b := by
  simp [pathLe]

theorem pathLe_append_left (c a b : List Char) : pathLe (c ++ a) (c ++ b) = pathLe a b := by
  induction c with
  | nil => rfl
  | cons x c ih => rw [cons_append, cons_append, pathLe_cons, ih]

theorem pathLe_hexFixed {a b : Nat} (hab : a < b) (hb : b < 16 ^ w) (x y : List Char) :
    pathLe (hexFixed w a ++ x) (hexFixed w b ++ y) = true := by
  induction w generalizing a b x y with
  | zero =>
    omega
  | succ w ih =>
    rw [hexFixed, hexFixed, append_assoc, append_assoc]
    by_cases hhigh : a / 16 = b / 16
    · -- the last digit decides
      have hdigit : a % 16 < b % 16 := by omega
      have hlt := (hexDigit_plain (b % 16) (Nat.mod_lt b (by omega))).2.2 _ hdigit
      have hne : hexDigit (a % 16) ≠ hexDigit (b % 16) := fun h => by
        rw [h] at hlt
        omega
      rw [hhigh, pathLe_append_left]
      simp [pathLe, hne, hlt]
    · refine ih (by omega) ?_ _ _
      omega

/-- A number below `16 ^ w` is padded to `w` digits. -/
theorem hexWidth_eq (hw : 0 < w) (h : n < 16 ^ w) : max w (n.log2 / 4 + 1) = w := by
  apply max_eq_left
  by_cases hn : n = 0
  · rw [hn, Nat.log2_zero]
    omega
  · have hpow : (16 : Nat) ^ w = 2 ^ (4 * w) := by rw [Nat.pow_mul]
    have hlt : n.log2 < 4 * w := (Nat.log2_lt hn).mpr (hpow ▸ h)
    omega

theorem hex012_of_lt (h : n < 16 ^ 12) : hex012 n = hexFixed 12 n := by
  rw [hex012, hexWidth_eq (by omega) h]

/-- As long as the positions have twelve digits, the keys of non-empty prefixes are in queue
order. -/
theorem pathLe_recordKey {i j : Nat} {p p' : Bitstr} (hij : i < j) (hj : j < 16 ^ 12)
    (hp : p ≠ []) (hp' : p' ≠ []) :
    pathLe (recordKey i p).path (recordKey j p').path = true := by
  rw [recordKey_path i hp, recordKey_path j hp', hex012_of_lt hj, hex012_of_lt (hij.trans hj)]
  exact pathLe_hexFixed hij hj _ _

theorem not_pathLe_recordKey {p p' : Bitstr} (hp : p ≠ []) (hp' : p' ≠ []) :
    ¬ pathLe (recordKey (2 * 16 ^ 11) p).path (recordKey (16 ^ 12) p').path = true := by
  have hlow : hex012 (2 * 16 ^ 11) = '2' :: replicate 11 '0' := by decide +kernel
  have hhigh : hex012 (16 ^ 12) = '1' :: replicate 12 '0' := by decide +kernel
  rw [recordKey_path _ hp, recordKey_path _ hp', hlow, hhigh]
  simp [pathLe]

/-! ## What `Persist` writes -/

def records (q : ProvideQueue) : List (DsKey × Bytes) :=
  q.queue.queue.zipIdx.map fun x => (recordKey x.2 x.1, q.recordValue x.1)

theorem map_fst_records (q : ProvideQueue) :
    q.records.map Prod.fst = q.queue.queue.zipIdx.map fun x => recordKey x.2 x.1 := by
  rw [records, map_map]
  exact map_congr_left fun x _ => rfl

section PersistSpec

variable {s s' : Session ProvideQueue} {batchSize : Nat} {b b' : Batch} {u : Unit}

/-- Committing a full batch does not change what the store will be once the batch is through,
and leaves nothing pending. -/
theorem commitBatchIfFull_ok {size : Nat}
    (h : commitBatchIfFull batchSize b size s = (s', .ok b')) :
    b'.applyTo s'.store = b.applyTo s.store ∧ (size % batchSize = 0 → b' = []) := by
  unfold commitBatchIfFull at h
  split at h
  · exact absurd h fail_ok
  · split at h
    · obtain ⟨s1, u, hcommit, hnew⟩ := bind_ok.mp h
      obtain ⟨-, hstore', rfl⟩ := newBatch_ok hnew
      refine ⟨?_, fun _ => rfl⟩
      rw [hstore', (commit_ok hcommit).2]
      rfl
    · next hsize =>
      obtain ⟨rfl, rfl⟩ := pure_ok.mp h
      exact ⟨rfl, fun hzero => absurd hzero hsize⟩

theorem finalCommit_ok {size : Nat} (hb : size % batchSize = 0 → b = [])
    (h : finalCommit batchSize b size s = (s', .ok u)) : s'.store = b.applyTo s.store := by
  unfold finalCommit at h
  split at h
  · exact absurd h fail_ok
  · split at h
    · exact (commit_ok h).2
    · next hsize =>
      obtain ⟨rfl, -⟩ := pure_ok.mp h
      rw [hb (not_not.mp hsize)]
      rfl

theorem deleteLoop_ok {ks : List DsKey} {i i' : Nat} (hb : i % batchSize = 0 → b = [])
    (h : deleteLoop batchSize ks b i s = (s', .ok (b', i'))) :
    b'.applyTo s'.store = Batch.applyTo (ks.map .delete) (b.applyTo s.store) ∧
      (i' % batchSize = 0 → b' = []) := by
  induction ks generalizing b i s with
  | nil =>
    obtain ⟨rfl, ⟨⟩⟩ := pure_ok.mp h
    exact ⟨rfl, hb⟩
  | cons k ks ih =>
    obtain ⟨s1, u, hcall, h⟩ := bind_ok.mp h
    obtain ⟨s2, b2, hfull, h⟩ := bind_ok.mp h
    obtain ⟨hstore2, hb2⟩ := commitBatchIfFull_ok hfull
    obtain ⟨hstore, hb'⟩ := ih hb2 h
    refine ⟨?_, hb'⟩
    rw [hstore, hstore2, (call_ok hcall).2, Batch.applyTo_append, DsKey.new_path]
    rfl

variable {q : ProvideQueue}

theorem writeLoop_ok {ps : List Bitstr} (hps : ∀ p ∈ ps, (findSubtrie q.keys p).2 = true)
    {i i' : Nat} (hb : i % batchSize = 0 → b = [])
    (h : q.writeLoop batchSize ps b i s = (s', .ok (b', i'))) :
    b'.applyTo s'.store = Batch.applyTo ((ps.zipIdx i).map fun x =>
        .put (recordKey x.2 x.1) (q.recordValue x.1)) (b.applyTo s.store) ∧
      (i' % batchSize = 0 → b' = []) := by
  induction ps generalizing b i s with
  | nil =>
    obtain ⟨rfl, ⟨⟩⟩ := pure_ok.mp h
    exact ⟨rfl, hb⟩
  | cons p ps ih =>
    obtain ⟨s1, b1, hwrite, hnext⟩ := bind_ok.mp h
    obtain ⟨s2, b2, hfull, hrest⟩ := bind_ok.mp hnext
    rw [writePrefix, if_pos (hps p mem_cons_self)] at hwrite
    obtain ⟨s0, u, hcall, hpure⟩ := bind_ok.mp hwrite
    obtain ⟨rfl, rfl⟩ := pure_ok.mp hpure
    obtain ⟨hstore2, hb2⟩ := commitBatchIfFull_ok hfull
    obtain ⟨hstore, hb'⟩ := ih (fun p' hp' => hps p' (mem_cons_of_mem p hp')) hb2 hrest
    refine ⟨?_, hb'⟩
    rw [hstore, hstore2, (call_ok hcall).2, Batch.applyTo_append]
    rfl

theorem Inv.queue_eq_of_nil_mem (h : q.Inv) (hnil : [] ∈ q.queue.queue) : q.queue.queue = [[]] := by
  have hall : ∀ p ∈ q.queue.queue, p = [] := fun p hp =>
    (h.queue.prefixFree [] hnil p hp nil_prefix).symm
  have hrep := eq_replicate_of_mem hall
  have hnodup := h.queue.nodup
  rw [hrep, nodup_replicate] at hnodup
  have hpos := length_pos_of_mem hnil
  rw [hrep, show q.queue.queue.length = 1 by omega]
  rfl

theorem eq_of_mem_zipIdx {l : List Bitstr} (hl : l.Nodup) {x y : Bitstr × Nat}
    (hx : x ∈ l.zipIdx) (hy : y ∈ l.zipIdx) (hxy : x.1 = y.1) : x = y := by
  rw [mem_zipIdx_iff_getElem?, getElem?_eq_some_iff] at hx hy
  obtain ⟨hxlt, hxat⟩ := hx
  obtain ⟨hylt, hyat⟩ := hy
  have hidx : x.2 = y.2 := hl.getElem_inj_iff.mp (hxat.trans (hxy.trans hyat.symm))
  exact Prod.ext hxy hidx

theorem nodup_recordKeys (h : q.Inv) : (q.records.map Prod.fst).Nodup := by
  rw [map_fst_records]
  by_cases hnil : [] ∈ q.queue.queue
  · simp [h.queue_eq_of_nil_mem hnil]
  · have hnodup : q.queue.queue.zipIdx.Nodup := by
      refine List.Nodup.of_map Prod.fst ?_
      rw [zipIdx_map_fst]
      exact h.queue.nodup
    refine hnodup.map_on fun x hx y hy hxy => ?_
    -- the prefix can be read off the key
    have hne : ∀ z ∈ q.queue.queue.zipIdx, z.1 ≠ [] := fun z hz hz' =>
      hnil (hz' ▸ fst_mem_of_mem_zipIdx hz)
    have hsplit := congrArg (fun k : DsKey => (k.path.drop 1).splitOn '/') hxy
    rw [splitOn_recordKey _ (hne x hx), splitOn_recordKey _ (hne y hy)] at hsplit
    have hbits : bitstrChars x.1 = bitstrChars y.1 := by simpa using (cons.inj hsplit).2
    have hpfx : x.1 = y.1 := by
      rw [← parseBitstr_bitstrChars x.1, hbits, parseBitstr_bitstrChars]
    exact eq_of_mem_zipIdx h.queue.nodup hx hy hpfx

/-- **`Persist`.** When it returns without an error, the store holds exactly the records. -/
theorem persist_spec (h : s.caller.Inv) (hok : persist batchSize s = (s', .ok u)) :
    s'.store.entries = s.caller.records := by
  obtain ⟨s1, q, hq, hok1⟩ := bind_ok.mp hok
  obtain ⟨s2, b2, hnew2, hok2⟩ := bind_ok.mp hok1
  obtain ⟨s3, u3, hquery, hok3⟩ := bind_ok.mp hok2
  obtain ⟨s4, d, hd, hok4⟩ := bind_ok.mp hok3
  obtain ⟨s5, ⟨b5, i5⟩, hdelete, hok5⟩ := bind_ok.mp hok4
  obtain ⟨s6, u6, hfinal, hok6⟩ := bind_ok.mp hok5
  obtain ⟨s7, b7, hnew7, hok7⟩ := bind_ok.mp hok6
  obtain ⟨s8, ⟨b8, i8⟩, hwrite, hok8⟩ := bind_ok.mp hok7
  obtain ⟨-, rfl⟩ := caller_ok hq
  obtain ⟨rfl, rfl⟩ := store_ok hd
  obtain ⟨-, -, rfl⟩ := newBatch_ok hnew2
  obtain ⟨hstore5, hb5⟩ := deleteLoop_ok (fun _ => rfl) hdelete
  have hstore6 := finalCommit_ok hb5 hfinal
  obtain ⟨-, hstore7, rfl⟩ := newBatch_ok hnew7
  have hfound : ∀ p ∈ s.caller.queue.queue, (findSubtrie s.caller.keys p).2 = true := by
    intro p hp
    rw [findSubtrie_keys_ok h.wf]
    exact h.nonempty p hp
  obtain ⟨hstore8, hb8⟩ := writeLoop_ok hfound (fun _ => rfl) hwrite
  have hstore := finalCommit_ok hb8 hok8
  -- the deletes empty the store, the writes then append the records
  have hempty : s7.store = empty := by
    rw [hstore7, hstore6, hstore5]
    exact Batch.applyTo_deleteAll _ _ fun k hk => hk
  rw [hstore, hstore8, hempty]
  have hput := Batch.applyTo_putAll s.caller.records empty
    (by simpa [Datastore.keys, Datastore.empty] using nodup_recordKeys h)
  rw [records, map_map] at hput
  exact hput

end PersistSpec

/-! ## What `DrainDatastore` rebuilds -/

/-- `f` has been rebuilt from the records of the prefixes `done` of `q`, in this order. -/
structure Rebuilt (q f : ProvideQueue) (done : List Bitstr) : Prop where
  inv : f.Inv
  queue : f.queue.queue = done
  mem_iff : ∀ e, e ∈ f.keys.entries ↔ e ∈ q.keys.entries ∧ Covers {p | p ∈ done} e.1.bits

theorem rebuilt_nil (q : ProvideQueue) : Rebuilt q new [] where
  inv := inv_new
  queue := rfl
  mem_iff := fun e => by simp [new, Covers]

variable {q : ProvideQueue}

theorem Inv.valuesIter_spec (h : q.Inv) (hp : pfx ∈ q.queue.queue) :
    valuesIter (findSubtrie q.keys pfx).1 zeroKey ≠ [] ∧
      ∀ e, e ∈ (valuesIter (findSubtrie q.keys pfx).1 zeroKey).map keyEntry ↔
        e ∈ q.keys.entries ∧ pfx <+: e.1.bits := by
  have hbelow := h.nonempty pfx hp
  have hok : (findSubtrie q.keys pfx).2 = true := (findSubtrie_keys_ok h.wf pfx).trans hbelow
  have hperm := valuesIter_perm (findSubtrie q.keys pfx).1 zeroKey
  rw [findSubtrie_entries h.wf pfx hok] at hperm
  have hiff : ∀ e, e ∈ (valuesIter (findSubtrie q.keys pfx).1 zeroKey).map keyEntry ↔
      e ∈ q.keys.entries ∧ pfx <+: e.1.bits := by
    intro e
    rw [(hperm.map keyEntry).mem_iff, map_map, mem_map]
    constructor
    · rintro ⟨e', he', rfl⟩
      rw [mem_filter, decide_eq_true_iff] at he'
      have hkey : keyEntry e'.2 = e' := Prod.ext (h.filed e' he'.1).symm rfl
      exact hkey.symm ▸ he'
    · rintro ⟨he, hpre⟩
      exact ⟨e, mem_filter.mpr ⟨he, decide_eq_true hpre⟩, Prod.ext (h.filed e he).symm rfl⟩
  refine ⟨fun hnil => ?_, hiff⟩
  obtain ⟨k, hk, hpre⟩ := (hasKeyBelow_iff _ _).mp hbelow
  obtain ⟨m, hm⟩ := Trie.mem_keys.mp hk
  have hmem := (hiff (k, m)).mpr ⟨hm, hpre⟩
  rw [hnil] at hmem
  cases hmem

/-- The keys of a prefix are read back below this prefix. No other prefix of the queue overlaps it,
so that it is appended. -/
theorem Rebuilt.enqueue [TrieLib] (h : q.Inv) {f : ProvideQueue} {done : List Bitstr}
    (hf : Rebuilt q f done) (hdone : ∀ p ∈ done, p ∈ q.queue.queue) (hp : pfx ∈ q.queue.queue)
    (hnew : pfx ∉ done) :
    ∃ f', f.enqueueNoLock pfx (valuesIter (findSubtrie q.keys pfx).1 zeroKey) = some f' ∧
      Rebuilt q f' (done ++ [pfx]) := by
  obtain ⟨hne, hvalues⟩ := h.valuesIter_spec hp
  set ms := valuesIter (findSubtrie q.keys pfx).1 zeroKey with hms
  have hmatch : ∀ m ∈ ms, pfx <+: (mhToBit256 m).bits := fun m hm =>
    ((hvalues (keyEntry m)).mp (mem_map_of_mem hm)).2
  obtain ⟨f', heq, hinv, hqueue, hkeys⟩ := enqueue_spec hf.inv hne hmatch
  have hdis : ∀ p ∈ done, ¬ Overlap p pfx := fun p hp' hov =>
    hnew (h.queue.prefixFree.eq_of_overlap (hdone p hp') hp hov ▸ hp')
  have hpush : pushPrefix f.queue.queue pfx = done ++ [pfx] := by
    rw [hf.queue]
    exact pushPrefix_of_fresh (fun p hp' hpre => hdis p hp' (.inr hpre))
      fun p hp' hpre => hdis p hp' (.inl hpre)
  have hacc := acceptsAll_bit256 f.keys (ms.map keyEntry)
  have hsplit : ∀ k : Bitstr, Covers {p | p ∈ done ++ [pfx]} k ↔
      Covers {p | p ∈ done} k ∨ pfx <+: k := by
    intro k
    simp [Covers, or_and_right, exists_or]
  refine ⟨f', ?_, hinv, hqueue.trans hpush, fun e => ?_⟩
  · rw [ProvideQueue.enqueue, if_neg (by simpa using hne)] at heq
    exact heq
  · rw [hkeys, hsplit]
    constructor
    · intro he
      rcases mem_of_mem_addMany hf.inv.wf hacc he with hold | hadded
      · exact ⟨((hf.mem_iff e).mp hold).1, .inl ((hf.mem_iff e).mp hold).2⟩
      · exact ⟨((hvalues e).mp hadded).1, .inr ((hvalues e).mp hadded).2⟩
    · rintro ⟨he, hcov | hpre⟩
      · exact mem_addMany_of_mem hf.inv.wf hacc ((hf.mem_iff e).mpr ⟨he, hcov⟩)
      · -- the identifier is there now, and in `q` it has only one multihash
        have hkey : e.1 ∈ (addMany f.keys (ms.map keyEntry)).keys := by
          rw [mem_keys_addMany e.1 hf.inv.wf hacc]
          exact .inr (mem_map_of_mem ((hvalues e).mpr ⟨he, hpre⟩))
        obtain ⟨m, hm⟩ := Trie.mem_keys.mp hkey
        have hmq : (e.1, m) ∈ q.keys.entries := by
          rcases mem_of_mem_addMany hf.inv.wf hacc hm with hold | hadded
          · exact ((hf.mem_iff _).mp hold).1
          · exact ((hvalues _).mp hadded).1
        have hsame : m = e.2 := h.wf.data_unique hmq he
        rwa [hsame] at hm

section DrainSpec

variable [MultihashLib]

theorem decodeLoop_flatten (ms : List Multihash) (hms : ∀ m ∈ ms, wellFormed m)
    (fuel offset : Nat) (hfuel : ms.flatten.length ≤ fuel) :
    decodeLoop fuel offset ms.flatten = .ok ms := by
  induction ms generalizing fuel offset with
  | nil => simp [decodeLoop]
  | cons m ms ih =>
    have hm := hms m mem_cons_self
    have hne := ne_nil hm
    have hparse := mhFromBytes_append ms.flatten hm
    rw [flatten_cons, length_append] at hfuel
    have hpos := length_pos_of_ne_nil hne
    obtain ⟨fuel, rfl⟩ : ∃ n, fuel = n + 1 := ⟨fuel - 1, by omega⟩
    have ih := ih (fun m' hm' => hms m' (mem_cons_of_mem m hm')) fuel (offset + m.length) (by omega)
    rw [flatten_cons]
    cases hdata : m ++ ms.flatten with
    | nil => exact absurd (append_eq_nil_iff.mp hdata).1 hne
    | cons c data =>
      rw [hdata] at hparse
      rw [decodeLoop, hparse, ← hdata]
      simp only [drop_left, ih]
      rfl

theorem decodeMultihashes_flatten (ms : List Multihash)
    (hms : ∀ m ∈ ms, wellFormed m) : decodeMultihashes ms.flatten = .ok ms :=
  decodeLoop_flatten ms hms _ 0 (le_refl _)

variable [TrieLib]

variable {s s' : Session ProvideQueue}

/-- Reading the records rebuilds the queue, prefix by prefix, and collects their deletion in the
batch. -/
theorem drainLoop_ok {b b' : Batch} (h : q.Inv)
    (hwf : ∀ e ∈ q.keys.entries, wellFormed e.2) (hnil : [] ∉ q.queue.queue)
    {done : List Bitstr} {rs : List (Bitstr × Nat)} (hdone : ∀ p ∈ done, p ∈ q.queue.queue)
    (hrs : ∀ x ∈ rs, x.1 ∈ q.queue.queue) (hnodup : (done ++ rs.map Prod.fst).Nodup)
    (hf : Rebuilt q s.caller done)
    (hok : drainLoop (rs.map fun x => (recordKey x.2 x.1, q.recordValue x.1)) b s = (s', .ok b')) :
    Rebuilt q s'.caller (done ++ rs.map Prod.fst) ∧ s'.store = s.store ∧
      b' = b ++ rs.map fun x => .delete (recordKey x.2 x.1) := by
  induction rs generalizing s b done with
  | nil =>
    obtain ⟨rfl, rfl⟩ := pure_ok.mp hok
    simpa using hf
  | cons x rs ih =>
    have hx := hrs x mem_cons_self
    have hne : x.1 ≠ [] := fun hx' => hnil (hx' ▸ hx)
    obtain ⟨s1, u, hcall, hok1⟩ := bind_ok.mp hok
    obtain ⟨hcaller1, hstore1⟩ := call_ok hcall
    obtain ⟨hms, hvalues⟩ := h.valuesIter_spec hx
    have hdecode : decodeMultihashes (q.recordValue x.1)
        = .ok (valuesIter (findSubtrie q.keys x.1).1 zeroKey) := by
      refine decodeMultihashes_flatten _ fun m hm => ?_
      exact hwf _ ((hvalues (keyEntry m)).mp (mem_map_of_mem hm)).1
    have hnew : x.1 ∉ done := fun hmem =>
      (nodup_append.mp hnodup).2.2 x.1 hmem x.1 mem_cons_self rfl
    obtain ⟨f', heq, hf'⟩ := hf.enqueue h hdone hx hnew
    obtain ⟨m, ms, hcons⟩ := exists_cons_of_ne_nil hms
    simp only [splitOn_recordKey _ hne, hdecode] at hok1
    obtain ⟨s2, f, hcaller2, hok2⟩ := bind_ok.mp hok1
    obtain ⟨rfl, rfl⟩ := caller_ok hcaller2
    rw [hcaller1, parseBitstr_bitstrChars, heq] at hok2
    obtain ⟨s3, u3, hset, hok3⟩ := bind_ok.mp hok2
    obtain ⟨hcaller3, hstore3⟩ := setCaller_ok hset
    rw [← hcaller3] at hf'
    have hdone' : ∀ p ∈ done ++ [x.1], p ∈ q.queue.queue :=
      forall_mem_append.mpr ⟨hdone, by simpa using hx⟩
    obtain ⟨hf'', hstore, hb⟩ := ih hdone' (fun y hy => hrs y (mem_cons_of_mem x hy))
      (by simpa using hnodup) hf' hok3
    refine ⟨by simpa using hf'', hstore.trans (hstore3.trans hstore1), ?_⟩
    rw [hb, DsKey.new_path]
    simp

/-- The positions of the queue in the order in which their records are read back. -/
def readOrder (q : ProvideQueue) : List (Bitstr × Nat) :=
  q.queue.queue.zipIdx.insertionSort fun x y =>
    pathLe (recordKey x.2 x.1).path (recordKey y.2 y.1).path = true

omit [MultihashLib] [TrieLib] in
theorem sorted_records {d : Datastore} (h : d.entries = q.records) :
    d.sorted = q.readOrder.map fun x => (recordKey x.2 x.1, q.recordValue x.1) := by
  rw [sorted, h, records, readOrder, eq_comm]
  apply map_insertionSort
  exact fun x _ y _ => Iff.rfl

omit [MultihashLib] [TrieLib] in
theorem readOrder_perm (q : ProvideQueue) : q.readOrder.Perm q.queue.queue.zipIdx := by
  exact perm_insertionSort _ _

omit [MultihashLib] [TrieLib] in
theorem map_fst_readOrder_perm (q : ProvideQueue) :
    (q.readOrder.map Prod.fst).Perm q.queue.queue := by
  have hmap := q.readOrder_perm.map Prod.fst
  rwa [zipIdx_map_fst] at hmap

/-- `DrainDatastore` without an error: the loop goes over what is stored, and its batch is
committed. -/
theorem drainDatastore_ok (hok : drainDatastore s = (s', .ok u)) :
    ∃ s1 s2 b, s1.caller = s.caller ∧ s1.store = s.store ∧
      drainLoop s.store.sorted [] s1 = (s2, .ok b) ∧
      s'.caller = s2.caller ∧ s'.store = b.applyTo s2.store := by
  obtain ⟨s1, u1, hcall, hok1⟩ := bind_ok.mp hok
  obtain ⟨s2, d, hd, hok2⟩ := bind_ok.mp hok1
  obtain ⟨s3, b3, hnew, hok3⟩ := bind_ok.mp hok2
  obtain ⟨s4, b4, hloop, hok4⟩ := bind_ok.mp hok3
  obtain ⟨s5, u5, hclose, hcommit⟩ := bind_ok.mp hok4
  obtain ⟨hcaller1, hstore1⟩ := call_ok hcall
  obtain ⟨rfl, rfl⟩ := store_ok hd
  obtain ⟨hcaller3, hstore3, rfl⟩ := newBatch_ok hnew
  obtain ⟨hcaller5, hstore5⟩ := call_ok hclose
  obtain ⟨hcaller', hstore'⟩ := commit_ok hcommit
  rw [hstore1] at hloop hstore3
  exact ⟨s3, s4, b4, hcaller3.trans hcaller1, hstore3, hloop, hcaller'.trans hcaller5,
    hstore5 ▸ hstore'⟩

/-- **`DrainDatastore`, non-empty prefixes.** A new queue is rebuilt in the order in which the
records are read, and nothing stays in the store. -/
theorem drainDatastore_spec (h : q.Inv)
    (hwf : ∀ e ∈ q.keys.entries, wellFormed e.2) (hnil : [] ∉ q.queue.queue)
    (hcaller : s.caller = new) (hstore : s.store.entries = q.records)
    (hok : drainDatastore s = (s', .ok u)) :
    Rebuilt q s'.caller (q.readOrder.map Prod.fst) ∧ s'.store = empty := by
  obtain ⟨s1, s2, b, hcaller1, hstore1, hloop, hcaller', hstore'⟩ := drainDatastore_ok hok
  rw [sorted_records hstore] at hloop
  have hprefixes := q.map_fst_readOrder_perm
  have hstart : Rebuilt q s1.caller [] := by
    rw [hcaller1, hcaller]
    exact rebuilt_nil q
  obtain ⟨hrebuilt, hstore2, hb⟩ := drainLoop_ok h hwf hnil (fun p hp => absurd hp not_mem_nil)
    (fun x hx => hprefixes.mem_iff.mp (mem_map_of_mem hx))
    (by simpa using hprefixes.nodup_iff.mpr h.queue.nodup) hstart hloop
  refine ⟨by rw [hcaller']; simpa using hrebuilt, ?_⟩
  -- the batch deletes the key of every record
  have hkeys : ∀ k ∈ s.store.keys, k ∈ q.readOrder.map fun x => recordKey x.2 x.1 := by
    intro k hk
    rw [Datastore.keys, hstore, map_fst_records] at hk
    have hperm := q.readOrder_perm.map fun x : Bitstr × Nat => recordKey x.2 x.1
    exact hperm.mem_iff.mpr hk
  have hdelete := Batch.applyTo_deleteAll _ s.store hkeys
  rw [map_map] at hdelete
  rw [hstore', hstore2, hstore1, hb]
  exact hdelete

/-- **`DrainDatastore`, the empty prefix.** Its record is skipped: nothing is enqueued and the
record stays. -/
theorem drainDatastore_nil (hqueue : q.queue.queue = [[]])
    (hstore : s.store.entries = q.records) (hok : drainDatastore s = (s', .ok u)) :
    s'.store = s.store := by
  obtain ⟨s1, s2, b, -, hstore1, hloop, -, hstore'⟩ := drainDatastore_ok hok
  have hsorted : s.store.sorted = [(recordKey 0 [], q.recordValue [])] := by
    rw [sorted_records hstore, readOrder, hqueue]
    rfl
  rw [hsorted] at hloop
  obtain ⟨s3, u3, hcall, hskip⟩ := bind_ok.mp hloop
  obtain ⟨-, hstore3⟩ := call_ok hcall
  obtain ⟨rfl, rfl⟩ := pure_ok.mp hskip
  rw [hstore', hstore3, hstore1]
  rfl

omit [MultihashLib] [TrieLib] in
/-- Records of non-empty prefixes are read back in queue order exactly when every position has
twelve digits. -/
theorem readOrder_eq_iff (hnil : [] ∉ q.queue.queue) :
    q.readOrder = q.queue.queue.zipIdx ↔ q.queue.queue.length ≤ 16 ^ 12 := by
  have hne : ∀ i (hi : i < q.queue.queue.length), q.queue.queue[i] ≠ [] := fun i hi hi' =>
    hnil (hi' ▸ getElem_mem hi)
  have : Std.Total fun x y : Bitstr × Nat =>
      pathLe (recordKey x.2 x.1).path (recordKey y.2 y.1).path = true :=
    ⟨fun _ _ => pathLe_total _ _⟩
  have : IsTrans (Bitstr × Nat) fun x y =>
      pathLe (recordKey x.2 x.1).path (recordKey y.2 y.1).path = true :=
    ⟨fun _ _ _ => pathLe_trans⟩
  have hsorted : q.readOrder.Pairwise fun x y =>
      pathLe (recordKey x.2 x.1).path (recordKey y.2 y.1).path = true :=
    pairwise_insertionSort _ _
  constructor
  · intro heq
    by_contra hlong
    rw [heq, pairwise_iff_getElem] at hsorted
    have hpair := hsorted (2 * 16 ^ 11) (16 ^ 12) (by rw [length_zipIdx]; omega)
      (by rw [length_zipIdx]; omega) (by decide)
    simp only [getElem_zipIdx, Nat.zero_add] at hpair
    exact not_pathLe_recordKey (hne _ _) (hne _ _) hpair
  · intro hlen
    refine List.Pairwise.insertionSort_eq ?_
    rw [pairwise_iff_getElem]
    intro i j hi hj hij
    rw [length_zipIdx] at hi hj
    simp only [getElem_zipIdx, Nat.zero_add]
    exact pathLe_recordKey hij (by omega) (hne _ _) (hne _ _)

omit [MultihashLib] [TrieLib] in
theorem readOrder_eq_of_map_fst (h : q.Inv)
    (hmap : q.readOrder.map Prod.fst = q.queue.queue) :
    q.readOrder = q.queue.queue.zipIdx := by
  have hmap' : q.readOrder.map Prod.fst = q.queue.queue.zipIdx.map Prod.fst := by
    rw [hmap, zipIdx_map_fst]
  have hlen : q.readOrder.length = q.queue.queue.zipIdx.length := q.readOrder_perm.length_eq
  refine ext_getElem hlen fun i hi hi' => ?_
  refine eq_of_mem_zipIdx h.queue.nodup (q.readOrder_perm.mem_iff.mp (getElem_mem hi))
    (getElem_mem hi') ?_
  have hat := congrArg (·[i]?) hmap'
  simp only [getElem?_map, getElem?_eq_getElem hi, getElem?_eq_getElem hi',
    Option.map_some, Option.some.injEq] at hat
  exact hat

/-- **Persisting and draining.** When `Persist` and then `DrainDatastore` on a new queue return
without an error, the new queue has the same prefixes in the same order with the same keys, and
the datastore is empty, exactly when the empty prefix was not queued and no position needs more
than the twelve digits of the record key. -/
theorem persist_drain_roundTrip (ops : List Op) (hops : ∀ op ∈ ops, op.Valid) (q : ProvideQueue)
    (hrun : new.run ops = some q) (hwf : ∀ e ∈ q.keys.entries, MultihashLib.wellFormed e.2)
    (d : Datastore) (batchSize : Nat) (faults faults' : Nat → Option String)
    (s s' : Session ProvideQueue)
    (hpersist : persist batchSize ⟨q, d, faults, 0⟩ = (s, .ok ()))
    (hdrain : drainDatastore ⟨new, s.store, faults', 0⟩ = (s', .ok ())) :
    (s'.caller.queue.queue = q.queue.queue ∧
        (∀ e, e ∈ s'.caller.keys.entries ↔ e ∈ q.keys.entries) ∧
        s'.store = Datastore.empty) ↔
      ([] ∉ q.queue.queue ∧ q.queue.queue.length ≤ 16 ^ 12) := by
  obtain ⟨q0, hrun0, h⟩ := run_inv inv_new ops hops
  cases hrun.symm.trans hrun0
  have hrecords : s.store.entries = q.records := persist_spec h hpersist
  by_cases hnil : [] ∈ q.queue.queue
  · -- the record of the empty prefix stays in the store
    have hqueue := h.queue_eq_of_nil_mem hnil
    have hstay := drainDatastore_nil (s := ⟨new, s.store, faults', 0⟩) hqueue hrecords hdrain
    refine ⟨fun hprop => ?_, fun hcond => absurd hnil hcond.1⟩
    have hempty : q.records = [] := by
      rw [← hrecords, show s.store = empty from hstay.symm.trans hprop.2.2]
      rfl
    rw [records, hqueue] at hempty
    simp at hempty
  · obtain ⟨hrebuilt, hempty⟩ := drainDatastore_spec (s := ⟨new, s.store, faults', 0⟩)
      h hwf hnil rfl hrecords hdrain
    have hkeys : ∀ e, e ∈ s'.caller.keys.entries ↔ e ∈ q.keys.entries := by
      intro e
      rw [hrebuilt.mem_iff, and_iff_left_iff_imp]
      intro he
      obtain ⟨p, hp, hpre⟩ := h.covered e.1 (Trie.mem_keys.mpr ⟨e.2, he⟩)
      exact ⟨p, q.map_fst_readOrder_perm.mem_iff.mpr hp, hpre⟩
    have hiff := readOrder_eq_iff hnil
    constructor
    · intro hprop
      have hmap : q.readOrder.map Prod.fst = q.queue.queue := hrebuilt.queue.symm.trans hprop.1
      exact ⟨hnil, hiff.mp (readOrder_eq_of_map_fst h hmap)⟩
    · intro hcond
      refine ⟨?_, hkeys, hempty⟩
      rw [hrebuilt.queue, hiff.mpr hcond.2, zipIdx_map_fst]

end DrainSpec

def healthySession (q : ProvideQueue) (d : Datastore) : Session ProvideQueue :=
  ⟨q, d, fun _ => none, 0⟩

/-- The queue of the first three sample calls makes the round trip. -/
theorem sampleCalls_roundTrip :
    ∃ q s s', @run binaryTrie new (sampleCalls.take 3) = some q ∧
      persist 1 (healthySession q Datastore.empty) = (s, .ok ()) ∧
      @drainDatastore multihashFormat binaryTrie (healthySession new s.store) = (s', .ok ()) ∧
      s'.caller.queue.queue = q.queue.queue ∧
      (∀ e, e ∈ s'.caller.keys.entries ↔ e ∈ q.keys.entries) ∧ s'.store = Datastore.empty := by
  have hvalid : ∀ op ∈ sampleCalls.take 3, op.Valid := fun op hop =>
    sampleCalls_valid op (mem_of_mem_take hop)
  set q := (@run binaryTrie new (sampleCalls.take 3)).getD new with hq
  set s := (persist 1 (healthySession q empty)).1 with hs
  set s' := (@drainDatastore multihashFormat binaryTrie (healthySession new s.store)).1 with hs'
  have hrun : @run binaryTrie new (sampleCalls.take 3) = some q := by decide +kernel
  have hpersist : persist 1 (healthySession q empty) = (s, .ok ()) := eq_of_snd (by decide +kernel)
  have hdrain : @drainDatastore multihashFormat binaryTrie (healthySession new s.store)
      = (s', .ok ()) := eq_of_snd (by decide +kernel)
  have hwf : ∀ e ∈ q.keys.entries, multihashFormat.wellFormed e.2 := by
    have hall : ∀ e ∈ q.keys.entries,
        MultihashFormat.mhFromBytes e.2 = .ok (e.2.length, e.2) := by decide +kernel
    exact hall
  refine ⟨q, s, s', hrun, hpersist, hdrain, ?_⟩
  exact (@persist_drain_roundTrip multihashFormat binaryTrie _ hvalid q hrun hwf empty 1
    (fun _ => none) (fun _ => none) s s' hpersist hdrain).mpr (by decide +kernel)

/-- A key enqueued under the empty prefix does not come back: both calls succeed, the new queue
is empty and the record is still in the datastore. -/
theorem persist_drain_emptyPrefix :
    ∃ q s s', @run binaryTrie new [.enqueue [] [[0, 1, 2]]] = some q ∧
      (∀ e ∈ q.keys.entries, multihashFormat.wellFormed e.2) ∧
      persist 1 (healthySession q Datastore.empty) = (s, .ok ()) ∧
      @drainDatastore multihashFormat binaryTrie (healthySession new s.store) = (s', .ok ()) ∧
      q.keys.keys = [mhToBit256 [0, 1, 2]] ∧
      s'.caller = new ∧ s'.store.entries = [(DsKey.new "000000000000".toList, [0, 1, 2])] ∧
      ¬ (s'.caller.queue.queue = q.queue.queue ∧
        (∀ e, e ∈ s'.caller.keys.entries ↔ e ∈ q.keys.entries) ∧
        s'.store = Datastore.empty) := by
  set q := (@run binaryTrie new [.enqueue [] [[0, 1, 2]]]).getD new with hq
  set s := (persist 1 (healthySession q empty)).1 with hs
  set s' := (@drainDatastore multihashFormat binaryTrie (healthySession new s.store)).1 with hs'
  have hwf : ∀ e ∈ q.keys.entries,
      MultihashFormat.mhFromBytes e.2 = .ok (e.2.length, e.2) := by decide +kernel
  have hstore : s'.store.entries = [(DsKey.new "000000000000".toList, [0, 1, 2])] := by
    decide +kernel
  refine ⟨q, s, s', by decide +kernel, hwf, eq_of_snd (by decide +kernel),
    eq_of_snd (by decide +kernel), by decide +kernel, by decide +kernel, hstore, ?_⟩
  intro hprop
  rw [hprop.2.2] at hstore
  exact cons_ne_nil _ _ hstore.symm

end ProvideQueue

end KadDht
