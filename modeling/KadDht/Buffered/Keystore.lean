import KadDht.Buffered.Worker

/-!
# Buffered — the keystore of the wrapped provider

The keystore files a multihash under its kademlia identifier, which is a hash of it. As long as
different multihashes have different identifiers, it is a set of multihashes, and follows the calls
like one. What the grouped calls of the worker leave in it is then what the queued operations leave
one by one.

* **`worker_eq_sequential`** — buffered execution equals sequential execution.
-/

namespace KadDht

open List DsM Batch Keystore

namespace DsM

variable {σ : Type} {c : σ} {d : Datastore}

theorem returns_commitWith_none (what : String) (b : Batch) :
    Returns (commitWith .none what b : DsM σ Unit) c d () c (b.applyTo d) :=
  fun _ hs hc hd => ⟨_, rfl, hs, hc, congrArg b.applyTo hd⟩

end DsM

namespace Buffered

open Keystore (KeystoreM Config State Fresh putOp deleteOp dsKey)

variable {cfg : Config} {c : State} {d d' d0 : Datastore} {hs keys : List Multihash}
  {K : Set Multihash}

/-! ## What the requests write -/

variable {out : List Multihash}

theorem serveWith_returns {m : KeystoreM (List Multihash)} {c' : State}
    (h : DsM.Returns m c d out c' d') : DsM.Returns (serveWith m) c d (.ok out) c' d' := by
  have hok : DsM.Returns (m >>= fun newKeys => pure (Except.ok newKeys) :
      KeystoreM (Except String (List Multihash))) c d (.ok out) c' d' := h.bind returns_pure
  exact hok.handle _

variable (cfg c d) in
theorem put_returns (keys : List Multihash) :
    ∃ out c', DsM.Returns (Keystore.Request.serve cfg .none (.put keys)) c d (.ok out) c'
        (applyTo (out.map (putOp cfg)) d) ∧
      Fresh keys [] (fun k => dsKey k cfg.prefixBits ∉ d.keys) out := by
  obtain ⟨out, hloop, hout⟩ := putLoop_returns cfg c d keys [] [] []
  have hput : DsM.Returns (put cfg .none keys) c d out ⟨c.size + Int64.ofNat out.length⟩
      (applyTo (out.map (putOp cfg)) d) :=
    returns_batch.bind (hloop.bind ((returns_commitWith_none _ _).bind
      (returns_caller.bind (returns_setCaller.bind (returns_sync.bind returns_pure)))))
  exact ⟨out, _, serveWith_returns hput, hout⟩

variable (cfg c d) in
theorem delete_returns (keys : List Multihash) :
    ∃ out c', DsM.Returns (Keystore.Request.serve cfg .none (.delete keys)) c d (.ok []) c'
        (applyTo (out.map (deleteOp cfg)) d) ∧
      Fresh keys [] (fun k => dsKey k cfg.prefixBits ∈ d.keys) out := by
  obtain ⟨out, hloop, hout⟩ := deleteLoop_returns cfg c d keys [] [] 0
  rw [Nat.zero_add] at hloop
  have hdelete : DsM.Returns (delete cfg .none keys) c d ()
      ⟨c.size - Int64.ofNat out.length⟩ (applyTo (out.map (deleteOp cfg)) d) :=
    returns_batch.bind (hloop.bind ((returns_commitWith_none _ _).bind
      (returns_caller.bind (returns_setCaller.bind returns_sync))))
  exact ⟨out, _, serveWith_returns (hdelete.bind returns_pure), hout⟩

/-! ## The keystore as a set -/

def location (cfg : Config) (h : Multihash) : DsKey := dsKey (mhToBit256 h) cfg.prefixBits

/-- Different multihashes among the given ones and those that are stored have different
identifiers. -/
structure NoCollision (cfg : Config) (d : Datastore) (hs : List Multihash) : Prop where
  eq_of_mem : ∀ h ∈ hs, ∀ h' ∈ hs, mhToBit256 h = mhToBit256 h' → h = h'
  eq_of_stored : ∀ h ∈ hs, ∀ h', d.find (location cfg h) = some h' → h' = h

/-- Of the given multihashes the keystore has those of a set. All else is as it was at first. -/
structure Represents (cfg : Config) (hs : List Multihash) (d0 d : Datastore) (K : Set Multihash) :
    Prop where
  stored : ∀ h ∈ hs, h ∈ K → d.find (location cfg h) = some h
  missing : ∀ h ∈ hs, h ∉ K → d.find (location cfg h) = none
  others : ∀ k, (∀ h ∈ hs, k ≠ location cfg h) → d.find k = d0.find k

theorem NoCollision.represents (h : NoCollision cfg d hs) :
    Represents cfg hs d d {m | d.find (location cfg m) = some m} where
  stored m hm hfind := hfind
  missing m hm hno := by
    cases hfind : d.find (location cfg m) with
    | none => rfl
    | some m' =>
      obtain rfl := h.eq_of_stored m hm m' hfind
      exact absurd hfind hno
  others k hk := rfl

theorem Represents.find_eq (h : Represents cfg hs d0 d K) (h' : Represents cfg hs d0 d' K)
    (k : DsKey) : d.find k = d'.find k := by
  by_cases hk : ∃ m ∈ hs, k = location cfg m
  · obtain ⟨m, hm, rfl⟩ := hk
    by_cases hmem : m ∈ K
    · rw [h.stored m hm hmem, h'.stored m hm hmem]
    · rw [h.missing m hm hmem, h'.missing m hm hmem]
  · have hother : ∀ m ∈ hs, k ≠ location cfg m := fun m hm heq => hk ⟨m, hm, heq⟩
    rw [h.others k hother, h'.others k hother]

section Writes

variable {op : Multihash → BatchOp} {out : List Multihash} {wanted : Bit256 → Prop} {m : Multihash}

section

variable (hno : NoCollision cfg d0 hs)
include hno

theorem eq_of_location {m' : Multihash} (hm : m ∈ hs) (hm' : m' ∈ hs)
    (h : location cfg m = location cfg m') : m = m' :=
  hno.eq_of_mem m hm m' hm' (dsKey_injective cfg.bits_aligned h)

/-- Without collisions the keys that a request picks are known by their multihashes. -/
theorem mem_out_iff (hkeys : ∀ m ∈ keys, m ∈ hs) (hout : Fresh keys [] wanted out) (hm : m ∈ hs) :
    m ∈ out ↔ m ∈ keys ∧ wanted (mhToBit256 m) := by
  have hiff := hout.mem_iff (mhToBit256 m)
  constructor
  · intro hmem
    exact ⟨hout.sublist.subset hmem, (hiff.mp (mem_map_of_mem hmem)).2.2⟩
  · rintro ⟨hmem, hwanted⟩
    obtain ⟨m', hm', hid⟩ := mem_map.mp (hiff.mpr ⟨mem_map_of_mem hmem, not_mem_nil, hwanted⟩)
    obtain rfl := hno.eq_of_mem m' (hkeys m' (hout.sublist.subset hm')) m hm hid
    exact hm'

theorem find_written (hop : ∀ m, (op m).key = location cfg m) (hout : ∀ m ∈ out, m ∈ hs)
    (hm : m ∈ out) : (applyTo (out.map op) d).find (location cfg m) = (op m).value := by
  rw [← hop m]
  refine find_applyTo d (mem_map_of_mem hm) fun op' hop' heq => ?_
  obtain ⟨m', hm', rfl⟩ := mem_map.mp hop'
  rw [hop, hop] at heq
  rw [eq_of_location hno (hout m' hm') (hout m hm) heq]

theorem find_unwritten (hop : ∀ m, (op m).key = location cfg m) (hout : ∀ m ∈ out, m ∈ hs)
    (hhs : m ∈ hs) (hm : m ∉ out) :
    (applyTo (out.map op) d).find (location cfg m) = d.find (location cfg m) := by
  refine find_applyTo_of_ne d fun op' hop' heq => ?_
  obtain ⟨m', hm', rfl⟩ := mem_map.mp hop'
  rw [hop] at heq
  exact hm (eq_of_location hno hhs (hout m' hm') heq ▸ hm')

end

theorem find_other {k : DsKey} (hop : ∀ m, (op m).key = location cfg m) (hout : ∀ m ∈ out, m ∈ hs)
    (hk : ∀ m ∈ hs, k ≠ location cfg m) :
    (applyTo (out.map op) d).find k = d.find k := by
  refine find_applyTo_of_ne d fun op' hop' heq => ?_
  obtain ⟨m', hm', rfl⟩ := mem_map.mp hop'
  exact hk m' (hout m' hm') (heq.trans (hop m'))

end Writes

theorem Represents.put (h : Represents cfg hs d0 d K) (hno : NoCollision cfg d0 hs)
    (hkeys : ∀ m ∈ keys, m ∈ hs)
    (hout : Fresh keys [] (fun k => dsKey k cfg.prefixBits ∉ d.keys) out) :
    Represents cfg hs d0 (applyTo (out.map (putOp cfg)) d) (K ∪ {m | m ∈ keys}) := by
  have hsub : ∀ m ∈ out, m ∈ hs := fun m hm => hkeys m (hout.sublist.subset hm)
  constructor
  · intro m hm hmem
    by_cases hwritten : m ∈ out
    · exact find_written hno (fun _ => rfl) hsub hwritten
    · rw [find_unwritten hno (fun _ => rfl) hsub hm hwritten]
      -- it was stored before, or it would be written
      by_cases hold : m ∈ K
      · exact h.stored m hm hold
      · refine absurd ?_ hwritten
        refine (mem_out_iff hno hkeys hout hm).mpr ⟨hmem.resolve_left hold, ?_⟩
        exact Datastore.find_eq_none_iff.mp (h.missing m hm hold)
  · intro m hm hmem
    have hunwritten : m ∉ out := fun hwritten => hmem (.inr (hout.sublist.subset hwritten))
    rw [find_unwritten hno (fun _ => rfl) hsub hm hunwritten]
    exact h.missing m hm fun hold => hmem (.inl hold)
  · intro k hk
    rw [find_other (fun _ => rfl) hsub hk]
    exact h.others k hk

theorem Represents.delete (h : Represents cfg hs d0 d K) (hno : NoCollision cfg d0 hs)
    (hkeys : ∀ m ∈ keys, m ∈ hs)
    (hout : Fresh keys [] (fun k => dsKey k cfg.prefixBits ∈ d.keys) out) :
    Represents cfg hs d0 (applyTo (out.map (deleteOp cfg)) d) (K \ {m | m ∈ keys}) := by
  have hsub : ∀ m ∈ out, m ∈ hs := fun m hm => hkeys m (hout.sublist.subset hm)
  constructor
  · intro m hm hmem
    have hunwritten : m ∉ out := fun hwritten => hmem.2 (hout.sublist.subset hwritten)
    rw [find_unwritten hno (fun _ => rfl) hsub hm hunwritten]
    exact h.stored m hm hmem.1
  · intro m hm hmem
    by_cases hwritten : m ∈ out
    · exact find_written hno (fun _ => rfl) hsub hwritten
    · rw [find_unwritten hno (fun _ => rfl) hsub hm hwritten]
      by_cases hold : m ∈ K
      · have hmkeys : m ∈ keys := by_contra fun hnot => hmem ⟨hold, hnot⟩
        -- a stored key that is not deleted cannot be among the keys
        refine Datastore.find_eq_none_iff.mpr fun hstored => hwritten ?_
        exact (mem_out_iff hno hkeys hout hm).mpr ⟨hmkeys, hstored⟩
      · exact h.missing m hm hold
  · intro k hk
    rw [find_other (fun _ => rfl) hsub hk]
    exact h.others k hk

/-! ## Calls -/

def Call.arguments : Call → List Multihash
  | provideOnce keys => keys
  | startProviding _ keys => keys
  | stopProviding keys => keys

/-- **The keystore follows the set.** -/
theorem Represents.run {call : Call} (h : Represents cfg hs d0 d K) (hno : NoCollision cfg d0 hs)
    (hkeys : ∀ m ∈ call.arguments, m ∈ hs) :
    ∃ c' d', DsM.Returns (call.run cfg .none) c d () c' d' ∧
      Represents cfg hs d0 d' (call.keys K) := by
  cases call with
  | provideOnce keys =>
    refine ⟨c, d, DsM.Returns.bind (a := keys) ?_ returns_pure, h⟩
    rw [handleProvide]
    split
    · next hnil => exact hnil ▸ returns_pure
    · exact returns_pure
  | startProviding force keys =>
    by_cases hnil : keys = []
    · refine ⟨c, d, DsM.Returns.bind (a := []) ?_ returns_pure, ?_⟩
      · rw [handleProvide, if_pos hnil]
        exact returns_pure
      · simpa [Call.keys, hnil] using h
    · obtain ⟨out, c', hput, hout⟩ := put_returns cfg c d keys
      have hhandle : DsM.Returns (handleProvide cfg .none force true keys) c d
          (if force then keys else out) c' (applyTo (out.map (putOp cfg)) d) := by
        rw [handleProvide, if_neg hnil]
        exact hput.bind returns_pure
      exact ⟨c', _, hhandle.bind returns_pure, h.put hno hkeys hout⟩
  | stopProviding keys =>
    by_cases hnil : keys = []
    · refine ⟨c, d, DsM.Returns.bind (a := .ok ()) ?_ returns_pure, ?_⟩
      · rw [stopProviding, if_pos hnil]
        exact returns_pure
      · simpa [Call.keys, hnil] using h
    · obtain ⟨out, c', hdelete, hout⟩ := delete_returns cfg c d keys
      have hstop : DsM.Returns (stopProviding cfg .none keys) c d (.ok ()) c'
          (applyTo (out.map (deleteOp cfg)) d) := by
        rw [stopProviding, if_neg hnil]
        exact hdelete.bind returns_pure
      exact ⟨c', _, hstop.bind returns_pure, h.delete hno hkeys hout⟩

theorem Represents.runAll {calls : List Call} (h : Represents cfg hs d0 d K)
    (hno : NoCollision cfg d0 hs) (hkeys : ∀ call ∈ calls, ∀ m ∈ call.arguments, m ∈ hs) :
    ∃ c' d', DsM.Returns (runAll cfg .none calls) c d () c' d' ∧
      Represents cfg hs d0 d' (keysAfter calls K) := by
  induction calls generalizing c d K with
  | nil => exact ⟨c, d, returns_pure, h⟩
  | cons call calls ih =>
    obtain ⟨c1, d1, hcall, h1⟩ := h.run (c := c) hno (hkeys call mem_cons_self)
    obtain ⟨c2, d2, hrest, h2⟩ :=
      ih (c := c1) h1 fun call' hcall' => hkeys call' (mem_cons_of_mem call hcall')
    exact ⟨c2, d2, hcall.bind hrest, h2⟩

/-! ## The worker -/

section Worker

variable {queued : List Queued}

def Operations.all (ops : Operations) : List Multihash :=
  ops.forceStartProviding ++ ops.startProviding ++ ops.provideOnce ++ ops.stopProviding

variable {m : Multihash}

theorem mem_of_mem_add {ops : Operations} {op : Op} {key : Multihash}
    (h : m ∈ (ops.add op key).all) : m ∈ ops.all ∨ m = key := by
  cases op <;> simp [Operations.add, Operations.all] at h ⊢ <;> tauto

theorem mem_of_mem_collect (h : m ∈ (collect queued).all) : m ∈ queued.map Queued.key := by
  refine foldlRecOn queued _ (motive := fun ops : Operations =>
    m ∈ ops.all → m ∈ queued.map Queued.key) (fun h => absurd h not_mem_nil) ?_ h
  intro ops hops q hq h
  rcases mem_of_mem_add h with h | rfl
  · exact hops h
  · exact mem_map_of_mem hq

theorem mem_of_mem_executeOperation {f : List Multihash → Call} {keys : List Multihash}
    {call : Call} (h : call ∈ executeOperation f keys) : call = f keys := by
  rw [executeOperation] at h
  split at h
  · cases h
  · exact mem_singleton.mp h

theorem mem_of_mem_grouped {order : MapOrder Multihash} {call : Call}
    (hcall : call ∈ grouped order queued) (hm : m ∈ call.arguments) :
    m ∈ queued.map Queued.key := by
  refine mem_of_mem_collect ?_
  rw [grouped, Operations.calls, mem_append, mem_append, mem_append] at hcall
  rw [Operations.all, mem_append, mem_append, mem_append]
  obtain ((hcall | hcall) | hcall) | hcall := hcall
  · obtain rfl := mem_of_mem_executeOperation hcall
    exact .inl (.inl (.inl hm))
  · obtain rfl := mem_of_mem_executeOperation hcall
    exact .inl (.inl (.inr hm))
  · obtain rfl := mem_of_mem_executeOperation hcall
    exact .inl (.inr hm)
  · obtain rfl := mem_of_mem_executeOperation hcall
    exact .inr ((order.perm _).mem_iff.mp hm)

theorem Queued.arguments_call (q : Queued) : q.call.arguments = [q.key] := by
  obtain ⟨op, key⟩ := q
  cases op <;> rfl

/-- **Buffered execution equals sequential execution.** The calls that the worker makes for a batch
of well-formed operations leave the same set of keys as the operations one by one. They leave the
same keystore, where no two multihashes have the same identifier. -/
theorem worker_eq_sequential [MultihashLib] (order : MapOrder Multihash)
    (hwf : ∀ q ∈ queued, MultihashLib.wellFormed q.key) :
    ∃ calls, worker order (queued.map Queued.bytes) = .ok calls ∧
      (∀ K, keysAfter calls K = keysAfter (queued.map Queued.call) K) ∧
      ∀ cfg c d, NoCollision cfg d (queued.map Queued.key) →
        ∃ c1 d1 c2 d2, DsM.Returns (runAll cfg .none calls) c d () c1 d1 ∧
          DsM.Returns (runAll cfg .none (queued.map Queued.call)) c d () c2 d2 ∧
          ∀ k, d1.find k = d2.find k := by
  refine ⟨grouped order queued, worker_eq order hwf, keysAfter_grouped order queued, ?_⟩
  intro cfg c d hno
  have hcalls : ∀ call ∈ grouped order queued, ∀ m ∈ call.arguments, m ∈ queued.map Queued.key :=
    fun call hcall m hm => mem_of_mem_grouped hcall hm
  have hsingles : ∀ call ∈ queued.map Queued.call, ∀ m ∈ call.arguments,
      m ∈ queued.map Queued.key := by
    intro call hcall m hm
    obtain ⟨q, hq, rfl⟩ := mem_map.mp hcall
    rw [Queued.arguments_call, mem_singleton] at hm
    exact hm ▸ mem_map_of_mem hq
  obtain ⟨c1, d1, hgrouped, h1⟩ := hno.represents.runAll (c := c) hno hcalls
  obtain ⟨c2, d2, hsingle, h2⟩ := hno.represents.runAll (c := c) hno hsingles
  rw [keysAfter_grouped] at h1
  exact ⟨c1, d1, c2, d2, hgrouped, hsingle, h1.find_eq h2⟩

def restarted : List Queued :=
  [⟨.startProvidingOp, [0, 1, 2]⟩, ⟨.stopProvidingOp, [0, 1, 2]⟩, ⟨.provideOnceOp, [0, 1, 2]⟩,
    ⟨.forceStartProvidingOp, [0, 1, 2]⟩]

theorem worker_eq_sequential_restarted :
    ∃ calls,
      @worker multihashFormat ⟨id, fun _ => .refl _⟩ (restarted.map Queued.bytes) = .ok calls ∧
      (∀ K, keysAfter calls K = keysAfter (restarted.map Queued.call) K) ∧
      NoCollision Keystore.defaultConfig .empty (restarted.map Queued.key) ∧
      ∃ c1 d1 c2 d2, DsM.Returns (runAll Keystore.defaultConfig .none calls) ⟨0⟩ .empty () c1 d1 ∧
        DsM.Returns (runAll Keystore.defaultConfig .none (restarted.map Queued.call)) ⟨0⟩ .empty ()
          c2 d2 ∧
        ∀ k, d1.find k = d2.find k := by
  let _ := multihashFormat
  have hwf : ∀ q ∈ restarted, MultihashLib.wellFormed q.key := by
    have hkey : MultihashLib.wellFormed [0, 1, 2] := by
      show MultihashFormat.mhFromBytes [0, 1, 2] = .ok (3, [0, 1, 2])
      rfl
    simp [restarted, hkey]
  have hno : NoCollision defaultConfig .empty (restarted.map Queued.key) := by
    constructor
    · simp [restarted]
    · intro h _ h' hfind
      cases hfind
  obtain ⟨calls, hcalls, hkeys, hstore⟩ := worker_eq_sequential ⟨id, fun _ => .refl _⟩ hwf
  exact ⟨calls, hcalls, hkeys, hno, hstore _ _ _ hno⟩

end Worker

end Buffered

end KadDht
