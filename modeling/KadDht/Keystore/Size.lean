import KadDht.Keystore.Worker

/-!
# Keystore — the size counter

The counter of the worker is right after every request, whatever commits failed on the way, and
after every restart, whether the keystore was closed or the process crashed.

* **`size_right`** — the counter over whole runs, and what a put returns.
-/

namespace KadDht.Keystore

open DsM List Datastore EndsIn

/-- The counter is the number of stored keys; the ephemeral size is not among them. -/
def Right (c : State) (d : Datastore) : Prop :=
  c.size = Int64.ofNat d.keys.length ∧ sizeKey ∉ d.keys

/-! ## Requests -/

section Requests

variable {α : Type} {cfg : Config} {faults : CommitFaults} {c : State} {d : Datastore}

def Unsized (d : Datastore) : Prop := sizeKey ∉ d.keys

theorem serveWith_ends {m : KeystoreM (List Multihash)} {P : List Multihash → Prop}
    (h : Ends m c d (Settles Unsized fun newKeys c' d' => Right c' d' ∧ P newKeys)) :
    Ends (serveWith m) c d fun r c' d' => Right c' d' ∧
      ∃ response, r = .ok response ∧ ∀ newKeys, response = .ok newKeys → P newKeys := by
  refine handle (bind (h.mono fun r c' d' hr => ?_))
  match r with
  | .ok newKeys =>
    refine returns_pure.ends ⟨hr.1, _, rfl, fun newKeys' heq => ?_⟩
    cases heq
    exact hr.2
  | .error (.error e) =>
    refine returns_refresh.bind_ends (returns_pure.ends ⟨⟨rfl, hr⟩, _, rfl, fun newKeys heq => ?_⟩)
    cases heq
  | .error .panic => exact hr.elim

theorem not_mem_sizeKey_put {b : Batch} {keys : List Multihash}
    (hb : b.Sublist (keys.map (putOp cfg))) (h : sizeKey ∉ d.keys) :
    sizeKey ∉ (b.applyTo d).keys := by
  intro hmem
  rcases Batch.mem_keys_applyTo hmem with hold | ⟨v, hv⟩
  · exact h hold
  · obtain ⟨m, -, heq⟩ := mem_map.mp (hb.subset hv)
    exact dsKey_ne_sizeKey (mhToBit256 m) cfg.bits_le (BatchOp.put.inj heq).1

/-- **`put`** adds the new keys to the counter. -/
theorem put_settles (h : Right c d) (keys : List Multihash) :
    Ends (put cfg faults keys) c d (Settles Unsized fun newKeys c' d' =>
      Right c' d' ∧ Fresh keys [] (fun k => dsKey k cfg.prefixBits ∉ d.keys) newKeys) := by
  obtain ⟨out, hloop, hout⟩ := putLoop_returns cfg c d keys [] [] []
  refine returns_batch.bind_ends (hloop.bind_ends (bind (ends_commitWith ?_ ?_)))
  · -- the new keys are distinct, and none of them was stored
    have hnodup : (d.keys ++ (out.map fun m => entryOf cfg.prefixBits m).map Prod.fst).Nodup := by
      rw [map_map]
      refine List.Nodup.append d.nodup ?_ fun k hk hk' => ?_
      · have hinj := hout.nodup.map (dsKey_injective cfg.bits_aligned)
        rwa [map_map] at hinj
      · obtain ⟨m, hm, rfl⟩ := mem_map.mp hk'
        exact ((hout.mem_iff _).mp (mem_map_of_mem hm)).2.2 hk
    have hlength := Batch.length_keys_putAll _ d hnodup
    rw [map_map, length_map] at hlength
    refine returns_caller.bind_ends (returns_setCaller.bind_ends
      (returns_sync.bind_ends (returns_pure.ends ⟨⟨?_, ?_⟩, hout⟩)))
    · show c.size + Int64.ofNat out.length = Int64.ofNat _
      rw [h.1, ← Int64.ofNat_add, ← hlength]
      rfl
    · exact not_mem_sizeKey_put (List.Sublist.refl _) h.2
  · intro n e b hn hb
    exact not_mem_sizeKey_put hb h.2

/-- **`delete`** subtracts the removed keys from the counter. -/
theorem delete_settles (h : Right c d) (keys : List Multihash) :
    Ends (delete cfg faults keys) c d (Settles Unsized fun _ c' d' => Right c' d') := by
  obtain ⟨out, hloop, hout⟩ := deleteLoop_returns cfg c d keys [] [] 0
  have hdeletes : ∀ op ∈ out.map (deleteOp cfg), ∃ k, op = .delete k := by
    intro op hop
    obtain ⟨m, -, rfl⟩ := mem_map.mp hop
    exact ⟨_, rfl⟩
  refine returns_batch.bind_ends (hloop.bind_ends (bind (ends_commitWith ?_ ?_)))
  · -- the removed keys are distinct and stored
    have hnodup : (out.map fun m => dsKey (mhToBit256 m) cfg.prefixBits).Nodup := by
      have hinj := hout.nodup.map (dsKey_injective cfg.bits_aligned)
      rwa [map_map] at hinj
    have hlength := Batch.length_keys_deleteAll (d := d) hnodup fun k hk => by
      obtain ⟨m, hm, rfl⟩ := mem_map.mp hk
      exact ((hout.mem_iff _).mp (mem_map_of_mem hm)).2.2
    rw [map_map, length_map] at hlength
    refine returns_caller.bind_ends (returns_setCaller.bind_ends (returns_sync.ends ⟨?_, ?_⟩))
    · show c.size - Int64.ofNat (0 + out.length) = Int64.ofNat _
      rw [h.1, Nat.zero_add, ← Int64.ofNat_sub _ _ (by omega), ← hlength, Nat.add_sub_cancel]
      rfl
    · exact fun hmem => h.2 (Batch.mem_keys_of_deletes hdeletes hmem)
  · intro n e b hn hb hmem
    exact h.2 (Batch.mem_keys_of_deletes (fun op hop => hdeletes op (hb.subset hop)) hmem)

variable (cfg faults) in
/-- **A request** leaves the counter right; a put without an error returns each of its keys that
was not stored, once. -/
theorem serve_ends (h : Right c d) (r : Request) :
    Ends (r.serve cfg faults) c d fun response c' d' => Right c' d' ∧
      ∃ answer, response = .ok answer ∧ ∀ keys newKeys, r = .put keys → answer = .ok newKeys →
        Fresh keys [] (fun k => dsKey k cfg.prefixBits ∉ d.keys) newKeys := by
  cases r with
  | put keys =>
    refine (serveWith_ends (put_settles h keys)).mono fun response c' d' hr => ?_
    obtain ⟨hright, answer, hanswer, hfresh⟩ := hr
    refine ⟨hright, answer, hanswer, fun keys' newKeys hkeys hok => ?_⟩
    cases hkeys
    exact hfresh newKeys hok
  | delete keys =>
    refine (serveWith_ends (P := fun _ => True) (bind
      ((delete_settles h keys).mono fun r c' d' hr => ?_))).mono fun response c' d' hr => ?_
    · match r with
      | .ok () => exact returns_pure.ends ⟨hr, trivial⟩
      | .error (.error e) => exact hr
      | .error .panic => exact hr
    · exact ⟨hr.1, hr.2.imp fun answer ha => ⟨ha.1, nofun⟩⟩
  | empty =>
    refine (serveWith_ends (P := fun _ => True) (bind
      (empty_settles.mono fun r c' d' hr => ?_))).mono fun response c' d' hr => ?_
    · match r with
      | .ok () =>
        obtain rfl := hr
        exact returns_setCaller.bind_ends (returns_pure.ends ⟨⟨rfl, not_mem_nil⟩, trivial⟩)
      | .error (.error e) => exact fun hmem => h.2 (hr.1 _ hmem)
      | .error .panic => exact hr
    · exact ⟨hr.1, hr.2.imp fun answer ha => ⟨ha.1, nofun⟩⟩

end Requests

/-! ## Start and shutdown -/

section Restart

variable {cfg : Config} {faults : CommitFaults} {c : State} {d : Datastore}

theorem length_putUint64 (v : UInt64) : (putUint64 v).length = 8 := by
  rw [putUint64, length_map, length_range]

theorem uint64_putUint64 (v : UInt64) : uint64 (putUint64 v) = v := by
  have hv := v.toNat_lt
  have hrange : range 8 = [0, 1, 2, 3, 4, 5, 6, 7] := rfl
  rw [uint64, putUint64, hrange]
  simp only [map_cons, map_nil, foldl_cons, foldl_nil, UInt8.toNat_ofNat']
  rw [← UInt64.toNat_inj, UInt64.toNat_ofNat']
  omega

/-- **After a crash** there is no size to read, and the keys are counted. -/
theorem start_fresh (h : sizeKey ∉ d.keys) :
    Ends start c d fun r c' d' => r = .ok () ∧ Right c' d' := by
  have hget : ∀ c : State, Ends (dsGet sizeKey) c d fun r c' d' =>
      r = .error (.error "datastore: key not found") ∧ c' = c ∧ d' = d := fun c => by
    refine (returns_call "").bind_ends (returns_store.bind_ends ?_)
    rw [find_of_not_mem h]
    exact ends_fail ⟨rfl, rfl, rfl⟩
  refine returns_setCaller.bind_ends (bind (handle (bind
    ((hget ⟨0⟩).mono fun r c' d' hr => ?_))))
  obtain ⟨rfl, rfl, rfl⟩ := hr
  refine returns_pure.ends (((returns_delete sizeKey).handle _).bind_ends ?_)
  rw [delete_of_not_mem h]
  exact returns_refresh.ends ⟨rfl, rfl, h⟩

/-- **After a shutdown** the size is read, and removed. -/
theorem start_persisted (h : Right c d) (c0 : State) :
    Ends start c0 (d.put sizeKey (putUint64 c.size.toUInt64)) fun r c' d' =>
      r = .ok () ∧ Right c' d' := by
  have hget : Returns (dsGet sizeKey) ⟨0⟩ (d.put sizeKey (putUint64 c.size.toUInt64))
      (putUint64 c.size.toUInt64) ⟨0⟩ (d.put sizeKey (putUint64 c.size.toUInt64)) := by
    refine (returns_call "").bind (returns_store.bind ?_)
    rw [find_put]
    exact returns_pure
  have hsome : Returns (dsGet sizeKey >>= fun bs => pure (some bs)) ⟨0⟩
      (d.put sizeKey (putUint64 c.size.toUInt64)) (some (putUint64 c.size.toUInt64)) ⟨0⟩
      (d.put sizeKey (putUint64 c.size.toUInt64)) := hget.bind returns_pure
  refine returns_setCaller.bind_ends ((hsome.handle _).bind_ends ?_)
  dsimp only
  rw [if_neg (not_not.mpr (length_putUint64 _)), uint64_putUint64]
  refine returns_setCaller.bind_ends (((returns_delete sizeKey).handle _).ends ⟨rfl, ?_⟩)
  rw [delete_put, delete_of_not_mem h.2]
  exact h

inductive Event where
  | request (r : Request)
  /-- `Close`, and the keystore is opened again. -/
  | restart
  /-- The process stops, and the keystore is opened again. -/
  | crash

def Event.run (cfg : Config) (faults : CommitFaults) : Event → KeystoreM Unit
  | .request r => do
    let _ ← r.serve cfg faults
  | .restart => do
    close
    start
  | .crash => start

def runEvents (cfg : Config) (faults : CommitFaults) : List Event → KeystoreM Unit
  | [] => pure ()
  | e :: events => do
    e.run cfg faults
    runEvents cfg faults events

/-- **Step.** -/
theorem Event.run_right (h : Right c d) (e : Event) :
    Ends (e.run cfg faults) c d fun r c' d' => r = .ok () ∧ Right c' d' := by
  cases e with
  | request r =>
    refine bind ((serve_ends cfg faults h r).mono fun response c' d' hr => ?_)
    obtain ⟨hright, answer, rfl, -⟩ := hr
    exact returns_pure.ends ⟨rfl, hright⟩
  | restart =>
    have hpersist : Returns persistSize c d () c (d.put sizeKey (putUint64 c.size.toUInt64)) :=
      returns_caller.bind (returns_put sizeKey (putUint64 c.size.toUInt64))
    have hclose : Returns close c d () c (d.put sizeKey (putUint64 c.size.toUInt64)) :=
      (hpersist.handle _).bind (returns_call _)
    exact hclose.bind_ends (start_persisted h c)
  | crash => exact start_fresh h.2

/-- **Run.** -/
theorem runEvents_right (h : Right c d) (events : List Event) :
    Ends (runEvents cfg faults events) c d fun r c' d' => r = .ok () ∧ Right c' d' := by
  induction events generalizing c d with
  | nil => exact returns_pure.ends ⟨rfl, h⟩
  | cons e events ih =>
    refine bind ((e.run_right h).mono fun r c' d' hr => ?_)
    obtain ⟨rfl, hright⟩ := hr
    exact ih hright

end Restart

/-- **The size is right.** Whatever requests were served, commits failed and restarts happened since
the keystore was first opened, the counter is the number of stored keys, and a put that returns no
error returns each of its keys that was not stored, once. -/
theorem size_right (cfg : Config) (faults : CommitFaults) (events : List Event) (c : State)
    (d : Datastore) (hd : sizeKey ∉ d.keys) :
    Ends (start >>= fun _ => runEvents cfg faults events) c d fun r c' d' =>
      r = .ok () ∧ Returns size c' d' (Int64.ofNat d'.keys.length) c' d' ∧ sizeKey ∉ d'.keys ∧
      ∀ keys, Ends ((Request.put keys).serve cfg faults) c' d' fun response _ _ =>
        ∃ answer, response = .ok answer ∧ ∀ newKeys, answer = .ok newKeys →
          Fresh keys [] (fun k => dsKey k cfg.prefixBits ∉ d'.keys) newKeys := by
  refine bind ((start_fresh hd).mono fun r c1 d1 hr => ?_)
  obtain ⟨rfl, hright⟩ := hr
  refine (runEvents_right hright events).mono fun r c' d' hr => ?_
  obtain ⟨rfl, hright'⟩ := hr
  refine ⟨rfl, hright'.1 ▸ returns_size, hright'.2, fun keys => ?_⟩
  refine (serve_ends cfg faults hright' (.put keys)).mono fun response _ _ hput => ?_
  obtain ⟨-, answer, hanswer, hfresh⟩ := hput
  exact ⟨answer, hanswer, fun newKeys hok => hfresh keys newKeys rfl hok⟩

def earlyFaults : CommitFaults where
  applied n := if n < 8 then some ("disk full", fun b => b.take 1) else none
  sublist n e g b h := by
    split at h
    · obtain ⟨rfl, rfl⟩ := Prod.mk.inj (Option.some.inj h)
      exact List.take_sublist 1 b
    · cases h

theorem size_right_earlyFaults :
    sizeKey ∉ Datastore.empty.keys ∧
    Ends (start >>= fun _ => runEvents defaultConfig earlyFaults
        [.request (.put [[1], [2], [1]]), .crash, .request (.delete [[1]]), .restart]) ⟨0⟩
      Datastore.empty fun r c' d' =>
        r = .ok () ∧ Returns size c' d' (Int64.ofNat d'.keys.length) c' d' ∧ sizeKey ∉ d'.keys ∧
        ∀ keys, Ends ((Request.put keys).serve defaultConfig earlyFaults) c' d' fun response _ _ =>
          ∃ answer, response = .ok answer ∧ ∀ newKeys, answer = .ok newKeys →
            Fresh keys [] (fun k => dsKey k defaultConfig.prefixBits ∉ d'.keys) newKeys :=
  ⟨not_mem_nil, size_right _ _ _ _ _ not_mem_nil⟩

end KadDht.Keystore
