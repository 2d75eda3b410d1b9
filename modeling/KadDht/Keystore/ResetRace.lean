import KadDht.Keystore.ResetSize

/-!
# Keystore — a key that is counted twice

When a put during a reset shares a key with the stream, the worker can check the key, stop before
its commit, and let the reset check the same key: both count it.

* **`sizeExact_iff`** — when the size after a reset is right in every interleaving.
-/

namespace KadDht.Keystore

open DsM List Trace World

/-! ## One goroutine at a time -/

section Solo

variable {cfg : Config} {faults : CommitFaults} {l : Label} {place : AltPut → Resettable → World}
  {done : Resettable → World}

/-- The steps of one goroutine in `altPut`: where it is in the world, and where it goes on. -/
structure Solo (cfg : Config) (faults : CommitFaults) (l : Label)
    (place : AltPut → Resettable → World) (done : Resettable → World) : Prop where
  goes : ∀ p c q c', p.step cfg .none c = some (some q, c') →
    World.step cfg faults l (place p c) = some (place q c')
  ends : ∀ p c c', p.step cfg .none c = some (none, c') →
    World.step cfg faults l (place p c) = some (done c')

/-- A goroutine that runs alone tests its keys one by one, and collects those that are new. -/
theorem Solo.checks (hsolo : Solo cfg faults l place done) (keys rest : List Multihash)
    (seen : List Bit256) (b : List Multihash) (added : Nat) (c : Resettable) :
    ∃ out seen', Fresh keys seen (fun k => dsKey k cfg.prefixBits ∉ c.altDs.keys) out ∧
      (∀ k, k ∈ seen' ↔ k ∈ keys.map mhToBit256 ∨ k ∈ seen) ∧
      Trace.run (step cfg faults) (List.replicate keys.length l)
        (place (.check (keys ++ rest) seen b added) c) =
          some (place (.check rest seen' (b ++ out) (added + out.length)) c) := by
  induction keys generalizing seen b added with
  | nil =>
    refine ⟨[], seen, Fresh.nil seen _, by simp, ?_⟩
    rw [append_nil]
    rfl
  | cons m keys ih =>
    by_cases hseen : mhToBit256 m ∈ seen
    · obtain ⟨out, seen', hout, hseen', hrun⟩ := ih seen b added
      refine ⟨out, seen', hout.skip_seen hseen, fun k => ?_, ?_⟩
      · rw [hseen', map_cons, mem_cons]
        constructor
        · exact Or.imp_left .inr
        · rintro ((rfl | hk) | hk)
          · exact .inr hseen
          · exact .inl hk
          · exact .inr hk
      · exact run_cons.mpr ⟨_, hsolo.goes _ c _ c (if_pos hseen), hrun⟩
    · have hmove : ∀ (k : Bit256) (seen' : List Bit256),
          (k ∈ seen' ↔ k ∈ keys.map mhToBit256 ∨ k ∈ mhToBit256 m :: seen) →
          (k ∈ seen' ↔ k ∈ (m :: keys).map mhToBit256 ∨ k ∈ seen) := by
        intro k seen' h
        rw [h, map_cons, mem_cons, mem_cons]
        tauto
      by_cases hstored : keyOf cfg m ∈ c.altDs.keys
      · obtain ⟨out, seen', hout, hseen', hrun⟩ := ih (mhToBit256 m :: seen) b added
        refine ⟨out, seen', hout.skip_unwanted (not_not.mpr hstored),
          fun k => hmove k seen' (hseen' k), ?_⟩
        refine run_cons.mpr ⟨_, hsolo.goes _ c _ c ?_, hrun⟩
        exact (if_neg hseen).trans (if_pos hstored)
      · obtain ⟨out, seen', hout, hseen', hrun⟩ := ih (mhToBit256 m :: seen) (b ++ [m]) (added + 1)
        refine ⟨m :: out, seen', hout.take hseen hstored, fun k => hmove k seen' (hseen' k), ?_⟩
        rw [append_assoc, Nat.add_assoc, Nat.add_comm 1] at hrun
        refine run_cons.mpr ⟨_, hsolo.goes _ c _ c ?_, hrun⟩
        exact (if_neg hseen).trans (if_neg hstored)

def altPutLabels (l : Label) (keys : List Multihash) : List Label :=
  List.replicate keys.length l ++ [l, l]

theorem Solo.finishes (hsolo : Solo cfg faults l place done) (keys : List Multihash)
    (seen : List Bit256) (b : List Multihash) (added : Nat) (c : Resettable) :
    ∃ out, Fresh keys seen (fun k => dsKey k cfg.prefixBits ∉ c.altDs.keys) out ∧
      Trace.run (World.step cfg faults) (altPutLabels l keys)
        (place (.check keys seen b added) c) = some (done { c with
          altSize := c.altSize + Int64.ofNat (added + out.length)
          altDs := Batch.applyTo ((b ++ out).map (putOp cfg)) c.altDs }) := by
  obtain ⟨out, seen', hout, -, hrun⟩ := hsolo.checks keys [] seen b added c
  rw [append_nil] at hrun
  refine ⟨out, hout, run_append.mpr ⟨_, hrun, ?_⟩⟩
  refine run_cons.mpr ⟨_, hsolo.goes _ c _ _ rfl, ?_⟩
  rw [run_singleton]
  refine hsolo.ends _ _ _ ?_
  have hall : ((b ++ out).filter fun h => AltFault.none.writes (keyOf cfg h)) = b ++ out :=
    filter_eq_self.mpr fun _ _ => rfl
  rw [AltPut.step, hall]

end Solo

/-- The worker in a put. -/
theorem solo_work (cfg : Config) (faults : CommitFaults) (w : World) (keys : List Multihash) :
    Solo cfg faults .work
      (fun p c => ⟨{ w.session with caller := c }, .altPut keys .none p, w.reset⟩)
      (fun c => ⟨{ w.session with caller := c }, .put keys, w.reset⟩) := by
  constructor
  · intro p c q c' h
    simp only [World.step, World.work, World.setCaller, h, Option.map_some]
  · intro p c c' h
    simp only [World.step, World.work, World.setCaller, h, Option.map_some]

/-- The reset with a full batch. -/
theorem solo_write (cfg : Config) (faults : CommitFaults) (w : World) (stream : List Multihash) :
    Solo cfg faults .write
      (fun p c => ⟨{ w.session with caller := c }, w.worker, .writing stream p⟩)
      (fun c => ⟨{ w.session with caller := c }, w.worker, .reading stream []⟩) := by
  constructor
  · intro p c q c' h
    simp only [World.step, World.write, World.setCaller, h, Option.map_some]
  · intro p c c' h
    simp only [World.step, World.write, World.setCaller, h, Option.map_some]

/-- The reset with its final batch. -/
theorem solo_final (cfg : Config) (faults : CommitFaults) (w : World) :
    Solo cfg faults .write (fun p c => ⟨{ w.session with caller := c }, w.worker, .final p⟩)
      (fun c => ⟨{ w.session with caller := c }, w.worker, .ending none⟩) := by
  constructor
  · intro p c q c' h
    simp only [World.step, World.write, World.setCaller, h, Option.map_some]
  · intro p c c' h
    simp only [World.step, World.write, World.setCaller, h, Option.map_some]

/-! ## Batches that are counted once -/

/-- The size exceeds the number of keys in the alternate datastore by a number. -/
def Surplus (n : Nat) (c : Resettable) : Prop :=
  c.altSize = Int64.ofNat (c.altDs.keys.length + n)

structure Wrote (cfg : Config) (keys : List Multihash) (n : Nat) (c c' : Resettable) : Prop where
  surplus : Surplus n c'
  mem_iff : ∀ κ, κ ∈ c'.altDs.keys ↔ κ ∈ c.altDs.keys ∨ κ ∈ keys.map (keyOf cfg)
  progress : c'.resetInProgress = c.resetInProgress

section Batches

variable {cfg : Config} {faults : CommitFaults} {l : Label} {place : AltPut → Resettable → World}
  {done : Resettable → World} {c c' c'' : Resettable} {n : Nat} {keys keys' : List Multihash}
  {seen : List Bit256}

theorem Wrote.nil (hc : Surplus n c) : Wrote cfg [] n c c := ⟨hc, by simp, rfl⟩

theorem Wrote.trans (h : Wrote cfg keys n c c') (h' : Wrote cfg keys' n c' c'') :
    Wrote cfg (keys ++ keys') n c c'' := by
  refine ⟨h'.surplus, fun κ => ?_, ?_⟩
  · rw [h'.mem_iff, h.mem_iff, map_append, mem_append, or_assoc]
  · exact h'.progress.trans h.progress

theorem mem_keys_fresh {d : Datastore} {out : List Multihash}
    (hout : Fresh keys seen (fun k => dsKey k cfg.prefixBits ∉ d.keys) out) {κ : DsKey} :
    κ ∈ out.map (keyOf cfg) ↔
      ∃ k ∈ keys.map mhToBit256, k ∉ seen ∧ dsKey k cfg.prefixBits = κ ∧ κ ∉ d.keys := by
  have hmap : ∀ ms : List Multihash, κ ∈ ms.map (keyOf cfg) ↔
      ∃ k ∈ ms.map mhToBit256, dsKey k cfg.prefixBits = κ := by
    intro ms
    simp [keyOf]
  rw [hmap]
  constructor
  · rintro ⟨k, hk, rfl⟩
    obtain ⟨hkeys, hseen, hnew⟩ := (hout.mem_iff k).mp hk
    exact ⟨k, hkeys, hseen, rfl, hnew⟩
  · rintro ⟨k, hkeys, hseen, rfl, hnew⟩
    exact ⟨k, (hout.mem_iff k).mpr ⟨hkeys, hseen, hnew⟩, rfl⟩

theorem nodup_keys_fresh {d : Datastore} {out : List Multihash}
    (hout : Fresh keys seen (fun k => dsKey k cfg.prefixBits ∉ d.keys) out) :
    (out.map (keyOf cfg)).Nodup := by
  have hinj := hout.nodup.map (dsKey_injective cfg.bits_aligned)
  rwa [map_map] at hinj

theorem Solo.writes (hsolo : Solo cfg faults l place done) (keys : List Multihash)
    (hc : Surplus n c) :
    ∃ c', Trace.run (step cfg faults) (altPutLabels l keys)
      (place (.check keys [] [] 0) c) = some (done c') ∧ Wrote cfg keys n c c' ∧
        c'.size = c.size := by
  obtain ⟨out, hout, hrun⟩ := hsolo.finishes keys [] [] 0 c
  rw [nil_append, Nat.zero_add] at hrun
  refine ⟨_, hrun, ⟨?_, fun κ => ?_, rfl⟩, rfl⟩
  · have hlength := AltPut.length_keys_putAll (d := c.altDs) (nodup_keys_fresh hout) fun κ hκ =>
      (mem_keys_fresh hout).mp hκ |>.choose_spec.2.2.2
    show c.altSize + Int64.ofNat out.length = Int64.ofNat (_ + n)
    rw [hlength, hc, ← Int64.ofNat_add]
    congr 1
    omega
  · show κ ∈ (Batch.applyTo (out.map (putOp cfg)) c.altDs).keys ↔ _
    rw [mem_keys_putAll, mem_keys_fresh hout]
    by_cases hκ : κ ∈ c.altDs.keys
    · simp [hκ]
    · simp [hκ, keyOf]

end Batches

/-! ## Requests and the reset, one after the other -/

def Label.put? : Label → Option (List Multihash × AltFault)
  | put keys fault => some (keys, fault)
  | _ => none

def putsOf (ls : List Label) : List (List Multihash × AltFault) := ls.filterMap Label.put?

theorem putsOf_append (ls ls' : List Label) : putsOf (ls ++ ls') = putsOf ls ++ putsOf ls' :=
  filterMap_append

theorem putsOf_altPutLabels {l : Label} (h : l.put? = none) (keys : List Multihash) :
    putsOf (altPutLabels l keys) = [] := by
  refine filterMap_eq_nil_iff.mpr fun x hx => ?_
  obtain rfl : x = l := by
    rcases mem_append.mp hx with hx | hx
    · exact eq_of_mem_replicate hx
    · simpa using hx
  exact h

section Schedule

variable (cfg : Config) (faults : CommitFaults) {w w' : World} {n : Nat}

structure World.Ready (w : World) : Prop where
  idle : w.worker = .idle
  progress : w.session.caller.resetInProgress = true
  healthy : w.session.Healthy
  right : Right ⟨w.session.caller.size⟩ w.session.store

theorem World.answers {keys : List Multihash} (hworker : w.worker = .put keys)
    (hhealthy : w.session.Healthy) (hright : Right ⟨w.session.caller.size⟩ w.session.store) :
    ∃ response w', step cfg faults (.answer response) w = some w' ∧ w'.worker = .idle ∧
      w'.reset = w.reset ∧ w'.session.Healthy ∧
      Right ⟨w'.session.caller.size⟩ w'.session.store ∧
      ∃ size, w'.session.caller = { w.session.caller with size := size } := by
  obtain ⟨hhealthy', hright', answer, hanswer, -⟩ :=
    serve_ends cfg faults hright (.put keys)
      { w.session with caller := ⟨w.session.caller.size⟩ } hhealthy rfl rfl
  refine ⟨answer, ⟨(onDs ((Request.put keys).serve cfg faults) w.session).1, .idle, w.reset⟩,
    ?_, rfl, rfl, hhealthy', hright', _, rfl⟩
  have hres : (onDs ((Request.put keys).serve cfg faults) w.session).2 = .ok answer := hanswer
  simp only [step, hworker, serve, hres, if_true]

/-- The worker serves a put from its start to its end. -/
theorem serve_put (hw : w.Ready) (hc : Surplus n w.session.caller) (keys : List Multihash) :
    ∃ ls w', Trace.run (step cfg faults) ls w = some w' ∧ w'.Ready ∧ w'.reset = w.reset ∧
      Wrote cfg keys n w.session.caller w'.session.caller ∧ putsOf ls = [(keys, .none)] := by
  obtain ⟨c', hrun, hwrote, hsize⟩ := (solo_work cfg faults w keys).writes keys hc
  obtain ⟨response, w', hanswer, hidle, hreset, hhealthy, hright, size, hcaller⟩ :=
    answers cfg faults (w := ⟨{ w.session with caller := c' }, .put keys, w.reset⟩) rfl hw.healthy
      (hsize ▸ hw.right)
  have hput : step cfg faults (.put keys .none) w =
      some ⟨w.session, .altPut keys .none (.check keys [] [] 0), w.reset⟩ := by
    simp only [step, hw.idle, Worker.receive, hw.progress, if_true]
  refine ⟨.put keys .none :: (altPutLabels .work keys ++ [.answer response]), w', ?_,
    ⟨hidle, ?_, hhealthy, hright⟩, hreset, ⟨?_, ?_, ?_⟩, ?_⟩
  · refine run_cons.mpr ⟨_, hput, run_append.mpr ⟨_, hrun, ?_⟩⟩
    rw [run_singleton]
    exact hanswer
  · rw [hcaller]
    exact hwrote.progress.trans hw.progress
  · rw [hcaller]
    exact hwrote.surplus
  · rw [hcaller]
    exact hwrote.mem_iff
  · rw [hcaller]
    exact hwrote.progress
  · show [(keys, AltFault.none)] ++ putsOf (altPutLabels .work keys ++ [.answer response]) = _
    rw [putsOf_append, putsOf_altPutLabels rfl]
    rfl

/-- The worker serves puts, while the reset does nothing. -/
theorem serve_puts (hw : w.Ready) (hc : Surplus n w.session.caller) (puts : List (List Multihash)) :
    ∃ ls w', Trace.run (step cfg faults) ls w = some w' ∧ w'.Ready ∧ w'.reset = w.reset ∧
      Wrote cfg puts.flatten n w.session.caller w'.session.caller ∧
      putsOf ls = puts.map fun keys => (keys, .none) := by
  induction puts generalizing w with
  | nil => exact ⟨[], w, rfl, hw, rfl, Wrote.nil hc, rfl⟩
  | cons keys puts ih =>
    obtain ⟨ls, w1, hrun, hw1, hreset, hwrote, hputs⟩ := serve_put cfg faults hw hc keys
    obtain ⟨ls', w', hrun', hw', hreset', hwrote', hputs'⟩ := ih hw1 hwrote.surplus
    refine ⟨ls ++ ls', w', run_append.mpr ⟨w1, hrun, hrun'⟩, hw', hreset'.trans hreset,
      hwrote.trans hwrote', ?_⟩
    rw [putsOf_append, hputs, hputs']
    rfl

/-- The reset runs to its end, while the worker does nothing. -/
theorem reset_alone {stream keys : List Multihash} (hr : w.reset = .reading stream keys)
    (hc : Surplus n w.session.caller) :
    ∃ ls c', Trace.run (step cfg faults) ls w =
        some ⟨{ w.session with caller := c' }, w.worker, .ending none⟩ ∧
      Wrote cfg (keys ++ stream) n w.session.caller c' ∧ c'.size = w.session.caller.size ∧
      putsOf ls = [] := by
  induction stream generalizing keys w with
  | nil =>
    obtain ⟨c', hrun, hwrote, hsize⟩ := (solo_final cfg faults w).writes keys hc
    have hclosed : step cfg faults .closed w =
        some ⟨w.session, w.worker, .final (.check keys [] [] 0)⟩ := by
      simp only [step, hr]
    refine ⟨.closed :: altPutLabels .write keys, c', run_cons.mpr ⟨_, hclosed, hrun⟩, ?_,
      hsize, putsOf_altPutLabels rfl keys⟩
    rw [append_nil]
    exact hwrote
  | cons m stream ih =>
    have hread : step cfg faults (.read m) w =
        some ⟨w.session, w.worker, .receive cfg stream (keys ++ [m])⟩ := by
      simp only [step, hr, if_true]
    by_cases hfull : (keys ++ [m]).length ≥ cfg.batchSize
    · -- the batch is written before the stream is read on
      rw [ResetCids.receive, if_pos hfull] at hread
      obtain ⟨c1, hrun, hwrote, hsize⟩ := (solo_write cfg faults w stream).writes (keys ++ [m]) hc
      obtain ⟨ls, c', hrun', hwrote', hsize', hputs⟩ :=
        ih (w := ⟨{ w.session with caller := c1 }, w.worker, .reading stream []⟩) rfl hwrote.surplus
      refine ⟨.read m :: (altPutLabels .write (keys ++ [m]) ++ ls), c',
        run_cons.mpr ⟨_, hread, run_append.mpr ⟨_, hrun, hrun'⟩⟩, ?_,
        hsize'.trans hsize, ?_⟩
      · have htrans := hwrote.trans hwrote'
        rwa [nil_append, append_assoc, singleton_append] at htrans
      · show putsOf (altPutLabels .write (keys ++ [m]) ++ ls) = []
        rw [putsOf_append, putsOf_altPutLabels rfl, hputs]
        rfl
    · rw [ResetCids.receive, if_neg hfull] at hread
      obtain ⟨ls, c', hrun, hwrote, hsize, hputs⟩ :=
        ih (w := ⟨w.session, w.worker, .reading stream (keys ++ [m])⟩) rfl hc
      refine ⟨.read m :: ls, c', run_cons.mpr ⟨_, hread, hrun⟩, ?_, hsize, hputs⟩
      rwa [append_assoc, singleton_append] at hwrote

end Schedule

/-! ## The race -/

section Race

variable {cfg : Config} {w w' : World} {stream : List Multihash}

theorem length_keys_putAll_one {d : Datastore} {b : List Multihash} {k : Bit256}
    (hnodup : (b.map mhToBit256).Nodup) (hk : k ∈ b.map mhToBit256)
    (hone : ∀ m ∈ b, keyOf cfg m ∈ d.keys ↔ mhToBit256 m = k) :
    (Batch.applyTo (b.map (putOp cfg)) d).keys.length + 1 = d.keys.length + b.length := by
  have hkeys : ((b.map fun m => (keyOf cfg m, m)).map Prod.fst).Nodup := by
    have hinj := hnodup.map (dsKey_injective cfg.bits_aligned)
    rw [map_map] at hinj ⊢
    exact hinj
  have hadd := Batch.length_keys_putAll_add (b.map fun m => (keyOf cfg m, m)) d hkeys
  have hcount : ((b.map fun m => (keyOf cfg m, m)).filter fun e => e.1 ∈ d.keys).length = 1 := by
    rw [filter_map, length_map]
    have hsame : (b.filter ((fun e : DsKey × Bytes => decide (e.1 ∈ d.keys)) ∘
        fun m => (keyOf cfg m, m))) = b.filter fun m => mhToBit256 m == k := by
      refine filter_congr fun m hm => ?_
      rw [Bool.eq_iff_iff, Function.comp_apply, decide_eq_true_iff, beq_iff_eq]
      exact hone m hm
    rw [hsame, ← countP_eq_length_filter]
    have hcount := count_eq_one_of_mem hnodup hk
    rwa [count, countP_map] at hcount
  rw [hcount, map_map, length_map] at hadd
  exact hadd

variable {m : Multihash}

theorem keyOf_mem_map {ms : List Multihash} :
    keyOf cfg m ∈ ms.map (keyOf cfg) ↔ mhToBit256 m ∈ ms.map mhToBit256 := by
  simp only [mem_map]
  constructor
  · rintro ⟨x, hx, heq⟩
    exact ⟨x, hx, mhToBit256_eq_of_keyOf heq⟩
  · rintro ⟨x, hx, heq⟩
    exact ⟨x, hx, congrArg (fun k => dsKey k cfg.prefixBits) heq⟩

/-- Of the keys that a put checked before and after the reset wrote the stream, exactly the shared
one is there when they are committed. -/
theorem length_keys_race {d d' : Datastore} {keys1 keys2 out1 out2 : List Multihash}
    (hout1 : Fresh (keys1 ++ [m]) [] (fun k => dsKey k cfg.prefixBits ∉ d.keys) out1)
    (hseen : ∀ k, k ∈ seen ↔ k ∈ (keys1 ++ [m]).map mhToBit256 ∨ k ∈ [])
    (hout2 : Fresh keys2 seen (fun k => dsKey k cfg.prefixBits ∉ d'.keys) out2)
    (hd' : ∀ κ, κ ∈ d'.keys ↔ κ ∈ d.keys ∨ κ ∈ stream.map (keyOf cfg))
    (hd : ∀ κ ∈ d.keys, κ ∉ stream.map (keyOf cfg))
    (hkeys1 : ∀ x ∈ keys1, mhToBit256 x ∉ stream.map mhToBit256)
    (hm : mhToBit256 m ∈ stream.map mhToBit256) :
    (Batch.applyTo ((out1 ++ out2).map (putOp cfg)) d').keys.length + 1 =
      d'.keys.length + (out1.length + out2.length) := by
  have hlast : mhToBit256 m ∈ (keys1 ++ [m]).map mhToBit256 :=
    mem_map_of_mem (mem_append_right _ (mem_singleton_self m))
  have hmem : mhToBit256 m ∈ out1.map mhToBit256 := by
    refine (hout1.mem_iff _).mpr ⟨hlast, not_mem_nil, fun hstored => ?_⟩
    exact hd _ hstored (keyOf_mem_map.mpr hm)
  rw [← length_append]
  refine length_keys_putAll_one (k := mhToBit256 m) ?_ ?_ ?_
  · rw [map_append]
    refine hout1.nodup.append hout2.nodup fun k hk1 hk2 => ?_
    have hnot := ((hout2.mem_iff k).mp hk2).2.1
    exact hnot ((hseen k).mpr (.inl ((hout1.mem_iff k).mp hk1).1))
  · rw [map_append]
    exact mem_append_left _ hmem
  · intro x hx
    rcases mem_append.mp hx with hx | hx
    · obtain ⟨hkeys, -, hnew⟩ := (hout1.mem_iff _).mp (mem_map_of_mem hx)
      have hnew' : keyOf cfg x ∉ d.keys := hnew
      rw [hd', or_iff_right hnew', keyOf_mem_map]
      rw [map_append, mem_append, map_singleton, mem_singleton] at hkeys
      rcases hkeys with hkeys | heq
      · -- an earlier key is not in the stream
        obtain ⟨y, hy, hxy⟩ := mem_map.mp hkeys
        have hnot : mhToBit256 x ∉ stream.map mhToBit256 := hxy ▸ hkeys1 y hy
        exact iff_of_false hnot fun heq => hnot (heq ▸ hm)
      · exact iff_of_true (heq ▸ hm) heq
    · obtain ⟨-, hnot, hnew⟩ := (hout2.mem_iff _).mp (mem_map_of_mem hx)
      exact iff_of_false hnew fun heq => hnot (heq ▸ (hseen _).mpr (.inl hlast))

/-- **The race.** A put stops after the first key that it shares with the stream, and goes on when
the reset is done: the key is counted twice. -/
theorem race (faults : CommitFaults) {keys1 : List Multihash} (keys2 : List Multihash)
    (hw : w.Ready) (hr : w.reset = .reading stream []) (hc : Surplus 0 w.session.caller)
    (halt : ∀ κ ∈ w.session.caller.altDs.keys, κ ∉ stream.map (keyOf cfg))
    (hkeys1 : ∀ x ∈ keys1, mhToBit256 x ∉ stream.map mhToBit256)
    (hm : mhToBit256 m ∈ stream.map mhToBit256) :
    ∃ ls w', Trace.run (step cfg faults) ls w = some w' ∧ w'.Ready ∧
      w'.reset = .ending none ∧ Surplus 1 w'.session.caller ∧
      putsOf ls = [(keys1 ++ m :: keys2, .none)] := by
  have hput : step cfg faults (.put (keys1 ++ m :: keys2) .none) w =
      some ⟨w.session, .altPut (keys1 ++ m :: keys2) .none
        (.check (keys1 ++ m :: keys2) [] [] 0), w.reset⟩ := by
    simp only [step, hw.idle, Worker.receive, hw.progress, if_true]
  -- the worker checks the keys up to the shared one
  obtain ⟨out1, seen, hout1, hseen, hrun1⟩ :=
    (solo_work cfg faults w (keys1 ++ m :: keys2)).checks (keys1 ++ [m]) keys2 [] [] 0
      w.session.caller
  rw [append_assoc, singleton_append, nil_append, Nat.zero_add] at hrun1
  -- the reset runs to its end
  obtain ⟨ls2, c2, hrun2, hwrote, hsize, hputs2⟩ := reset_alone cfg faults
    (w := ⟨w.session, .altPut (keys1 ++ m :: keys2) .none (.check keys2 seen out1 out1.length),
      w.reset⟩) hr hc
  -- the worker checks the other keys, and commits
  obtain ⟨out2, hout2, hrun3⟩ := (solo_work cfg faults
    ⟨{ w.session with caller := c2 }, .idle, .ending none⟩ (keys1 ++ m :: keys2)).finishes
      keys2 seen out1 out1.length c2
  obtain ⟨response, w', hanswer, hidle, hreset, hhealthy, hright, size, hcaller⟩ :=
    answers cfg faults
      (w := ⟨{ w.session with caller := { c2 with
        altSize := c2.altSize + Int64.ofNat (out1.length + out2.length)
        altDs := Batch.applyTo ((out1 ++ out2).map (putOp cfg)) c2.altDs } },
        .put (keys1 ++ m :: keys2), .ending none⟩) rfl hw.healthy (hsize ▸ hw.right)
  refine ⟨.put (keys1 ++ m :: keys2) .none :: (replicate (keys1 ++ [m]).length .work ++
    (ls2 ++ (altPutLabels .work keys2 ++ [.answer response]))), w', ?_,
    ⟨hidle, ?_, hhealthy, hright⟩, hreset, ?_, ?_⟩
  · refine run_cons.mpr ⟨_, hput, run_append.mpr ⟨_, hrun1,
      run_append.mpr ⟨_, hrun2, run_append.mpr ⟨_, hrun3, ?_⟩⟩⟩⟩
    rw [run_singleton]
    exact hanswer
  · rw [hcaller]
    exact hwrote.progress.trans hw.progress
  · rw [hcaller]
    show c2.altSize + Int64.ofNat (out1.length + out2.length) = Int64.ofNat (_ + 1)
    have hone := length_keys_race hout1 hseen hout2 hwrote.mem_iff halt hkeys1 hm
    rw [hone, hwrote.surplus, ← Int64.ofNat_add]
    rfl
  · have hwork : putsOf (replicate (keys1 ++ [m]).length .work) = [] :=
      filterMap_eq_nil_iff.mpr fun x hx => eq_of_mem_replicate hx ▸ rfl
    show [(keys1 ++ m :: keys2, AltFault.none)] ++ putsOf (_ ++ (ls2 ++ (_ ++ _))) = _
    rw [putsOf_append, putsOf_append, putsOf_append, hwork, hputs2, putsOf_altPutLabels rfl]
    rfl

/-- The reset of an empty keystore starts. -/
theorem start_new (cfg : Config) (stream : List Multihash) :
    ∃ w, step cfg .none .start (new stream) = some w ∧ w.Ready ∧
      w.reset = .reading stream [] ∧ w.session.caller.altDs = Datastore.empty ∧
      Surplus 0 w.session.caller :=
  ⟨_, rfl, ⟨rfl, rfl, fun _ => rfl, rfl, not_mem_nil⟩, rfl, rfl, rfl⟩

theorem exists_first {α : Type} {p : α → Prop} {xs : List α} (h : ∃ x ∈ xs, p x) :
    ∃ xs1 x xs2, xs = xs1 ++ x :: xs2 ∧ p x ∧ ∀ y ∈ xs1, ¬ p y := by
  classical
  obtain ⟨x, hx, hp⟩ := h
  obtain ⟨a, ha⟩ := Option.isSome_iff_exists.mp
    (find?_isSome (p := fun x => decide (p x)).mpr ⟨x, hx, decide_eq_true hp⟩)
  obtain ⟨hpa, xs1, xs2, heq, hnone⟩ := find?_eq_some_iff_append.mp ha
  exact ⟨xs1, a, xs2, heq, of_decide_eq_true hpa, fun y hy => by simpa using hnone y hy⟩

/-- Without failures the size after a reset is the number of stored keys, however the worker and the
reset take turns. -/
def SizeExact (cfg : Config) (stream : List Multihash) (puts : List (List Multihash)) : Prop :=
  ∀ faults during w w', w.reset = .waiting stream →
    putsOf during = (puts.map fun keys => (keys, .none)) →
    resetRun cfg faults during w = some w' → w'.reset = .returned none →
    w'.session.caller.size = Int64.ofNat w'.session.store.keys.length

/-- A key that is both put and streamed by the reset may be counted twice: the put tests it before
the reset writes it. -/
theorem not_sizeExact {puts : List (List Multihash)}
    (h : ∃ keys ∈ puts, ∃ m ∈ keys, mhToBit256 m ∈ stream.map mhToBit256) :
    ¬ SizeExact cfg stream puts := by
  intro hexact
  obtain ⟨puts1, keys, puts2, rfl, hkeys, hputs1⟩ := exists_first h
  obtain ⟨keys1, m, keys2, rfl, hm, hkeys1⟩ := exists_first hkeys
  obtain ⟨w1, hstart, hready1, hreset1, hempty, hsurplus1⟩ := start_new cfg stream
  -- the puts before share nothing with the stream
  obtain ⟨ls1, w2, hrun1, hready2, hreset2, hwrote2, hls1⟩ :=
    serve_puts cfg .none hready1 hsurplus1 puts1
  have halt : ∀ κ ∈ w2.session.caller.altDs.keys, κ ∉ stream.map (keyOf cfg) := by
    intro κ hκ hstream
    rw [hwrote2.mem_iff, hempty] at hκ
    rcases hκ with hκ | hκ
    · cases hκ
    · obtain ⟨x, hx, rfl⟩ := mem_map.mp hκ
      obtain ⟨ks, hks, hx⟩ := mem_flatten.mp hx
      exact hputs1 ks hks ⟨x, hx, keyOf_mem_map.mp hstream⟩
  obtain ⟨ls2, w3, hrun2, hready3, hreset3, hsurplus3, hls2⟩ :=
    race .none keys2 hready2 (hreset2.trans hreset1) hwrote2.surplus halt hkeys1 hm
  obtain ⟨ls3, w4, hrun3, hready4, hreset4, hwrote4, hls3⟩ :=
    serve_puts cfg .none hready3 hsurplus3 puts2
  have hending : w4.reset = .ending none := hreset4.trans hreset3
  have hcleanup : step cfg .none .cleanup w4 =
      some { (w4.handle cfg .none (.cleanup true)).1 with reset := .returned none } := by
    simp only [step, hready4.idle, hending, Option.isNone_none]
  have hrun : resetRun cfg .none (ls1 ++ (ls2 ++ ls3)) (new stream) =
      some { (w4.handle cfg .none (.cleanup true)).1 with reset := .returned none } := by
    refine run_cons.mpr ⟨w1, hstart, run_append.mpr ⟨w4, ?_, ?_⟩⟩
    · exact run_append.mpr ⟨w2, hrun1, run_append.mpr ⟨w3, hrun2, hrun3⟩⟩
    · rw [run_singleton]
      exact hcleanup
  obtain ⟨-, -, hstore, hsize⟩ := cleanup_cases hcleanup rfl
  have hright := hexact .none _ _ _ rfl ?_ hrun rfl
  · rw [hstore, hsize, hwrote4.surplus, Int64.ofNat_add] at hright
    exact absurd (Int64.add_eq_left.mp hright) (by decide)
  · rw [putsOf_append, putsOf_append, hls1, hls2, hls3, map_append, map_cons]
    rfl

end Race

/-- **The size after a reset** is right in every interleaving exactly when no put during the reset
shares a key with the stream. -/
theorem sizeExact_iff (cfg : Config) (stream : List Multihash) (puts : List (List Multihash)) :
    SizeExact cfg stream puts ↔
      ∀ keys ∈ puts, ∀ m ∈ keys, mhToBit256 m ∉ stream.map mhToBit256 := by
  constructor
  · intro hexact keys hkeys m hm hshared
    exact not_sizeExact ⟨keys, hkeys, m, hm, hshared⟩ hexact
  · intro hdisjoint faults during w w' hwait hputs hrun hdone
    have hread := rest_run hrun (show w'.reset.rest = some [] by rw [hdone]; rfl)
    rw [hwait, append_nil, flatMap_cons, flatMap_append] at hread
    have hstream : during.flatMap Label.reads = stream := by
      simpa [Label.reads, ResetCids.rest] using hread.symm
    refine size_of_disjoint (P := fun κ => ∃ keys ∈ puts, κ ∈ keys.map (keyOf cfg))
      (Q := fun κ => κ ∈ stream.map (keyOf cfg)) ?_ ?_ (fun κ hκ => hstream ▸ hκ) hrun hdone
    · rintro κ ⟨keys, hkeys, hκ⟩ hshared
      obtain ⟨m, hm, rfl⟩ := mem_map.mp hκ
      exact hdisjoint keys hkeys m hm (keyOf_mem_map.mp hshared)
    · intro l hl
      cases l with
      | put keys fault =>
        have hmem : (keys, fault) ∈ putsOf during := mem_filterMap.mpr ⟨_, hl, rfl⟩
        rw [hputs] at hmem
        obtain ⟨keys', hkeys, heq⟩ := mem_map.mp hmem
        obtain ⟨rfl, rfl⟩ := Prod.mk.inj heq
        exact ⟨rfl, fun κ hκ => ⟨keys', hkeys, hκ⟩⟩
      | _ => trivial

/-- The worker and the reset check a key before either of them commits it. -/
def sharedKey : List Label :=
  [.read [1], .closed, .put [[1]] .none, .work, .write, .work, .write, .work, .write,
    .answer (.ok [[1]])]

theorem shared_key_counted_twice :
    (resetRun defaultConfig .none sharedKey (World.new [[1]])).map
        (fun w => (w.reset, w.session.caller.size, w.session.store.keys.length)) =
      some (.returned none, 2, 1) ∧
    ¬ SizeExact defaultConfig [[1]] [[[1]]] := by
  have hrun : (resetRun defaultConfig .none sharedKey (new [[1]])).map
      (fun w => (w.reset, w.session.caller.size, w.session.store.keys.length)) =
        some (.returned none, 2, 1) := by decide +kernel
  refine ⟨hrun, fun hexact => ?_⟩
  obtain ⟨w, hw, heq⟩ := Option.map_eq_some_iff.mp hrun
  obtain ⟨hdone, hrest⟩ := Prod.mk.inj heq
  obtain ⟨hsize, hlength⟩ := Prod.mk.inj hrest
  have hright := hexact .none sharedKey _ w rfl rfl hw hdone
  rw [hsize, hlength] at hright
  exact absurd hright (by decide)

end KadDht.Keystore
