import KadDht.Keystore.ResetCids

/-!
# Keystore — the keys after a reset

During a reset the alternate datastore only grows: by the batches of the reset, and by the alternate
writes of the puts that are served meanwhile, as far as these do not fail. When the reset succeeds,
this is what the keystore holds.

* **`putsLast_iff`** — which acknowledged puts survive the reset. The error of an alternate write is
  not reported.
* **`deletesLast_iff`** — which deletions survive it. They are not duplicated.
-/

namespace KadDht.Keystore

open DsM List Trace World

/-! ## Alternate writes -/

section AltPut

variable {cfg : Config} {fault : AltFault} {c c' : Resettable} {d : Datastore}
  {W : DsKey → Prop} {p : AltPut} {p' : Option AltPut} {κ : DsKey}

theorem mem_keys_putAll {b : List Multihash} :
    κ ∈ (Batch.applyTo (b.map (putOp cfg)) d).keys ↔ κ ∈ d.keys ∨ κ ∈ b.map (keyOf cfg) := by
  induction b generalizing d with
  | nil => simp [Batch.applyTo]
  | cons h b ih =>
    show κ ∈ (Batch.applyTo (b.map (putOp cfg)) (d.put (keyOf cfg h) h)).keys ↔ _
    rw [ih, Datastore.mem_keys_put, map_cons, mem_cons, or_assoc]

namespace AltPut

def pending : AltPut → List Multihash
  | check keys _ b _ => keys ++ b
  | commit b => b

def Due (cfg : Config) (fault : AltFault) (p : AltPut) (κ : DsKey) : Prop :=
  fault.writes κ = true ∧ κ ∈ p.pending.map (keyOf cfg)

/-- The keys that were seen are there or in the batch, and what is written is among the given
keys. -/
structure Sound (cfg : Config) (fault : AltFault) (W : DsKey → Prop) (d : Datastore)
    (p : AltPut) : Prop where
  seen : match p with
    | check _ seen b _ => ∀ k ∈ seen,
      dsKey k cfg.prefixBits ∈ d.keys ∨ dsKey k cfg.prefixBits ∈ b.map (keyOf cfg)
    | commit _ => True
  pending : ∀ κ, p.Due cfg fault κ → W κ

theorem Sound.mono {d' : Datastore} (hp : p.Sound cfg fault W d)
    (hd : ∀ κ ∈ d.keys, κ ∈ d'.keys) : p.Sound cfg fault W d' := by
  refine ⟨?_, hp.pending⟩
  cases p with
  | check keys seen b added => exact fun k hk => (hp.seen k hk).imp_left (hd _)
  | commit b => trivial

variable {keys : List Multihash}

/-- A batch that starts has everything to write. -/
theorem due_start : (check keys [] [] 0).Due cfg fault κ ↔
      fault.writes κ = true ∧ κ ∈ keys.map (keyOf cfg) := by
  rw [Due, pending, append_nil]

theorem Sound.start (h : ∀ κ ∈ keys.map (keyOf cfg), fault.writes κ = true → W κ) :
    (check keys [] [] 0).Sound cfg fault W d := by
  refine ⟨fun k hk => absurd hk not_mem_nil, fun κ hκ => ?_⟩
  obtain ⟨hwrites, hmem⟩ := due_start.mp hκ
  exact h κ hmem hwrites

/-- What one step of `altPut` does to the alternate datastore, and to what is still due. -/
structure Moves (cfg : Config) (fault : AltFault) (W : DsKey → Prop) (p : AltPut) (c : Resettable)
    (p' : Option AltPut) (c' : Resettable) : Prop where
  progress : c'.resetInProgress = c.resetInProgress
  grows : ∀ κ ∈ c.altDs.keys, κ ∈ c'.altDs.keys
  within : ∀ κ ∈ c'.altDs.keys, W κ
  sound : ∀ q, p' = some q → q.Sound cfg fault W c'.altDs
  due : ∀ κ, p.Due cfg fault κ → κ ∈ c'.altDs.keys ∨ ∃ q, p' = some q ∧ q.Due cfg fault κ

/-- A check passes on what is due. -/
theorem moves_check {h : Multihash} {keys : List Multihash} {seen : List Bit256}
    {b : List Multihash} {added : Nat} {q : AltPut}
    (hp : (check (h :: keys) seen b added).Sound cfg fault W c.altDs)
    (hd : ∀ κ ∈ c.altDs.keys, W κ)
    (hseen : match q with
      | check _ seen b _ => ∀ k ∈ seen,
        dsKey k cfg.prefixBits ∈ c.altDs.keys ∨ dsKey k cfg.prefixBits ∈ b.map (keyOf cfg)
      | commit _ => True)
    (hless : ∀ m ∈ q.pending, m ∈ h :: keys ++ b)
    (hdue : ∀ m ∈ h :: keys ++ b, keyOf cfg m ∈ c.altDs.keys ∨
      keyOf cfg m ∈ q.pending.map (keyOf cfg)) :
    Moves cfg fault W (check (h :: keys) seen b added) c (some q) c := by
  refine ⟨rfl, fun _ hκ => hκ, hd, ?_, ?_⟩
  · intro _ hq
    cases hq
    refine ⟨hseen, fun κ hκ => hp.pending κ ⟨hκ.1, ?_⟩⟩
    obtain ⟨m, hm, rfl⟩ := mem_map.mp hκ.2
    exact mem_map_of_mem (hless m hm)
  · rintro κ ⟨hwrites, hκ⟩
    obtain ⟨m, hm, rfl⟩ := mem_map.mp hκ
    exact (hdue m hm).imp_right fun hq => ⟨q, rfl, hwrites, hq⟩

/-- One step of a put that may fail to write: nothing that was there is lost, and what is due is
written or still due. -/
theorem moves_of_step (h : p.step cfg fault c = some (p', c')) (hp : p.Sound cfg fault W c.altDs)
    (hd : ∀ κ ∈ c.altDs.keys, W κ) : Moves cfg fault W p c p' c' := by
  cases goes_of_step h with
  | @seen m keys seen b added hmem =>
    refine moves_check hp hd hp.seen (fun x hx => mem_cons_of_mem m hx) fun x hx => ?_
    rcases mem_cons.mp hx with rfl | hx
    · -- it was seen before, so it is there or in the batch
      refine (hp.seen _ hmem).imp_right fun hb => ?_
      exact map_append ▸ mem_append_right _ hb
    · exact .inr (mem_map_of_mem hx)
  | @stored m keys seen b added hnot hstored =>
    refine moves_check hp hd ?_ (fun x hx => mem_cons_of_mem m hx) fun x hx => ?_
    · intro k hk
      rcases mem_cons.mp hk with rfl | hk
      · exact .inl hstored
      · exact hp.seen k hk
    · rcases mem_cons.mp hx with rfl | hx
      · exact .inl hstored
      · exact .inr (mem_map_of_mem hx)
  | @taken m keys seen b added hnot habsent =>
    refine moves_check hp hd ?_ ?_ ?_
    · intro k hk
      rw [map_append]
      rcases mem_cons.mp hk with rfl | hk
      · exact .inr (mem_append_right _ mem_cons_self)
      · exact (hp.seen k hk).imp_right (mem_append_left _)
    · intro x hx
      simp only [pending, mem_append, cons_append, mem_cons] at hx ⊢
      tauto
    · intro x hx
      refine .inr (mem_map_of_mem ?_)
      simp only [pending, mem_append, cons_append, mem_cons] at hx ⊢
      tauto
  | counted hearly =>
    refine ⟨rfl, fun _ hκ => hκ, hd, ?_, fun κ hκ => .inr ⟨_, rfl, hκ⟩⟩
    intro _ hq
    cases hq
    exact ⟨trivial, hp.pending⟩
  | @committed b =>
    have hwritten : ∀ κ, κ ∈ (b.filter fun h => fault.writes (keyOf cfg h)).map (keyOf cfg) ↔
        (commit b).Due cfg fault κ := by
      intro κ
      simp only [Due, pending, mem_map, mem_filter]
      constructor
      · rintro ⟨m, ⟨hm, hwrites⟩, rfl⟩
        exact ⟨hwrites, m, hm, rfl⟩
      · rintro ⟨hwrites, m, hm, rfl⟩
        exact ⟨m, ⟨hm, hwrites⟩, rfl⟩
    refine ⟨rfl, fun κ hκ => mem_keys_putAll.mpr (.inl hκ), fun κ hκ => ?_,
      nofun, fun κ hκ => .inl (mem_keys_putAll.mpr (.inr ?_))⟩
    · rcases mem_keys_putAll.mp hκ with hκ | hκ
      · exact hd κ hκ
      · exact hp.pending κ ((hwritten κ).mp hκ)
    · exact (hwritten κ).mpr hκ

/-- A failure writes at most what was pending. -/
theorem fail_moves (applied : DsKey → Bool) (hp : p.Sound cfg .none W c.altDs)
    (hd : ∀ κ ∈ c.altDs.keys, W κ) :
    (p.fail cfg applied c).resetInProgress = c.resetInProgress ∧
      (∀ κ ∈ c.altDs.keys, κ ∈ (p.fail cfg applied c).altDs.keys) ∧
      ∀ κ ∈ (p.fail cfg applied c).altDs.keys, W κ := by
  cases p with
  | check keys seen b added => exact ⟨rfl, fun _ hκ => hκ, hd⟩
  | commit b =>
    refine ⟨rfl, fun κ hκ => mem_keys_putAll.mpr (.inl hκ), fun κ hκ => ?_⟩
    rcases mem_keys_putAll.mp hκ with hκ | hκ
    · exact hd κ hκ
    · exact hp.pending κ ⟨rfl, map_subset _ (filter_subset_self b) hκ⟩

end AltPut

end AltPut

/-! ## During a reset -/

section Live

variable {cfg : Config} {faults : CommitFaults} {W : DsKey → Prop} {d d' : Datastore}
  {w w' : World}

def Worker.Sound (cfg : Config) (W : DsKey → Prop) (d : Datastore) : Worker → Prop
  | altPut _ fault p => p.Sound cfg fault W d
  | _ => True

def Worker.Due (cfg : Config) (κ : DsKey) : Worker → Prop
  | altPut _ fault p => p.Due cfg fault κ
  | _ => False

def ResetCids.Sound (cfg : Config) (W : DsKey → Prop) (d : Datastore) : ResetCids → Prop
  | reading stream keys => ∀ κ ∈ (keys ++ stream).map (keyOf cfg), W κ
  | writing stream p => p.Sound cfg .none W d ∧ ∀ κ ∈ stream.map (keyOf cfg), W κ
  | final p => p.Sound cfg .none W d
  | ending _ => True
  | _ => False

/-- A key will be written, or the reset does not succeed. -/
def ResetCids.Due (cfg : Config) (κ : DsKey) : ResetCids → Prop
  | reading stream keys => κ ∈ (keys ++ stream).map (keyOf cfg)
  | writing stream p => p.Due cfg .none κ ∨ κ ∈ stream.map (keyOf cfg)
  | final p => p.Due cfg .none κ
  | ending err => err ≠ none
  | _ => False

theorem Worker.Sound.mono {k : Worker} (hk : k.Sound cfg W d) (hd : ∀ κ ∈ d.keys, κ ∈ d'.keys) :
    k.Sound cfg W d' := by
  cases k with
  | altPut keys fault p => exact AltPut.Sound.mono hk hd
  | _ => trivial

theorem ResetCids.Sound.mono {r : ResetCids} (hr : r.Sound cfg W d)
    (hd : ∀ κ ∈ d.keys, κ ∈ d'.keys) : r.Sound cfg W d' := by
  cases r with
  | writing stream p => exact ⟨hr.1.mono hd, hr.2⟩
  | final p => exact AltPut.Sound.mono hr hd
  | reading stream keys | waiting stream | returned err => exact hr
  | ending err => trivial

theorem ResetCids.receive_sound {stream keys : List Multihash}
    (h : ∀ κ ∈ (keys ++ stream).map (keyOf cfg), W κ) :
    (ResetCids.receive cfg stream keys).Sound cfg W d := by
  unfold ResetCids.receive
  split
  · rw [map_append] at h
    exact ⟨AltPut.Sound.start fun κ hκ _ => h κ (mem_append_left _ hκ),
      fun κ hκ => h κ (mem_append_right _ hκ)⟩
  · exact h

theorem ResetCids.receive_due {stream keys : List Multihash}
    (h : κ ∈ (keys ++ stream).map (keyOf cfg)) :
    (ResetCids.receive cfg stream keys).Due cfg κ := by
  unfold ResetCids.receive
  split
  · rw [map_append] at h
    exact (mem_append.mp h).imp_left fun hκ => AltPut.due_start.mpr ⟨rfl, hκ⟩
  · exact h

def Label.Within (cfg : Config) (W : DsKey → Prop) : Label → Prop
  | .put keys fault => ∀ κ ∈ keys.map (keyOf cfg), fault.writes κ = true → W κ
  | _ => True

namespace World

/-- A reset is in progress, and what it and the worker write is among the given keys. -/
structure Live (cfg : Config) (W : DsKey → Prop) (w : World) : Prop where
  progress : w.session.caller.resetInProgress = true
  within : ∀ κ ∈ w.session.caller.altDs.keys, W κ
  worker : w.worker.Sound cfg W w.session.caller.altDs
  reset : w.reset.Sound cfg W w.session.caller.altDs

/-- A key is in the alternate datastore, or will be when the reset succeeds. -/
def Bound (cfg : Config) (w : World) (κ : DsKey) : Prop :=
  κ ∈ w.session.caller.altDs.keys ∨ w.worker.Due cfg κ ∨ w.reset.Due cfg κ

structure Advances (cfg : Config) (W : DsKey → Prop) (w w' : World) : Prop where
  live : Live cfg W w'
  bound : ∀ κ, w.Bound cfg κ → w'.Bound cfg κ

variable (hw : Live cfg W w)
include hw

theorem Live.advances_of_worker
    (hprogress : w'.session.caller.resetInProgress = w.session.caller.resetInProgress)
    (halt : w'.session.caller.altDs = w.session.caller.altDs) (hreset : w'.reset = w.reset)
    (hworker : w'.worker.Sound cfg W w.session.caller.altDs)
    (hdue : ∀ κ, w.worker.Due cfg κ → w'.worker.Due cfg κ) : Advances cfg W w w' := by
  refine ⟨⟨hprogress ▸ hw.progress, halt ▸ hw.within, halt ▸ hworker, ?_⟩, fun κ hκ => ?_⟩
  · rw [halt, hreset]
    exact hw.reset
  · unfold Bound at hκ ⊢
    rw [halt, hreset]
    exact hκ.imp_right (Or.imp_left (hdue κ))

theorem Live.advances_of_reset {reset : ResetCids}
    (hreset : reset.Sound cfg W w.session.caller.altDs)
    (hdue : ∀ κ, w.reset.Due cfg κ → reset.Due cfg κ) :
    Advances cfg W w { w with reset := reset } :=
  ⟨{ hw with reset := hreset }, fun κ hκ => hκ.imp_right (Or.imp_right (hdue κ))⟩

theorem Live.serve {r : Request} {response : Except String (List Multihash)}
    (hdue : ∀ κ, ¬ w.worker.Due cfg κ) (h : w.serve cfg faults r response = some w') :
    Advances cfg W w w' := by
  obtain ⟨size, hcaller, hworker, hreset⟩ := serve_cases h
  refine hw.advances_of_worker (by rw [hcaller]) (by rw [hcaller]) hreset ?_
    fun κ hκ => (hdue κ hκ).elim
  rw [hworker]
  trivial

theorem Live.advances_of_alt {c : Resettable} {worker : Worker} {reset : ResetCids}
    (hprogress : c.resetInProgress = w.session.caller.resetInProgress)
    (hgrows : ∀ κ ∈ w.session.caller.altDs.keys, κ ∈ c.altDs.keys)
    (hwithin : ∀ κ ∈ c.altDs.keys, W κ)
    (hworker : worker.Sound cfg W c.altDs) (hreset : reset.Sound cfg W c.altDs)
    (hdue : ∀ κ, w.worker.Due cfg κ ∨ w.reset.Due cfg κ →
      κ ∈ c.altDs.keys ∨ worker.Due cfg κ ∨ reset.Due cfg κ) :
    Advances cfg W w { w.setCaller c with worker := worker, reset := reset } := by
  refine ⟨⟨hprogress.trans hw.progress, hwithin, hworker, hreset⟩, fun κ hκ => ?_⟩
  rcases hκ with hκ | hκ
  · exact .inl (hgrows κ hκ)
  · exact hdue κ hκ

theorem Live.work (h : w.work cfg = some w') : Advances cfg W w w' := by
  unfold World.work at h
  split at h
  · next keys fault p hworker =>
    obtain ⟨⟨p', c'⟩, hstep, rfl⟩ := Option.map_eq_some_iff.mp h
    have hsound := hw.worker
    rw [hworker] at hsound
    have hmoves := AltPut.moves_of_step hstep hsound hw.within
    refine hw.advances_of_alt hmoves.progress hmoves.grows hmoves.within ?_
      (hw.reset.mono hmoves.grows) fun κ hκ => ?_
    · cases p' with
      | some q => exact hmoves.sound q rfl
      | none => cases fault <;> trivial
    · rw [hworker] at hκ
      rcases hκ with hκ | hκ
      · rcases hmoves.due κ hκ with hin | ⟨q, rfl, hq⟩
        · exact .inl hin
        · exact .inr (.inl hq)
      · exact .inr (.inr hκ)
  · next keys hworker =>
    cases h
    refine hw.advances_of_worker rfl rfl rfl trivial fun κ hκ => ?_
    rw [hworker] at hκ
    exact hκ.elim
  · next keys size hworker =>
    cases h
    refine hw.advances_of_worker rfl rfl rfl trivial fun κ hκ => ?_
    rw [hworker] at hκ
    exact hκ.elim
  · cases h

/-- A step of the reset in `tryAltPut`. -/
theorem Live.write (h : w.write cfg = some w') : Advances cfg W w w' := by
  have hreset := hw.reset
  unfold World.write at h
  split at h
  · next stream p hr =>
    rw [hr] at hreset
    obtain ⟨⟨p', c'⟩, hstep, rfl⟩ := Option.map_eq_some_iff.mp h
    have hmoves := AltPut.moves_of_step hstep hreset.1 hw.within
    refine hw.advances_of_alt hmoves.progress hmoves.grows hmoves.within
      (hw.worker.mono hmoves.grows) ?_ fun κ hκ => ?_
    · cases p' with
      | some q => exact ⟨hmoves.sound q rfl, hreset.2⟩
      | none => exact hreset.2
    · rw [hr] at hκ
      rcases hκ with hκ | hκ | hκ
      · exact .inr (.inl hκ)
      · rcases hmoves.due κ hκ with hin | ⟨q, rfl, hq⟩
        · exact .inl hin
        · exact .inr (.inr (.inl hq))
      · cases p' with
        | some q => exact .inr (.inr (.inr hκ))
        | none => exact .inr (.inr hκ)
  · next p hr =>
    rw [hr] at hreset
    obtain ⟨⟨p', c'⟩, hstep, rfl⟩ := Option.map_eq_some_iff.mp h
    have hmoves := AltPut.moves_of_step hstep hreset hw.within
    refine hw.advances_of_alt hmoves.progress hmoves.grows hmoves.within
      (hw.worker.mono hmoves.grows) ?_ fun κ hκ => ?_
    · cases p' with
      | some q => exact hmoves.sound q rfl
      | none => trivial
    · rw [hr] at hκ
      rcases hκ with hκ | hκ
      · exact .inr (.inl hκ)
      · rcases hmoves.due κ hκ with hin | ⟨q, rfl, hq⟩
        · exact .inl hin
        · exact .inr (.inr hq)
  · cases h

theorem Live.writeFails {err : String} {applied : DsKey → Bool}
    (h : w.writeFails cfg err applied = some w') : Advances cfg W w w' := by
  have hfail : ∀ p : AltPut, p.Sound cfg .none W w.session.caller.altDs →
      Advances cfg W w { w.setCaller (p.fail cfg applied w.session.caller) with
        reset := .ending (some err) } := by
    intro p hp
    obtain ⟨hprogress, hgrows, hwithin⟩ := AltPut.fail_moves applied hp hw.within
    exact hw.advances_of_alt hprogress hgrows hwithin (hw.worker.mono hgrows) trivial
      fun κ _ => .inr (.inr nofun)
  have hreset := hw.reset
  unfold World.writeFails at h
  split at h
  · next stream p hr =>
    rw [hr] at hreset
    exact Option.some.inj h ▸ hfail p hreset.1
  · next p hr =>
    rw [hr] at hreset
    exact Option.some.inj h ▸ hfail p hreset
  · cases h

/-- **Step.** The reset goes on, or it returns. -/
theorem Live.step {l : Label} (hl : l.Within cfg W) (h : step cfg faults l w = some w') :
    (∃ err, w'.reset = .returned err) ∨ Advances cfg W w w' := by
  have hreset := hw.reset
  cases move_of_step h with
  | put keys fault hidle =>
    refine .inr (hw.advances_of_worker rfl rfl rfl ?_ fun κ hκ => ?_)
    · show (Worker.receive _ keys fault).Sound cfg W _
      rw [Worker.receive, if_pos hw.progress]
      exact AltPut.Sound.start hl
    · rw [hidle] at hκ
      exact hκ.elim
  | work h => exact .inr (hw.work h)
  | workFails keys rest seen b added hworker =>
    refine .inr (hw.advances_of_worker rfl rfl rfl trivial fun κ hκ => ?_)
    rw [hworker] at hκ
    exact nomatch hκ.1
  | answer keys response hworker h =>
    refine .inr (hw.serve (fun κ hκ => ?_) h)
    rw [hworker] at hκ
    exact hκ
  | serve r response hidle h =>
    refine .inr (hw.serve (fun κ hκ => ?_) h)
    rw [hidle] at hκ
    exact hκ
  | start stream hidle hr h | startFails stream e hr =>
    rw [hr] at hreset
    exact hreset.elim
  | read m stream keys hr =>
    rw [hr] at hreset
    refine .inr (hw.advances_of_reset (ResetCids.receive_sound ?_) fun κ hκ =>
      ResetCids.receive_due ?_)
    · rw [← append_cons]
      exact hreset
    · rw [hr] at hκ
      rw [← append_cons]
      exact hκ
  | closed keys hr =>
    rw [hr] at hreset
    refine .inr (hw.advances_of_reset (AltPut.Sound.start fun κ hκ _ => hreset κ ?_)
      fun κ hκ => AltPut.due_start.mpr ⟨rfl, ?_⟩)
    · rwa [append_nil]
    · rw [hr] at hκ
      rwa [ResetCids.Due, append_nil] at hκ
  | write h => exact .inr (hw.write h)
  | writeFails err applied h => exact .inr (hw.writeFails h)
  | cancel stream keys hr =>
    exact .inr (hw.advances_of_reset trivial fun κ _ => nofun)
  | cleanup err hidle hr => exact .inl ⟨err, rfl⟩

end World

end Live

/-! ## A whole reset -/

def Label.Writes (cfg : Config) (κ : DsKey) : Label → Prop
  | read h => keyOf cfg h = κ
  | put keys fault => κ ∈ keys.map (keyOf cfg) ∧ fault.writes κ = true
  | _ => False

section Run

variable {cfg : Config} {faults : CommitFaults} {W : DsKey → Prop} {w w' : World}
  {during : List Label}

/-- **Run.** The reset goes on and nothing is lost, unless it has returned. -/
theorem World.Live.run (κ : DsKey) (hw : World.Live cfg W w)
    (hls : ∀ l ∈ during, l.Within cfg W)
    (h : Trace.run (World.step cfg faults) during w = some w')
    (hnot : ∀ err, w'.reset ≠ .returned err) :
    World.Live cfg W w' ∧ (w.Bound cfg κ → w'.Bound cfg κ) := by
  have hinv := invariant
    (P := fun v => (∃ err, v.reset = .returned err) ∨
      World.Live cfg W v ∧ (w.Bound cfg κ → v.Bound cfg κ))
    (fun l hl v v' hv (hstep : World.step cfg faults l v = some v') => by
      rcases hv with ⟨err, hr⟩ | ⟨hlive, hbound⟩
      · exact .inl ⟨err, World.returned_step hr hstep⟩
      · refine (hlive.step (hls l hl) hstep).imp_right fun hadv => ?_
        exact ⟨hadv.live, fun hκ => hadv.bound κ (hbound hκ)⟩)
    (.inr ⟨hw, id⟩) h
  rcases hinv with ⟨err, hr⟩ | hinv
  · exact (hnot err hr).elim
  · exact hinv

theorem World.not_returned_of_run (h : Trace.run (World.step cfg faults) during w = some w')
    (hnot : ∀ err, w'.reset ≠ .returned err) (err : Option String) : w.reset ≠ .returned err :=
  fun hr => hnot err (invariant (P := fun v => v.reset = .returned err)
    (fun _ _ _ _ hv hstep => returned_step hv hstep) hr h)

theorem World.Live.due_of_put {keys : List Multihash} {fault : AltFault}
    (hw : World.Live cfg W w) (h : World.step cfg faults (.put keys fault) w = some w')
    (hκ : κ ∈ keys.map (keyOf cfg)) (hwrites : fault.writes κ = true) : w'.Bound cfg κ := by
  cases move_of_step h with
  | put keys fault hidle =>
    refine .inr (.inl ?_)
    show (Worker.receive _ keys fault).Due cfg κ
    rw [Worker.receive, if_pos hw.progress]
    exact AltPut.due_start.mpr ⟨hwrites, hκ⟩

/-- **After a reset.** The keystore holds the keys that were read from the stream, and those of the
puts whose alternate write took effect. -/
theorem mem_store_iff (h : resetRun cfg faults during w = some w')
    (hdone : w'.reset = .returned none) (κ : DsKey) :
    κ ∈ w'.session.store.keys ↔ ∃ l ∈ during, l.Writes cfg κ := by
  obtain ⟨w1, w2, hstarted, hrun, hidle, hending, hstore, -⟩ := resetRun_cases h hdone
  have hread : ∀ κ ∈ (during.flatMap Label.reads).map (keyOf cfg),
      ∃ l ∈ during, l.Writes cfg κ := by
    intro κ hκ
    obtain ⟨m, hm, rfl⟩ := mem_map.mp hκ
    obtain ⟨l, hl, hml⟩ := mem_flatMap.mp hm
    cases l with
    | read h =>
      obtain rfl := mem_singleton.mp hml
      exact ⟨_, hl, rfl⟩
    | _ => cases hml
  have hwithin : ∀ l ∈ during, l.Within cfg fun κ => ∃ l ∈ during, l.Writes cfg κ := by
    intro l hl
    cases l with
    | put keys fault => exact fun κ hκ hwrites => ⟨_, hl, hκ, hwrites⟩
    | _ => trivial
  have hlive : w1.Live cfg fun κ => ∃ l ∈ during, l.Writes cfg κ := by
    refine ⟨hstarted.progress, ?_, ?_, ?_⟩
    · rw [hstarted.altDs]
      exact fun κ hκ => absurd hκ not_mem_nil
    · rw [hstarted.worker]
      trivial
    · rw [hstarted.reset]
      exact hread
  have hnot : ∀ err, w2.reset ≠ .returned err := fun err hr => nomatch hending.symm.trans hr
  rw [hstore]
  constructor
  · exact ((hlive.run κ hwithin hrun hnot).1.within κ)
  · rintro ⟨l, hl, hwrites⟩
    -- what the label writes is due from then on, and nothing is due at the end
    have hbound : w2.Bound cfg κ := by
      cases l with
      | read m =>
        refine (hlive.run κ hwithin hrun hnot).2 (.inr (.inr ?_))
        rw [hstarted.reset]
        exact mem_map.mpr ⟨m, mem_flatMap.mpr ⟨_, hl, mem_singleton_self m⟩, hwrites⟩
      | put keys fault =>
        obtain ⟨ls1, ls2, hsplit⟩ := append_of_mem hl
        have hsub : ∀ l ∈ ls1 ++ .put keys fault :: ls2, l ∈ during := fun l hl => hsplit ▸ hl
        rw [hsplit] at hrun
        obtain ⟨v, hrun1, hrest⟩ := run_append.mp hrun
        obtain ⟨v', hput, hrun2⟩ := run_cons.mp hrest
        have hv' := not_returned_of_run hrun2 hnot
        have hlive1 := (hlive.run κ (fun l hl => hwithin l (hsub l (mem_append_left _ hl))) hrun1
          (not_returned_of_run hrest hnot)).1
        rcases hlive1.step (hwithin _ hl) hput with ⟨err, hr⟩ | hadv
        · exact (hv' err hr).elim
        · refine (hadv.live.run κ (fun l hl => hwithin l (hsub l ?_)) hrun2 hnot).2
            (hlive1.due_of_put hput hwrites.1 hwrites.2)
          exact mem_append_right _ (mem_cons_of_mem _ hl)
      | _ => exact hwrites.elim
    rcases hbound with hκ | hκ | hκ
    · exact hκ
    · rw [hidle] at hκ
      exact hκ.elim
    · rw [hending] at hκ
      exact (hκ rfl).elim

end Run

/-! ## Puts and deletions during a reset -/

def Request.Removes (m : Multihash) : Request → Prop
  | put _ => False
  | delete keys => m ∈ keys
  | empty => True

def Label.Removes (m : Multihash) : Label → Prop
  | serve r _ => r.Removes m
  | _ => False

def Label.Touches (cfg : Config) (m : Multihash) : Label → Prop
  | read h => keyOf cfg h = keyOf cfg m
  | put keys _ => keyOf cfg m ∈ keys.map (keyOf cfg)
  | _ => False

theorem Label.Writes.touches {cfg : Config} {m : Multihash} {l : Label}
    (h : l.Writes cfg (keyOf cfg m)) : l.Touches cfg m := by
  cases l with
  | read h' => exact h
  | put keys fault => exact h.1
  | _ => exact h

/-- A put of a key is answered without an error, and the key is not deleted later. -/
def Acknowledged (during : List Label) (m : Multihash) : Prop :=
  ∃ before keys fault serving newKeys after,
    during = before ++ .put keys fault :: (serving ++ .answer (.ok newKeys) :: after) ∧
      (∀ response, .answer response ∉ serving) ∧ m ∈ keys ∧ ∀ l ∈ after, ¬ l.Removes m

/-- **Puts.** Every acknowledged put survives a reset exactly when the keys of all of them were
written to the alternate datastore, by a put or by the reset. -/
theorem putsLast_iff {cfg : Config} {faults : CommitFaults} {during : List Label} {w w' : World}
    (h : resetRun cfg faults during w = some w') (hdone : w'.reset = .returned none) :
    (∀ m, Acknowledged during m → keyOf cfg m ∈ w'.session.store.keys) ↔
      ∀ m, Acknowledged during m → ∃ l ∈ during, l.Writes cfg (keyOf cfg m) :=
  forall_congr' fun m => imp_congr_right fun _ => mem_store_iff h hdone (keyOf cfg m)

/-- A key is deleted without an error, and neither put nor read from the stream afterwards. -/
def Deleted (cfg : Config) (during before : List Label) (m : Multihash) : Prop :=
  ∃ r answer after, during = before ++ .serve r (.ok answer) :: after ∧ r.Removes m ∧
    ∀ l ∈ after, ¬ l.Touches cfg m

/-- **Deletions.** Every deletion survives a reset exactly when none of the keys had been written to
the alternate datastore before it. -/
theorem deletesLast_iff {cfg : Config} {faults : CommitFaults} {during : List Label} {w w' : World}
    (h : resetRun cfg faults during w = some w') (hdone : w'.reset = .returned none) :
    (∀ before m, Deleted cfg during before m → keyOf cfg m ∉ w'.session.store.keys) ↔
      ∀ before m, Deleted cfg during before m → ∀ l ∈ before, ¬ l.Writes cfg (keyOf cfg m) := by
  refine forall_congr' fun before => forall_congr' fun m => forall_congr' fun hdel => ?_
  obtain ⟨r, answer, after, rfl, -, hafter⟩ := hdel
  rw [mem_store_iff h hdone]
  constructor
  · exact fun hnot l hl hwrites => hnot ⟨l, mem_append_left _ hl, hwrites⟩
  · rintro hbefore ⟨l, hl, hwrites⟩
    rcases mem_append.mp hl with hl | hl
    · exact hbefore l hl hwrites
    · rcases mem_cons.mp hl with rfl | hl
      · exact hwrites
      · exact hafter l hl hwrites.touches

/-! ## A put that is lost -/

/-- The alternate write of a put fails; the put is answered without an error. -/
def lostPut : List Label :=
  [.put [[1]] .early, .workFails, .work, .work, .answer (.ok [[1]]), .closed, .write, .write]

theorem acknowledged_key_lost :
    ∃ w, resetRun defaultConfig .none lostPut (World.new []) = some w ∧
      w.reset = .returned none ∧ Acknowledged lostPut [1] ∧
      keyOf defaultConfig [1] ∉ w.session.store.keys := by
  refine exists_observed reset (.returned none) (by decide +kernel) fun w hw hdone => ?_
  refine ⟨hdone, ?_, ?_⟩
  · exact ⟨[], [[1]], .early, [.workFails, .work, .work], [[1]], [.closed, .write, .write], rfl,
      by simp, mem_singleton_self _, by simp [Label.Removes]⟩
  · rw [mem_store_iff hw hdone]
    simp [lostPut, Label.Writes, AltFault.writes]

def keptPut : List Label :=
  [.put [[1]] .none, .work, .work, .work, .answer (.ok [[1]]), .closed, .write, .write]

theorem putsLast_keptPut :
    ∃ w, resetRun defaultConfig .none keptPut (World.new []) = some w ∧
      w.reset = .returned none ∧
      ∀ m, Acknowledged keptPut m → keyOf defaultConfig m ∈ w.session.store.keys := by
  refine exists_observed reset (.returned none) (by decide +kernel) fun w hw hdone => ?_
  refine ⟨hdone, (putsLast_iff hw hdone).mpr fun m hm => ?_⟩
  obtain ⟨before, keys, fault, serving, newKeys, after, heq, -, hmem, -⟩ := hm
  have hput : .put keys fault ∈ keptPut := heq ▸ mem_append_right _ mem_cons_self
  obtain ⟨rfl, rfl⟩ : keys = [[1]] ∧ fault = .none := by simpa [keptPut] using hput
  exact ⟨_, hput, mem_map_of_mem hmem, rfl⟩

/-! ## A deletion that is undone -/

def undoneDelete : List Label :=
  [.read [1], .serve (.delete [[1]]) (.ok []), .closed, .write, .write, .write]

theorem deleted_key_comes_back :
    ∃ w, resetRun defaultConfig .none undoneDelete (World.new [[1]]) = some w ∧
      w.reset = .returned none ∧ Deleted defaultConfig undoneDelete [.read [1]] [1] ∧
      keyOf defaultConfig [1] ∈ w.session.store.keys := by
  refine exists_observed reset (.returned none) (by decide +kernel) fun w hw hdone => ?_
  refine ⟨hdone, ?_, ?_⟩
  · exact ⟨.delete [[1]], [], [.closed, .write, .write, .write], rfl, mem_singleton_self _,
      by simp [Label.Touches]⟩
  · exact (mem_store_iff hw hdone _).mpr ⟨.read [1], mem_cons_self, rfl⟩

def earlyDelete : List Label := [.serve (.delete [[1]]) (.ok []), .closed, .write, .write]

theorem deletesLast_earlyDelete :
    ∃ w, resetRun defaultConfig .none earlyDelete (World.new []) = some w ∧
      w.reset = .returned none ∧
      ∀ before m, Deleted defaultConfig earlyDelete before m →
        keyOf defaultConfig m ∉ w.session.store.keys := by
  refine exists_observed reset (.returned none) (by decide +kernel) fun w hw hdone => ?_
  refine ⟨hdone, (deletesLast_iff hw hdone).mpr ?_⟩
  rintro before m ⟨r, answer, after, heq, -⟩ l hl
  have hmem : l ∈ earlyDelete := heq ▸ mem_append_left _ hl
  have hnone : ∀ l ∈ earlyDelete, ¬ l.Writes defaultConfig (keyOf defaultConfig m) := by
    simp [earlyDelete, Label.Writes]
  exact hnone l hmem

end KadDht.Keystore
