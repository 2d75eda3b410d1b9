import KadDht.Keystore.ResetKeys
import KadDht.Keystore.Size

/-!
# Keystore — the size after a reset

The worker and the reset write to the alternate datastore at the same time. Both check a key, add to
the common size, and commit; nothing keeps a key that the one has checked from being checked by the
other before it is committed.
-/

namespace KadDht.Keystore

open DsM List

/-! ## Counting the writes -/

section Counts

variable {cfg : Config} {c c' : Resettable} {d : Datastore} {P Q : DsKey → Prop} {p : AltPut}
  {p' : Option AltPut}

theorem mhToBit256_eq_of_keyOf {m m' : Multihash} (h : keyOf cfg m = keyOf cfg m') :
    mhToBit256 m = mhToBit256 m' := dsKey_injective cfg.bits_aligned h

namespace AltPut

def batch : AltPut → List Multihash
  | check _ _ b _ => b
  | commit b => b

/-- What was counted but is not committed yet. -/
def counted : AltPut → Nat
  | check _ _ _ _ => 0
  | commit b => b.length

/-- Before the commit, the keys of the batch were seen, and their number is to be added. -/
def Tallied : AltPut → Prop
  | check _ seen b added => (∀ m ∈ b, mhToBit256 m ∈ seen) ∧ added = b.length
  | commit _ => True

/-- The batch holds distinct new keys among the given ones. -/
structure Counts (cfg : Config) (P : DsKey → Prop) (d : Datastore) (p : AltPut) : Prop where
  pending : ∀ κ ∈ p.pending.map (keyOf cfg), P κ
  nodup : (p.batch.map (keyOf cfg)).Nodup
  fresh : ∀ κ ∈ p.batch.map (keyOf cfg), κ ∉ d.keys
  tallied : p.Tallied

theorem Counts.start {keys : List Multihash} (h : ∀ κ ∈ keys.map (keyOf cfg), P κ) :
    (check keys [] [] 0).Counts cfg P d := by
  refine ⟨?_, nodup_nil, fun κ hκ => absurd hκ not_mem_nil, fun m hm => absurd hm not_mem_nil, rfl⟩
  rw [AltPut.pending, append_nil]
  exact h

theorem batch_subset_pending (p : AltPut) : p.batch ⊆ p.pending := by
  cases p with
  | check keys seen b added => exact subset_append_right keys b
  | commit b => exact fun _ h => h

/-- The writes of others do not matter when they write other keys. -/
theorem Counts.frame {d' : Datastore} (hp : p.Counts cfg P d)
    (hd : ∀ κ ∈ d'.keys, κ ∈ d.keys ∨ ¬ P κ) : p.Counts cfg P d' := by
  refine { hp with fresh := fun κ hκ hmem => ?_ }
  rcases hd κ hmem with hold | hother
  · exact hp.fresh κ hκ hold
  · exact hother (hp.pending κ (map_subset _ p.batch_subset_pending hκ))

structure Adds (cfg : Config) (P : DsKey → Prop) (p : AltPut) (c : Resettable)
    (p' : Option AltPut) (c' : Resettable) : Prop where
  progress : c'.resetInProgress = c.resetInProgress
  others : ∀ κ ∈ c'.altDs.keys, κ ∈ c.altDs.keys ∨ P κ
  counts : ∀ q, p' = some q → q.Counts cfg P c'.altDs
  total : ∃ n, c'.altSize = c.altSize + Int64.ofNat n ∧
    c.altDs.keys.length + p.counted + n = c'.altDs.keys.length + (p'.map counted).getD 0

/-- A check changes nothing but the batch. -/
theorem adds_check {keys : List Multihash} {seen : List Bit256} {b : List Multihash} {added : Nat}
    {q : AltPut} (hq : q.Counts cfg P c.altDs) (hcounted : q.counted = 0) :
    Adds cfg P (check keys seen b added) c (some q) c := by
  refine ⟨rfl, fun κ hκ => .inl hκ, fun _ heq => Option.some.inj heq ▸ hq, 0, ?_, ?_⟩
  · rw [show Int64.ofNat 0 = 0 from rfl, Int64.add_zero]
  · show _ + 0 + 0 = _ + q.counted
    rw [hcounted]
    rfl

theorem length_keys_putAll {b : List Multihash} (hnodup : (b.map (keyOf cfg)).Nodup)
    (hfresh : ∀ κ ∈ b.map (keyOf cfg), κ ∉ d.keys) :
    (Batch.applyTo (b.map (putOp cfg)) d).keys.length = d.keys.length + b.length := by
  have hall : (d.keys ++ (b.map fun m => (keyOf cfg m, m)).map Prod.fst).Nodup := by
    rw [map_map]
    exact List.Nodup.append d.nodup hnodup fun κ hκ hb => hfresh κ hb hκ
  have hlength := Batch.length_keys_putAll (b.map fun m => (keyOf cfg m, m)) d hall
  rw [map_map, length_map] at hlength
  exact hlength

/-- What a step stores it leaves to be counted by the next one, which adds it to the size. -/
theorem counts_step (h : p.step cfg .none c = some (p', c')) (hp : p.Counts cfg P c.altDs) :
    Adds cfg P p c p' c' := by
  cases goes_of_step h with
  | seen hmem =>
    obtain ⟨hseen, hadded⟩ := hp.tallied
    exact adds_check ⟨fun κ hκ => hp.pending κ (mem_cons_of_mem _ hκ), hp.nodup, hp.fresh,
      hseen, hadded⟩ rfl
  | stored hnot hstored =>
    obtain ⟨hseen, hadded⟩ := hp.tallied
    exact adds_check ⟨fun κ hκ => hp.pending κ (mem_cons_of_mem _ hκ), hp.nodup, hp.fresh,
      fun x hx => mem_cons_of_mem _ (hseen x hx), hadded⟩ rfl
  | @taken m keys seen b added hnot habsent =>
    obtain ⟨hseen, hadded⟩ := hp.tallied
    refine adds_check ⟨fun κ hκ => hp.pending κ ?_, ?_, ?_, ?_, ?_⟩ rfl
    · simp only [pending, map_append, mem_append, map_cons, map_nil, mem_cons] at hκ ⊢
      tauto
    · -- the key was not seen, and those in the batch were
      show ((b ++ [m]).map (keyOf cfg)).Nodup
      rw [map_append, map_singleton, ← concat_eq_append]
      refine hp.nodup.concat fun hmem => ?_
      obtain ⟨x, hx, heq⟩ := mem_map.mp hmem
      exact hnot (mhToBit256_eq_of_keyOf heq ▸ hseen x hx)
    · intro κ hκ
      rw [batch, map_append] at hκ
      rcases mem_append.mp hκ with hκ | hκ
      · exact hp.fresh κ hκ
      · exact mem_singleton.mp hκ ▸ habsent
    · intro x hx
      rcases mem_append.mp hx with hx | hx
      · exact mem_cons_of_mem _ (hseen x hx)
      · exact mem_singleton.mp hx ▸ mem_cons_self
    · rw [hadded, length_append, length_singleton]
  | @counted seen b added hearly =>
    obtain ⟨hseen, hadded⟩ := hp.tallied
    refine ⟨rfl, fun κ hκ => .inl hκ, fun q hq => ?_, added, rfl, ?_⟩
    · cases hq
      exact { hp with tallied := trivial }
    · rw [hadded]
      rfl
  | @committed b =>
    have hall : (b.filter fun h => AltFault.none.writes (keyOf cfg h)) = b :=
      filter_eq_self.mpr fun _ _ => rfl
    refine ⟨rfl, fun κ hκ => ?_, fun q hq => ?_, 0, ?_, ?_⟩
    · rw [hall] at hκ
      exact (mem_keys_putAll.mp hκ).imp_right (hp.pending κ)
    · cases hq
    · rw [show Int64.ofNat 0 = 0 from rfl, Int64.add_zero]
    · rw [hall]
      show _ = (Batch.applyTo (b.map (putOp cfg)) c.altDs).keys.length + 0
      rw [length_keys_putAll (b := b) hp.nodup hp.fresh]
      rfl

end AltPut

end Counts

/-! ## Different keys -/

def Worker.Counts (cfg : Config) (P : DsKey → Prop) (d : Datastore) : Worker → Prop
  | altPut _ fault p => fault = .none ∧ p.Counts cfg P d
  | refresh _ => False
  | storeSize _ _ => False
  | _ => True

def Worker.counted : Worker → Nat
  | altPut _ _ p => p.counted
  | _ => 0

/-- What a reset that has not failed writes is counted. -/
def ResetCids.Counts (cfg : Config) (Q : DsKey → Prop) (d : Datastore) : ResetCids → Prop
  | reading stream keys => ∀ κ ∈ (keys ++ stream).map (keyOf cfg), Q κ
  | writing stream p => p.Counts cfg Q d ∧ ∀ κ ∈ stream.map (keyOf cfg), Q κ
  | final p => p.Counts cfg Q d
  | ending none => True
  | _ => False

def ResetCids.counted : ResetCids → Nat
  | writing _ p => p.counted
  | final p => p.counted
  | _ => 0

def ResetCids.Over : ResetCids → Prop
  | ending err => err ≠ none
  | returned _ => True
  | _ => False

/-- A label by which no alternate write fails; a put has keys among the given ones. -/
def Label.Counts (cfg : Config) (P : DsKey → Prop) : Label → Prop
  | put keys fault => fault = .none ∧ ∀ κ ∈ keys.map (keyOf cfg), P κ
  | _ => True

section Exact

variable {cfg : Config} {faults : CommitFaults} {P Q : DsKey → Prop} {d d' : Datastore}
  {w w' : World} {l : Label}

theorem Worker.Counts.frame {k : Worker} (hk : k.Counts cfg P d)
    (hd : ∀ κ ∈ d'.keys, κ ∈ d.keys ∨ ¬ P κ) : k.Counts cfg P d' := by
  cases k with
  | altPut keys fault p => exact ⟨hk.1, hk.2.frame hd⟩
  | _ => exact hk

theorem ResetCids.Counts.frame {r : ResetCids} (hr : r.Counts cfg Q d)
    (hd : ∀ κ ∈ d'.keys, κ ∈ d.keys ∨ ¬ Q κ) : r.Counts cfg Q d' := by
  cases r with
  | writing stream p => exact ⟨hr.1.frame hd, hr.2⟩
  | final p => exact AltPut.Counts.frame hr hd
  | ending err =>
    cases err with
    | none => trivial
    | some e => exact hr
  | _ => exact hr

theorem ResetCids.receive_counts {stream keys : List Multihash}
    (h : ∀ κ ∈ (keys ++ stream).map (keyOf cfg), Q κ) :
    (ResetCids.receive cfg stream keys).Counts cfg Q d ∧
      (ResetCids.receive cfg stream keys).counted = 0 := by
  unfold ResetCids.receive
  split
  · rw [map_append] at h
    exact ⟨⟨AltPut.Counts.start fun κ hκ => h κ (mem_append_left _ hκ),
      fun κ hκ => h κ (mem_append_right _ hκ)⟩, rfl⟩
  · exact ⟨h, rfl⟩

namespace World

/-- A reset is in progress, the worker and the reset write their own keys, and the size is the
number of keys that are counted. -/
structure Exact (cfg : Config) (P Q : DsKey → Prop) (w : World) : Prop where
  progress : w.session.caller.resetInProgress = true
  worker : w.worker.Counts cfg P w.session.caller.altDs
  reset : w.reset.Counts cfg Q w.session.caller.altDs
  size : w.session.caller.altSize =
    Int64.ofNat (w.session.caller.altDs.keys.length + w.worker.counted + w.reset.counted)

theorem Exact.of_worker (hw : Exact cfg P Q w) {size : Int64}
    (hcaller : w'.session.caller = { w.session.caller with size := size })
    (hreset : w'.reset = w.reset) (hworker : w'.worker.Counts cfg P w.session.caller.altDs)
    (hcounted : w'.worker.counted = w.worker.counted) : Exact cfg P Q w' := by
  refine ⟨?_, ?_, ?_, ?_⟩
  · rw [hcaller]
    exact hw.progress
  · rw [hcaller]
    exact hworker
  · rw [hcaller, hreset]
    exact hw.reset
  · rw [hcaller, hreset, hcounted]
    exact hw.size

variable {reset : ResetCids}

theorem Exact.of_reset (hw : Exact cfg P Q w)
    (hreset : reset.Counts cfg Q w.session.caller.altDs)
    (hcounted : reset.counted = w.reset.counted) :
    Exact cfg P Q { w with reset := reset } :=
  ⟨hw.progress, hw.worker, hreset, hcounted ▸ hw.size⟩

theorem Exact.of_adds {R : DsKey → Prop} {p : AltPut} {p' : Option AltPut} {c : Resettable}
    {worker : Worker} (hw : Exact cfg P Q w) (others : Nat)
    (hadds : AltPut.Adds cfg R p w.session.caller p' c)
    (hworker : worker.Counts cfg P c.altDs) (hreset : reset.Counts cfg Q c.altDs)
    (hbefore : w.worker.counted + w.reset.counted = p.counted + others)
    (hafter : worker.counted + reset.counted = (p'.map AltPut.counted).getD 0 + others) :
    Exact cfg P Q { w.setCaller c with worker := worker, reset := reset } := by
  obtain ⟨n, hsize, htotal⟩ := hadds.total
  refine ⟨hadds.progress.trans hw.progress, hworker, hreset, ?_⟩
  show c.altSize = Int64.ofNat (c.altDs.keys.length + worker.counted + reset.counted)
  rw [hsize, hw.size, ← Int64.ofNat_add]
  congr 1
  omega

theorem Exact.work (hdisjoint : ∀ κ, P κ → ¬ Q κ) (hw : Exact cfg P Q w)
    (h : w.work cfg = some w') : Exact cfg P Q w' := by
  have hworker := hw.worker
  unfold World.work at h
  split at h
  · next keys fault p hk =>
    rw [hk] at hworker
    obtain ⟨rfl, hcounts⟩ := hworker
    obtain ⟨⟨p', c'⟩, hstep, rfl⟩ := Option.map_eq_some_iff.mp h
    have hadds := AltPut.counts_step hstep hcounts
    have hothers : ∀ κ ∈ c'.altDs.keys, κ ∈ w.session.caller.altDs.keys ∨ ¬ Q κ :=
      fun κ hκ => (hadds.others κ hκ).imp_right (hdisjoint κ)
    refine hw.of_adds w.reset.counted hadds ?_ (hw.reset.frame hothers) ?_ ?_
    · cases p' with
      | some q => exact ⟨rfl, hadds.counts q rfl⟩
      | none => trivial
    · rw [hk]
      rfl
    · cases p' with
      | some q => rfl
      | none => rfl
  · next keys hk =>
    rw [hk] at hworker
    exact hworker.elim
  · next keys size hk =>
    rw [hk] at hworker
    exact hworker.elim
  · cases h

theorem Exact.of_write {p : AltPut} {p' : Option AltPut} {c : Resettable}
    (hdisjoint : ∀ κ, P κ → ¬ Q κ) (hw : Exact cfg P Q w)
    (hadds : AltPut.Adds cfg Q p w.session.caller p' c) (hbefore : w.reset.counted = p.counted)
    (hreset : reset.Counts cfg Q c.altDs)
    (hafter : reset.counted = (p'.map AltPut.counted).getD 0) :
    Exact cfg P Q { w.setCaller c with reset := reset } := by
  have hothers : ∀ κ ∈ c.altDs.keys, κ ∈ w.session.caller.altDs.keys ∨ ¬ P κ :=
    fun κ hκ => (hadds.others κ hκ).imp_right fun hq hp => hdisjoint κ hp hq
  apply hw.of_adds w.worker.counted hadds (hw.worker.frame hothers) hreset
  · rw [hbefore, Nat.add_comm]
  · show w.worker.counted + reset.counted = _
    rw [hafter, Nat.add_comm]

theorem Exact.write (hdisjoint : ∀ κ, P κ → ¬ Q κ) (hw : Exact cfg P Q w)
    (h : w.write cfg = some w') : Exact cfg P Q w' := by
  have hreset := hw.reset
  unfold World.write at h
  split at h
  · next stream p hr =>
    rw [hr] at hreset
    obtain ⟨⟨p', c'⟩, hstep, rfl⟩ := Option.map_eq_some_iff.mp h
    have hadds := AltPut.counts_step hstep hreset.1
    apply hw.of_write hdisjoint hadds (by rw [hr]; rfl)
    · cases p' with
      | some q => exact ⟨hadds.counts q rfl, hreset.2⟩
      | none => exact hreset.2
    · cases p' with
      | some q => rfl
      | none => rfl
  · next p hr =>
    rw [hr] at hreset
    obtain ⟨⟨p', c'⟩, hstep, rfl⟩ := Option.map_eq_some_iff.mp h
    have hadds := AltPut.counts_step hstep hreset
    apply hw.of_write hdisjoint hadds (by rw [hr]; rfl)
    · cases p' with
      | some q => exact hadds.counts q rfl
      | none => trivial
    · cases p' with
      | some q => rfl
      | none => rfl
  · cases h

theorem over_step (hr : w.reset.Over) (h : step cfg faults l w = some w') : w'.reset.Over := by
  rcases reset_step h with ⟨heq, -⟩ | hstep
  · exact heq ▸ hr
  · generalize w.reset = r at hr hstep
    generalize w'.reset = r' at hstep
    cases hstep with
    | cleanup err => trivial
    | _ => exact hr.elim

/-- **Step.** The size stays right until the reset is over. -/
theorem Exact.step (hdisjoint : ∀ κ, P κ → ¬ Q κ) (hw : Exact cfg P Q w) (hl : l.Counts cfg P)
    (h : step cfg faults l w = some w') : w'.reset.Over ∨ Exact cfg P Q w' := by
  have hworker := hw.worker
  have hreset := hw.reset
  cases move_of_step h with
  | put keys fault hidle =>
    obtain ⟨rfl, hkeys⟩ := hl
    have hreceive : Worker.receive w.session.caller keys .none =
        .altPut keys .none (.check keys [] [] 0) := if_pos hw.progress
    refine .inr (hw.of_worker rfl rfl ?_ ?_)
    · rw [hreceive]
      exact ⟨rfl, AltPut.Counts.start hkeys⟩
    · rw [hreceive, hidle]
      rfl
  | work h => exact .inr (hw.work hdisjoint h)
  | workFails keys rest seen b added hk =>
    rw [hk] at hworker
    exact nomatch hworker.1
  | answer keys response hk h =>
    obtain ⟨size, hcaller, hidle, hsame⟩ := serve_cases h
    refine .inr (hw.of_worker hcaller hsame ?_ ?_)
    · rw [hidle]
      trivial
    · rw [hidle, hk]
      rfl
  | serve r response hk h =>
    obtain ⟨size, hcaller, hidle, hsame⟩ := serve_cases h
    refine .inr (hw.of_worker hcaller hsame ?_ ?_)
    · rw [hidle]
      trivial
    · rw [hidle, hk]
  | start stream hidle hr h =>
    rw [hr] at hreset
    exact hreset.elim
  | startFails stream e hr | cleanup err hidle hr => exact .inl trivial
  | read m stream keys hr =>
    rw [hr] at hreset
    rw [ResetCids.Counts, append_cons] at hreset
    obtain ⟨hcounts, hcounted⟩ := ResetCids.receive_counts (d := w.session.caller.altDs) hreset
    refine .inr (hw.of_reset hcounts ?_)
    rw [hcounted, hr]
    rfl
  | closed keys hr =>
    rw [hr] at hreset
    refine .inr (hw.of_reset (AltPut.Counts.start fun κ hκ => hreset κ ?_) ?_)
    · rwa [append_nil]
    · rw [hr]
      rfl
  | write h => exact .inr (hw.write hdisjoint h)
  | writeFails err applied h =>
    rw [reset_of_writeFails h]
    exact .inl nofun
  | cancel stream keys hr => exact .inl nofun

end World

/-- **Run.** When the worker and the reset write different keys, the size after the reset is
right. -/
theorem size_of_disjoint {during : List Label} (hdisjoint : ∀ κ, P κ → ¬ Q κ)
    (hls : ∀ l ∈ during, l.Counts cfg P)
    (hreads : ∀ κ ∈ (during.flatMap Label.reads).map (keyOf cfg), Q κ)
    (h : resetRun cfg faults during w = some w') (hdone : w'.reset = .returned none) :
    w'.session.caller.size = Int64.ofNat w'.session.store.keys.length := by
  obtain ⟨w1, w2, hstarted, hrun, hidle, hending, hstore, hsize⟩ := resetRun_cases h hdone
  have hexact : w1.Exact cfg P Q := by
    refine ⟨hstarted.progress, ?_, ?_, ?_⟩
    · rw [hstarted.worker]
      trivial
    · rw [hstarted.reset]
      exact hreads
    · rw [hstarted.altDs, hstarted.altSize, hstarted.worker, hstarted.reset]
      rfl
  have hinv := Trace.invariant (P := fun v => v.reset.Over ∨ v.Exact cfg P Q)
    (fun l hl v v' hv (hstep : World.step cfg faults l v = some v') => by
      rcases hv with hover | hexact
      · exact .inl (World.over_step hover hstep)
      · exact hexact.step hdisjoint (hls l hl) hstep)
    (.inr hexact) hrun
  rcases hinv with hover | hexact2
  · rw [hending] at hover
    exact (hover rfl).elim
  · have htotal := hexact2.size
    rw [hidle, hending] at htotal
    rw [hstore, hsize]
    exact htotal

end Exact

end KadDht.Keystore
