import KadDht.Providers.Records

/-!
# Providers — live providers are kept

A record that is still valid is never deleted: a request deletes what is too old when it reads it,
and a round of garbage collection what was too old when the timer fired. The results of a round may
be out of date, but a record that was written since the query is in `gcSkip`.

* **`live_run`** — a request returns every provider that is still valid, each once.
-/

namespace KadDht.Providers

open List Datastore Manager

/-! ## What is known -/

inductive Request where
  | addProvider (k : Bytes) (p : PeerId) (now : Int64)
  | getProviders (k : Bytes) (now : Int64)

def Label.request : Label → Option Request
  | addProvider k p now _ => some (.addProvider k p now)
  | getProviders k now _ _ => some (.getProviders k now)
  | _ => none

abbrev Times := Bytes → PeerId → Option Int64

def Request.learn (times : Times) : Request → Times
  | addProvider k p now => fun k' p' => if k' = k ∧ p' = p then some now else times k' p'
  | getProviders _ _ => times

def Label.learn (times : Times) (l : Label) : Times := l.request.elim times (Request.learn times)

def known (times : Times) (es : List Label) : Times := es.foldl Label.learn times

def Label.refresh (fresh : Bytes → PeerId → Bool) : Label → Bytes → PeerId → Bool
  | gcStart _ => fun _ _ => false
  | addProvider k p _ _ => fun k' p' => if k' = k ∧ p' = p then true else fresh k' p'
  | _ => fresh

def refreshed (es : List Label) : Bytes → PeerId → Bool :=
  es.foldl Label.refresh fun _ _ => false

/-- Nothing fails, and neither keys nor peer identifiers are empty. -/
def Label.Clean : Label → Prop
  | addProvider k p _ putFails => putFails = false ∧ k ≠ [] ∧ p ≠ []
  | getProviders k _ _ faults => faults = .none ∧ k ≠ []
  | gcStart queryFails => queryFails = false
  | gcResult _ resultFails deleteFails => resultFails = false ∧ deleteFails = false
  | _ => True

def clock (es : List Label) : List Int64 := es.filterMap Label.time

theorem refreshed_concat (es : List Label) (l : Label) :
    refreshed (es ++ [l]) = l.refresh (refreshed es) := by
  rw [refreshed, foldl_append]
  rfl

theorem clock_cons (l : Label) (es : List Label) : clock (l :: es) = l.time.toList ++ clock es := by
  rw [clock]
  cases htime : l.time with
  | none => rw [filterMap_cons_none htime]; rfl
  | some now => rw [filterMap_cons_some htime]; rfl

/-! ## The invariant -/

variable {validity : Int64} {times : Times} {readings : List Int64} {s s' : Manager} {l : Label}
  {k : Bytes} {p : PeerId} {t now : Int64} {pset : ProviderSet}

def Gone (validity : Int64) (readings : List Int64) (t : Int64) : Prop :=
  ∃ now ∈ readings, expired validity now t = true

theorem Gone.append (h : Gone validity readings t) (more : List Int64) :
    Gone validity (readings ++ more) t := by
  obtain ⟨now, hnow, hexpired⟩ := h
  exact ⟨now, mem_append_left more hnow, hexpired⟩

/-- What was too old at a reading of the clock is too old later. -/
theorem not_gone (hnow : ∀ t ∈ readings, t ≤ now) (hvalid : expired validity now t = false) :
    ¬ Gone validity readings t := by
  rintro ⟨now', hnow', hgone⟩
  rw [expired_mono (hnow now' hnow') hgone] at hvalid
  cases hvalid

theorem learn_self (times : Times) (k : Bytes) (p : PeerId) (now : Int64) :
    (Request.addProvider k p now).learn times k p = some now := if_pos ⟨rfl, rfl⟩

theorem learn_of_ne {k' : Bytes} {p' : PeerId} (h : ¬ (k' = k ∧ p' = p)) :
    (Request.addProvider k p now).learn times k' p' = times k' p' := if_neg h

theorem updateCache_of_none (h : s.cache k = none) : s.updateCache k p now = s.cache := by
  rw [updateCache, h]

theorem updateCache_of_some (h : s.cache k = some pset) :
    s.updateCache k p now = Function.update s.cache k (some (pset.setVal p now)) := by
  rw [updateCache, h]

theorem mem_updateCache {k' : Bytes} {p' : PeerId} (hcache : s.updateCache k p now k' = some pset)
    (h : (k' = k ∧ p' = p) ∨ ∀ pset, s.cache k' = some pset → p' ∈ pset.providers) :
    p' ∈ pset.providers := by
  cases hcached : s.cache k with
  | none =>
    rw [updateCache_of_none hcached] at hcache
    rcases h with ⟨rfl, -⟩ | h
    · rw [hcached] at hcache
      cases hcache
    · exact h pset hcache
  | some pset0 =>
    rw [updateCache_of_some hcached] at hcache
    by_cases hk : k' = k
    · subst hk
      rw [Function.update_self] at hcache
      cases hcache
      rw [ProviderSet.mem_setVal]
      exact h.imp (fun hp => hp.2) fun h => h pset0 hcached
    · rw [Function.update_of_ne hk] at hcache
      exact (h.resolve_left fun hsame => hk hsame.1) pset hcache

section Kept

variable [Base32Lib]

/-- Every provider that is known is where it is looked for, or it is too old. -/
structure Keeps (validity : Int64) (times : Times) (readings : List Int64) (s : Manager) :
    Prop where
  nonempty : ∀ k p t, times k p = some t → k ≠ [] ∧ p ≠ []
  record : ∀ k p t, times k p = some t →
    (recordKey k p, timeValue t) ∈ s.dstore.entries ∨ Gone validity readings t
  result : ∀ g, s.gcQuery = some g → ∀ k p t, times k p = some t →
    ∀ v, (recordKey k p, v) ∈ g.results →
      g.gcSkip (mkProvKeyFor k p) = true ∨ v = timeValue t ∨ Gone validity readings t
  cached : ∀ k pset, s.cache k = some pset → ∀ p t, times k p = some t →
    p ∈ pset.providers ∨ Gone validity readings t
  ticked : ∀ t, s.gcTimer = .fired t → t ∈ readings
  gcTime : ∀ g, s.gcQuery = some g → g.gcTime ∈ readings

theorem Keeps.append (h : Keeps validity times readings s) (more : List Int64) :
    Keeps validity times (readings ++ more) s where
  nonempty := h.nonempty
  record k p t ht := (h.record k p t ht).imp_right fun hgone => hgone.append more
  result g hg k p t ht v hv := by
    rcases h.result g hg k p t ht v hv with hskip | hvalue | hgone
    · exact .inl hskip
    · exact .inr (.inl hvalue)
    · exact .inr (.inr (hgone.append more))
  cached k pset hcache p t ht := (h.cached k pset hcache p t ht).imp_right fun hgone =>
    hgone.append more
  ticked t ht := mem_append_left more (h.ticked t ht)
  gcTime g hg := mem_append_left more (h.gcTime g hg)

theorem keeps_start (d : Datastore) : Keeps validity (fun _ _ => none) [] (.start d) where
  nonempty k p t ht := by cases ht
  record k p t ht := by cases ht
  result g hg := by cases hg
  cached k pset hcache := by cases hcache
  ticked t ht := by cases ht
  gcTime g hg := by cases hg

/-! ## Steps -/

/-- The set that a request reads has every provider that is known and valid. -/
theorem Keeps.mem_load (h : Keeps validity times readings s) (order : MapOrder (DsKey × Bytes))
    (ht : times k p = some t) (hvalid : expired validity now t = false) :
    p ∈ (loadProviderSet validity now order .none s.dstore k).2.providers ∨
      Gone validity readings t := by
  obtain ⟨hk, hp⟩ := h.nonempty k p t ht
  refine (h.record k p t ht).imp_left fun hrecord => ?_
  refine mem_load_providers.mpr ⟨_, (mem_query_key hk hp hk).mpr ⟨hrecord, rfl⟩, t, ?_⟩
  rw [readRecord_record hk hp, hvalid]
  rfl

section

variable (h : Keeps validity times readings s)
include h

/-- The record of a provider that is added is skipped by a collection that is running. -/
theorem Keeps.add (hk : k ≠ []) (hp : p ≠ []) :
    Keeps validity ((Request.addProvider k p now).learn times) readings
      { s with
        cache := s.updateCache k p now
        dstore := s.dstore.put (recordKey k p) (timeValue now)
        gcQuery := s.gcQuery.map fun g =>
          { g with gcSkip := Function.update g.gcSkip (mkProvKeyFor k p) true } } := by
  constructor
  case nonempty =>
    intro k' p' t ht
    by_cases hsame : k' = k ∧ p' = p
    · obtain ⟨rfl, rfl⟩ := hsame
      exact ⟨hk, hp⟩
    · rw [learn_of_ne hsame] at ht
      exact h.nonempty k' p' t ht
  case record =>
    intro k' p' t ht
    by_cases hsame : k' = k ∧ p' = p
    · obtain ⟨rfl, rfl⟩ := hsame
      rw [learn_self] at ht
      cases ht
      exact .inl (mem_entries_put.mpr (.inr rfl))
    · rw [learn_of_ne hsame] at ht
      obtain ⟨hk', hp'⟩ := h.nonempty k' p' t ht
      refine (h.record k' p' t ht).imp_left fun hrecord => ?_
      exact mem_entries_put.mpr (.inl ⟨hrecord, fun heq => hsame (recordKey_inj hk' hp' hk hp heq)⟩)
  case result =>
    intro g hg k' p' t ht v hv
    obtain ⟨g0, hg0, rfl⟩ := Option.map_eq_some_iff.mp hg
    by_cases hsame : k' = k ∧ p' = p
    · obtain ⟨rfl, rfl⟩ := hsame
      exact .inl (Function.update_self ..)
    · rw [learn_of_ne hsame] at ht
      refine (h.result g0 hg0 k' p' t ht v hv).imp_left fun hskip => ?_
      by_cases hpath : mkProvKeyFor k' p' = mkProvKeyFor k p
      · rw [hpath]
        exact Function.update_self ..
      · exact (Function.update_of_ne hpath ..).trans hskip
  case cached =>
    intro k' pset hcache p' t ht
    by_cases hsame : k' = k ∧ p' = p
    · exact .inl (mem_updateCache hcache (.inl hsame))
    · rw [learn_of_ne hsame] at ht
      by_cases hgone : Gone validity readings t
      · exact .inr hgone
      · refine .inl (mem_updateCache hcache (.inr fun pset0 hcache0 => ?_))
        exact (h.cached k' pset0 hcache0 p' t ht).resolve_right hgone
  case ticked => exact h.ticked
  case gcTime =>
    intro g hg
    obtain ⟨g0, hg0, rfl⟩ := Option.map_eq_some_iff.mp hg
    exact h.gcTime g0 hg0

/-- Loading a set deletes what has expired from the datastore, and only this. The set that was
loaded may be cached. -/
theorem Keeps.load {order : MapOrder (DsKey × Bytes)} {d : Datastore}
    {cache : Bytes → Option ProviderSet}
    (hload : loadProviderSet validity now order .none s.dstore k = (d, pset))
    (hkept : cache = s.cache ∨ cache = Function.update s.cache k (some pset)) :
    Keeps validity times (readings ++ [now]) { s with dstore := d, cache := cache } := by
  have hlater := h.append [now]
  have hnow {t : Int64} (hexpired : expired validity now t = true) :
      Gone validity (readings ++ [now]) t :=
    ⟨now, mem_append_right _ (mem_singleton_self _), hexpired⟩
  constructor
  case nonempty => exact h.nonempty
  case record =>
    intro k' p' t ht
    rcases hlater.record k' p' t ht with hrecord | hgone
    · obtain ⟨hk', hp'⟩ := h.nonempty k' p' t ht
      cases hexpired : expired validity now t with
      | true => exact .inr (hnow hexpired)
      | false =>
        left
        rw [show d = (loadProviderSet validity now order .none s.dstore k).1 by rw [hload],
          mem_load_entries]
        refine ⟨hrecord, fun _ => ?_⟩
        rw [readRecord_record hk' hp', hexpired]
        exact Option.some_ne_none _
    · exact .inr hgone
  case result => exact hlater.result
  case cached =>
    intro k' pset' hcache p' t ht
    rcases hkept with rfl | rfl
    · exact hlater.cached k' pset' hcache p' t ht
    · dsimp only at hcache
      by_cases hsame : k' = k
      · subst hsame
        rw [Function.update_self] at hcache
        cases hcache
        cases hexpired : expired validity now t with
        | true => exact .inr (hnow hexpired)
        | false =>
          have hmem := hlater.mem_load order ht hexpired
          rw [hload] at hmem
          exact hmem
      · rw [Function.update_of_ne hsame] at hcache
        exact hlater.cached k' pset' hcache p' t ht
  case ticked => exact hlater.ticked
  case gcTime => exact hlater.gcTime

theorem Keeps.evict (k : Bytes) :
    Keeps validity times readings { s with cache := Function.update s.cache k none } where
  __ := h
  cached k' pset hcache := by
    dsimp only at hcache
    by_cases hk : k' = k
    · rw [hk, Function.update_self] at hcache
      cases hcache
    · rw [Function.update_of_ne hk] at hcache
      exact h.cached k' pset hcache

theorem Keeps.gcStart (htimer : s.gcTimer = .fired t) :
    Keeps validity times readings
      { s with
        gcTimer := .stopped
        cache := fun _ => none
        gcQuery := some ⟨s.dstore.query (DsKey.new providersKeyPrefix), fun _ => false, t⟩ } where
  __ := h
  result g hg k p t ht v hv := by
    cases hg
    dsimp only at hv
    refine .inr ((h.record k p t ht).imp_left fun hrecord => ?_)
    have hentry : (recordKey k p, v) = (recordKey k p, timeValue t) :=
      eq_of_mem_entries (mem_of_mem_query hv) hrecord rfl
    exact congrArg Prod.snd hentry
  cached k pset hcache := by cases hcache
  ticked t ht := by cases ht
  gcTime g hg := by
    cases hg
    exact h.ticked t htimer

theorem Keeps.gcKeep {g : Round} {i : Nat} (hround : s.gcQuery = some g) :
    Keeps validity times readings
      { s with gcQuery := some { g with results := g.results.eraseIdx i } } where
  __ := h
  result g' hg' k p t ht v hv := by
    cases hg'
    exact h.result g hround k p t ht v (mem_of_mem_eraseIdx hv)
  gcTime g' hg' := by
    cases hg'
    exact h.gcTime g hround

/-- A record is deleted only when it is too old, or when it is nobody's. -/
theorem Keeps.gcDelete {g : Round} {e : DsKey × Bytes} (hround : s.gcQuery = some g)
    (he : e ∈ g.results) (hskip : g.gcSkip e.1.path = false)
    (hgarbage : isGarbage validity g.gcTime e.2 = true) :
    Keeps validity times readings { s with dstore := s.dstore.delete e.1 } where
  __ := h
  record k p t ht := by
    rcases h.record k p t ht with hrecord | hgone
    · by_cases hkey : recordKey k p = e.1
      · obtain ⟨hk, hp⟩ := h.nonempty k p t ht
        have hresult := h.result g hround k p t ht e.2 (hkey ▸ he)
        rw [← path_recordKey hk hp, hkey, hskip] at hresult
        rcases hresult with hfalse | hvalue | hgone
        · cases hfalse
        · rw [isGarbage, hvalue, readTimeValue_timeValue] at hgarbage
          exact .inr ⟨g.gcTime, h.gcTime g hround, hgarbage⟩
        · exact .inr hgone
      · exact .inl (mem_entries_delete.mpr ⟨hrecord, hkey⟩)
    · exact .inr hgone

theorem Keeps.gcEnd :
    Keeps validity times readings { s with gcQuery := none, gcTimer := .armed } where
  __ := h
  result g hg := by cases hg
  ticked t ht := by cases ht
  gcTime g hg := by cases hg

end

section Runs

variable {caching : Bool} {es : List Label} {s0 : Manager}

theorem keeps_step (hclean : l.Clean) (h : Keeps validity times readings s)
    (hstep : step caching validity l s = some s') :
    Keeps validity (l.learn times) (readings ++ l.time.toList) s' := by
  cases move_of_step hstep with
  | add k p now => exact (h.append [now]).add hclean.2.1 hclean.2.2
  | addFails => cases hclean.1
  | hit now =>
    have hlater := h.append [now]
    exact { hlater with nonempty := h.nonempty }
  | queryFails now order hcache hquery =>
    rw [hclean.1] at hquery
    cases hquery
  | miss now order hcache hquery hload hkept =>
    rw [hclean.1] at hload
    have hkeeps := h.load hload (hkept.imp_right fun hkept => hkept.2)
    exact { hkeeps with }
  | fire now htimer =>
    have hlater := h.append [now]
    refine { hlater with nonempty := h.nonempty, ticked := fun t ht => ?_ }
    cases ht
    exact mem_append_right _ (mem_singleton_self _)
  | evict k => exact (h.evict k).append []
  | gcQueryFails => cases hclean
  | gcStart htimer => exact (h.gcStart htimer).append []
  | gcKeep _ _ hround hresult => exact (h.gcKeep hround).append []
  | gcDelete hround hresult hskip hgarbage =>
    have hkeeps := h.gcDelete hround (mem_of_getElem? hresult) hskip hgarbage
    exact (hkeeps.gcKeep hround).append []
  | gcEnd hround => exact h.gcEnd.append []

theorem keeps_run (hclean : ∀ l ∈ es, l.Clean) (h : Keeps validity times readings s0)
    (hrun : Trace.run (step caching validity) es s0 = some s) :
    Keeps validity (known times es) (readings ++ clock es) s := by
  induction es generalizing s0 times readings with
  | nil =>
    cases hrun
    exact h.append []
  | cons l es ih =>
    obtain ⟨s1, hstep, hrest⟩ := Trace.run_cons.mp hrun
    have hs1 := keeps_step (hclean l mem_cons_self) h hstep
    rw [clock_cons, ← append_assoc]
    exact ih (fun l' hl' => hclean l' (mem_cons_of_mem l hl')) hs1 hrest

/-! ## Refreshed records -/

structure Skips (fresh : Bytes → PeerId → Bool) (s : Manager) : Prop where
  nonempty : ∀ k p, fresh k p = true → k ≠ [] ∧ p ≠ []
  skip : ∀ g, s.gcQuery = some g → ∀ k p, fresh k p = true → g.gcSkip (mkProvKeyFor k p) = true

theorem skips_step {fresh : Bytes → PeerId → Bool} (hclean : l.Clean) (h : Skips fresh s)
    (hstep : step caching validity l s = some s') : Skips (l.refresh fresh) s' := by
  cases move_of_step hstep with
  | add k p now =>
    refine ⟨fun k' p' hfresh => ?_, fun g hg k' p' hfresh => ?_⟩
    · by_cases hsame : k' = k ∧ p' = p
      · obtain ⟨rfl, rfl⟩ := hsame
        exact hclean.2
      · exact h.nonempty k' p' ((if_neg hsame).symm.trans hfresh)
    · obtain ⟨g0, hg0, rfl⟩ := Option.map_eq_some_iff.mp hg
      dsimp only
      by_cases hpath : mkProvKeyFor k' p' = mkProvKeyFor k p
      · rw [hpath]
        exact Function.update_self ..
      · have hsame : ¬ (k' = k ∧ p' = p) := fun hsame => hpath (by rw [hsame.1, hsame.2])
        rw [Function.update_of_ne hpath]
        exact h.skip g0 hg0 k' p' ((if_neg hsame).symm.trans hfresh)
  | addFails => cases hclean.1
  | hit | queryFails | miss | evict | fire => exact { h with }
  | gcQueryFails => cases hclean
  | gcStart => exact ⟨fun k p hfresh => (by cases hfresh), fun g hg k p hfresh => (by cases hfresh)⟩
  | gcKeep _ _ hround | gcDelete hround =>
    have hskip := h.skip _ hround
    refine ⟨h.nonempty, fun g' hg' => ?_⟩
    cases hg'
    exact hskip
  | gcEnd => exact ⟨h.nonempty, fun g hg => (by cases hg)⟩

theorem skips_run (hclean : ∀ l ∈ es, l.Clean) {d : Datastore}
    (hrun : Trace.run (step caching validity) es (.start d) = some s) :
    Skips (refreshed es) s := by
  induction es using reverseRecOn generalizing s with
  | nil =>
    cases hrun
    exact ⟨fun k p hfresh => (by cases hfresh), fun g hg => (by cases hg)⟩
  | append_singleton es l ih =>
    obtain ⟨s1, hbefore, hlast⟩ := Trace.run_append.mp hrun
    rw [Trace.run_singleton] at hlast
    have hs1 := ih (fun l' hl' => hclean l' (mem_append_left _ hl')) hbefore
    rw [refreshed_concat]
    exact skips_step (hclean l (mem_append_right _ (mem_singleton_self _))) hs1 hlast

/-- A round does not delete a record that was refreshed since it started. -/
theorem Skips.mem_entries {fresh : Bytes → PeerId → Bool} {i : Nat} {v : Bytes}
    (h : Skips fresh s) (hfresh : fresh k p = true)
    (hstep : step caching validity (.gcResult i false false) s = some s')
    (hv : (recordKey k p, v) ∈ s.dstore.entries) : (recordKey k p, v) ∈ s'.dstore.entries := by
  cases move_of_step hstep with
  | gcKeep => exact hv
  | gcDelete hround hresult hskip =>
    refine mem_entries_delete.mpr ⟨hv, fun hkey => ?_⟩
    obtain ⟨hk, hp⟩ := h.nonempty k p hfresh
    have hkey' : recordKey k p = _ := hkey
    rw [← hkey', path_recordKey hk hp, h.skip _ hround k p hfresh] at hskip
    cases hskip

/-! ## Requests -/

theorem Keeps.response (h : Keeps validity times readings s) (hnow : ∀ t ∈ readings, t ≤ now)
    {order : MapOrder (DsKey × Bytes)}
    (hstep : step caching validity (.getProviders k now order .none) s = some s') :
    ∃ provs, s'.responses = s.responses ++ [provs] ∧ provs.Nodup ∧
      ∀ p t, times k p = some t → expired validity now t = false → p ∈ provs := by
  cases move_of_step hstep with
  | @hit _ _ _ _ pset hcache =>
    refine ⟨pset.providers, rfl, pset.nodup, fun p t ht hexpired => ?_⟩
    exact (h.cached k pset hcache p t ht).resolve_right (not_gone hnow hexpired)
  | queryFails _ _ _ hquery => cases hquery
  | @miss _ _ _ _ d pset _ _ _ hload =>
    refine ⟨pset.providers, rfl, pset.nodup, fun p t ht hexpired => ?_⟩
    have hmem := h.mem_load order ht hexpired
    rw [hload] at hmem
    exact hmem.resolve_right (not_gone hnow hexpired)

/-- **Live providers are kept.** After any run in which nothing fails, a request returns each peer
once, and every peer that was last added at most the validity ago. A round of garbage collection
deletes no record that was refreshed since its query started. -/
theorem live_run {d : Datastore} (hclean : ∀ l ∈ es, l.Clean)
    (hrun : Trace.run (Manager.step true validity) es (.start d) = some s) :
    (∀ k now order s', (∀ t ∈ clock es, t ≤ now) →
      Manager.step true validity (.getProviders k now order .none) s = some s' →
        ∃ provs, s'.responses = s.responses ++ [provs] ∧ provs.Nodup ∧
          ∀ p t, known (fun _ _ => none) es k p = some t →
            now.toInt - t.toInt ≤ validity.toInt → p ∈ provs) ∧
    ∀ i s', Manager.step true validity (.gcResult i false false) s = some s' →
      ∀ k p v, refreshed es k p = true →
        (recordKey k p, v) ∈ s.dstore.entries → (recordKey k p, v) ∈ s'.dstore.entries := by
  have hkeeps : Keeps validity (known (fun _ _ => none) es) (clock es) s :=
    keeps_run hclean (keeps_start d) hrun
  have hskips := skips_run hclean hrun
  constructor
  · intro k now order s' hnow hstep
    obtain ⟨provs, hresponse, hnodup, hmem⟩ := hkeeps.response hnow hstep
    refine ⟨provs, hresponse, hnodup, fun p t ht hage => hmem p t ht ?_⟩
    refine Bool.eq_false_of_not_eq_true fun hexpired => ?_
    have hlt := lt_of_expired hexpired
    omega
  · intro i s' hstep k p v hfresh hv
    exact hskips.mem_entries hfresh hstep hv

end Runs

end Kept

/-- A record that is too old when the timer fires is refreshed during the round. -/
def refreshing : List Label :=
  [.addProvider [7] [1] 0 false, .fire 100, .gcStart false, .addProvider [7] [1] 150 false,
    .gcResult 0 false false, .gcEnd]

theorem live_run_refreshing :
    ∃ s, Trace.run (@Manager.step base64Text true 50) refreshing (.start .empty) = some s ∧
      ∀ order s', @Manager.step base64Text true 50 (.getProviders [7] 180 order .none) s = some s' →
        ∃ provs, s'.responses = s.responses ++ [provs] ∧ provs.Nodup ∧ [1] ∈ provs := by
  let _ := base64Text
  have hclean : ∀ l ∈ refreshing, l.Clean := by simp [refreshing, Label.Clean]
  have hsome : (Trace.run (step true 50) refreshing (.start .empty)).isSome := by decide
  obtain ⟨s, hrun⟩ := Option.isSome_iff_exists.mp hsome
  have hnow : (clock refreshing).all (· ≤ 180) = true := by decide
  refine ⟨s, hrun, fun order s' hstep => ?_⟩
  obtain ⟨provs, hresponse, hnodup, hmem⟩ := (live_run hclean hrun).1 [7] 180 order s'
    (fun t ht => of_decide_eq_true (all_eq_true.mp hnow t ht)) hstep
  exact ⟨provs, hresponse, hnodup, hmem [1] 150 (by decide) (by decide)⟩

end KadDht.Providers
