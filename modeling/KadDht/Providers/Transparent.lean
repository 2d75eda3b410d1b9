import KadDht.Providers.Live

/-!
# Providers — what the cache changes

A request that reads the datastore returns the providers that are valid at the time of the request.
One that finds its set in the cache returns the whole set: nobody looks at the times there. The set
had every valid provider when it was read, and gets those that are added, so it has all that are
valid; but it may have providers that have become too old since.

A manager whose cache never stores anything is the same machine without `caching`. It gets the same
requests; its rounds of garbage collection may be at other times.

* **`transparent_iff`** — when the cache changes nothing.
-/

namespace KadDht.Providers

open List Datastore Trace Manager

variable {validity : Int64} {times : Times} {readings : List Int64} {s s' : Manager} {l : Label}
  {k : Bytes} {p : PeerId} {t now : Int64} {d : Datastore}

variable {e : DsKey × Bytes}

theorem mem_query_all_iff :
    e ∈ d.query (DsKey.new providersKeyPrefix) ↔
      e ∈ d.entries ∧ providersKeyPrefix <+: e.1.path := by
  have hpath : (DsKey.new providersKeyPrefix).path ++ ['/'] = providersKeyPrefix := by decide
  rw [query, if_neg (by decide), mem_filter, isPrefixOf_iff_prefix, hpath]

section Cached

variable [Base32Lib]

/-! ## Nothing else is stored -/

/-- The datastore has the records that are known and no others, and the cache no other times. -/
structure Exact (times : Times) (s : Manager) : Prop where
  record : ∀ e ∈ s.dstore.query (DsKey.new providersKeyPrefix),
    ∃ k p t, times k p = some t ∧ e = (recordKey k p, timeValue t)
  cached : ∀ k pset, s.cache k = some pset → ∀ p t, pset.set p = some t → times k p = some t

structure Holds (d : Datastore) (times : Times) : Prop where
  nonempty : ∀ k p t, times k p = some t → k ≠ [] ∧ p ≠ []
  stored : ∀ k p t, times k p = some t → (recordKey k p, timeValue t) ∈ d.entries
  only : ∀ e ∈ d.query (DsKey.new providersKeyPrefix),
    ∃ k p t, times k p = some t ∧ e = (recordKey k p, timeValue t)

theorem Holds.keeps (h : Holds d times) : Keeps validity times [] (.start d) where
  nonempty := h.nonempty
  record k p t ht := .inl (h.stored k p t ht)
  result g hg := by cases hg
  cached k pset hcache := by cases hcache
  ticked t ht := by cases ht
  gcTime g hg := by cases hg

theorem Holds.exact (h : Holds d times) : Exact times (.start d) where
  record := h.only
  cached k pset hcache := by cases hcache

theorem holds_empty : Holds .empty fun _ _ => none where
  nonempty k p t ht := by cases ht
  stored k p t ht := by cases ht
  only e he := absurd (mem_of_mem_query he) not_mem_nil

theorem mem_query_all_of_key (hk : k ≠ [])
    (h : e ∈ d.query (DsKey.new (mkProvKey k))) :
    e ∈ d.query (DsKey.new providersKeyPrefix) := by
  refine mem_query_all_iff.mpr ⟨mem_of_mem_query h, ?_⟩
  have hpath : (DsKey.new (mkProvKey k)).path = mkProvKey k := by
    rw [mkProvKey_eq, DsKey.path_new (plain_key hk) (cons_ne_nil _ _)]
  have hroot : mkProvKey k ≠ ['/'] := by simp [mkProvKey, providersKeyPrefix]
  rw [query, hpath, if_neg hroot, mem_filter, isPrefixOf_iff_prefix] at h
  refine List.IsPrefix.trans ?_ h.2
  exact prefix_append _ _

theorem Exact.mem_load (hexact : Exact times s) (hkeeps : Keeps validity times readings s)
    (hk : k ≠ []) (he : e ∈ s.dstore.query (DsKey.new (mkProvKey k)))
    (hread : readRecord validity now e = some (p, t)) :
    times k p = some t ∧ expired validity now t = false := by
  obtain ⟨k', p', t', htimes, rfl⟩ := hexact.record e (mem_query_all_of_key hk he)
  obtain ⟨hk', hp'⟩ := hkeeps.nonempty k' p' t' htimes
  obtain ⟨-, rfl⟩ := (mem_query_key hk' hp' hk).mp he
  rw [readRecord_record hk' hp'] at hread
  cases hexpired : expired validity now t' with
  | true =>
    rw [hexpired] at hread
    cases hread
  | false =>
    rw [hexpired] at hread
    cases hread
    exact ⟨htimes, hexpired⟩

/-! ## Steps -/

theorem Exact.mono (h : Exact times s) (hentries : ∀ e ∈ s'.dstore.entries, e ∈ s.dstore.entries)
    (hcache : ∀ k pset, s'.cache k = some pset → s.cache k = some pset) : Exact times s' where
  record e he := by
    obtain ⟨hmem, hpath⟩ := mem_query_all_iff.mp he
    exact h.record e (mem_query_all_iff.mpr ⟨hentries e hmem, hpath⟩)
  cached k pset hk := h.cached k pset (hcache k pset hk)

/-- A provider that is added goes to the datastore, and to the cache if there is an entry for the
key. -/
theorem Exact.add (h : Exact times s) (now : Int64) {gcQuery : Option Round} :
    Exact ((Request.addProvider k p now).learn times)
      { s with
        cache := s.updateCache k p now
        dstore := s.dstore.put (recordKey k p) (timeValue now)
        gcQuery := gcQuery } where
  record e he := by
    obtain ⟨hmem, hpath⟩ := mem_query_all_iff.mp he
    rcases mem_entries_put.mp hmem with ⟨hold, hne⟩ | rfl
    · obtain ⟨k', p', t, ht, rfl⟩ := h.record e (mem_query_all_iff.mpr ⟨hold, hpath⟩)
      have hother : ¬ (k' = k ∧ p' = p) := by
        rintro ⟨rfl, rfl⟩
        exact hne rfl
      exact ⟨k', p', t, (learn_of_ne hother).trans ht, rfl⟩
    · exact ⟨k, p, now, learn_self times k p now, rfl⟩
  cached k' pset hcache p' t ht := by
    dsimp only at hcache
    cases hcached : s.cache k with
    | none =>
      rw [updateCache_of_none hcached] at hcache
      have hother : ¬ (k' = k ∧ p' = p) := by
        rintro ⟨rfl, -⟩
        rw [hcached] at hcache
        cases hcache
      exact (learn_of_ne hother).trans (h.cached k' pset hcache p' t ht)
    | some pset0 =>
      rw [updateCache_of_some hcached] at hcache
      by_cases hk : k' = k
      · subst hk
        rw [Function.update_self] at hcache
        cases hcache
        by_cases hp : p' = p
        · subst hp
          have hnow : (pset0.setVal p' now).set p' = some now := Function.update_self ..
          rw [← ht, hnow]
          exact learn_self times k' p' now
        · have hold : (pset0.setVal p now).set p' = pset0.set p' := Function.update_of_ne hp ..
          rw [hold] at ht
          exact (learn_of_ne fun hsame => hp hsame.2).trans (h.cached k' pset0 hcached p' t ht)
      · rw [Function.update_of_ne hk] at hcache
        exact (learn_of_ne fun hsame => hk hsame.1).trans (h.cached k' pset hcache p' t ht)

theorem Exact.load {order : MapOrder (DsKey × Bytes)} {pset : ProviderSet}
    {cache : Bytes → Option ProviderSet} {responses : List (List PeerId)} (h : Exact times s)
    (hkeeps : Keeps validity times readings s) (hk : k ≠ [])
    (hload : loadProviderSet validity now order .none s.dstore k = (d, pset))
    (hkept : cache = s.cache ∨ cache = Function.update s.cache k (some pset)) :
    Exact times { s with dstore := d, cache := cache, responses := responses } where
  record e he := by
    obtain ⟨hmem, hpath⟩ := mem_query_all_iff.mp he
    have hd : d = (loadProviderSet validity now order .none s.dstore k).1 := by rw [hload]
    rw [hd, mem_load_entries] at hmem
    exact h.record e (mem_query_all_iff.mpr ⟨hmem.1, hpath⟩)
  cached k' pset' hcache p t ht := by
    dsimp only at hcache
    rcases hkept with rfl | rfl
    · exact h.cached k' pset' hcache p t ht
    · by_cases hsame : k' = k
      · subst hsame
        rw [Function.update_self] at hcache
        cases hcache
        have hset : (loadProviderSet validity now order .none s.dstore k').2.set p = some t := by
          rw [hload]
          exact ht
        obtain ⟨e, he, hread⟩ := exists_of_load_set hset
        exact (h.mem_load hkeeps hk he hread).1
      · rw [Function.update_of_ne hsame] at hcache
        exact h.cached k' pset' hcache p t ht

section Runs

variable {caching : Bool} {es es' : List Label} {s0 u : Manager}

theorem exact_step (hclean : l.Clean) (hkeeps : Keeps validity times readings s)
    (h : Exact times s) (hstep : step caching validity l s = some s') :
    Exact (l.learn times) s' := by
  cases move_of_step hstep with
  | add k p now => exact h.add now
  | addFails => cases hclean.1
  | hit | fire | gcKeep | gcEnd => exact { h with }
  | queryFails now order hcache hquery =>
    rw [hclean.1] at hquery
    cases hquery
  | miss now order hcache hquery hload hkept =>
    rw [hclean.1] at hload
    exact h.load hkeeps hclean.2 hload (hkept.imp_right fun hkept => hkept.2)
  | evict k =>
    refine h.mono (fun e he => he) fun k' pset hcache => ?_
    dsimp only at hcache
    by_cases hk : k' = k
    · rw [hk, Function.update_self] at hcache
      cases hcache
    · rwa [Function.update_of_ne hk] at hcache
  | gcQueryFails => cases hclean
  | gcStart => exact h.mono (fun e he => he) fun k' pset hcache => by cases hcache
  | gcDelete =>
    exact h.mono (fun e he => (mem_entries_delete.mp he).1) fun k' pset hcache => hcache

/-! ## Responses -/

/-- The provider was added, and is not too old. -/
def Valid (validity : Int64) (times : Times) (k : Bytes) (now : Int64) (p : PeerId) : Prop :=
  ∃ t, times k p = some t ∧ expired validity now t = false

def expected (validity : Int64) (times : Times) : List Request → List (PeerId → Prop)
  | [] => []
  | .addProvider k p now :: rs => expected validity ((Request.addProvider k p now).learn times) rs
  | .getProviders k now :: rs => Valid validity times k now :: expected validity times rs

def Answers (response : List PeerId) (valid : PeerId → Prop) : Prop :=
  ∀ p, p ∈ response ↔ valid p

/-- The request does not find a set in the cache with a provider that is too old. -/
def NotStale (validity : Int64) (k : Bytes) (now : Int64) (s : Manager) : Prop :=
  ∀ pset, s.cache k = some pset → ∀ p t, pset.set p = some t → expired validity now t = false

/-- The response to a request is right exactly when the cache is not stale. -/
theorem answers_iff {order : MapOrder (DsKey × Bytes)} {faults : Faults}
    (hclean : (Label.getProviders k now order faults).Clean)
    (hkeeps : Keeps validity times readings s) (hexact : Exact times s)
    (hnow : ∀ t ∈ readings, t ≤ now)
    (hstep : step caching validity (.getProviders k now order faults) s = some s') :
    ∃ response, s'.responses = s.responses ++ [response] ∧
      (Answers response (Valid validity times k now) ↔ NotStale validity k now s) := by
  obtain ⟨rfl, hk⟩ := hclean
  cases move_of_step hstep with
  | @hit _ _ _ _ pset hcache =>
    refine ⟨pset.providers, rfl, fun hanswers pset' hpset' p t ht => ?_, fun hfresh p => ?_⟩
    · rw [hcache] at hpset'
      cases hpset'
      have hmem : p ∈ pset.providers := by rw [pset.mem_iff, ht]; rfl
      obtain ⟨t', ht', hvalid⟩ := (hanswers p).mp hmem
      rw [hexact.cached k pset hcache p t ht] at ht'
      cases ht'
      exact hvalid
    · constructor
      · intro hmem
        obtain ⟨t, ht⟩ := Option.isSome_iff_exists.mp ((pset.mem_iff p).mp hmem)
        exact ⟨t, hexact.cached k pset hcache p t ht, hfresh pset hcache p t ht⟩
      · rintro ⟨t, ht, hvalid⟩
        exact (hkeeps.cached k pset hcache p t ht).resolve_right (not_gone hnow hvalid)
  | queryFails _ _ _ hquery => cases hquery
  | @miss _ _ _ _ d pset _ hcache _ hload =>
    refine ⟨pset.providers, rfl, fun _ pset' hpset' => ?_, fun _ p => ?_⟩
    · rw [hcache] at hpset'
      cases hpset'
    · rw [show pset = (loadProviderSet validity now order .none s.dstore k).2 by rw [hload]]
      constructor
      · intro hmem
        obtain ⟨e, he, t, hread⟩ := mem_load_providers.mp hmem
        exact ⟨t, hexact.mem_load hkeeps hk he hread⟩
      · rintro ⟨t, ht, hvalid⟩
        exact (hkeeps.mem_load order ht hvalid).resolve_right (not_gone hnow hvalid)

omit [Base32Lib] in
theorem expected_of_ne (hget : ∀ k now order faults, l ≠ .getProviders k now order faults) :
    expected validity times ((l :: es).filterMap Label.request) =
      expected validity (l.learn times) (es.filterMap Label.request) := by
  cases l with
  | getProviders k now order faults => exact (hget _ _ _ _ rfl).elim
  | _ => rfl

theorem responses_of_ne (hget : ∀ k now order faults, l ≠ .getProviders k now order faults)
    (hstep : step caching validity l s = some s') : s'.responses = s.responses := by
  cases move_of_step hstep with
  | hit now order faults | queryFails now order | miss now order => exact (hget _ _ _ _ rfl).elim
  | _ => rfl

/-- Over a run from any state whose cache is exact: all answers are right exactly if no call finds a
cached set that has become stale. -/
theorem responses_iff (hclean : ∀ l ∈ es, l.Clean) (hkeeps : Keeps validity times readings s0)
    (hexact : Exact times s0) (hclock : (readings ++ clock es).Pairwise (· ≤ ·))
    (hrun : run (step caching validity) es s0 = some s) :
    ∃ responses, s.responses = s0.responses ++ responses ∧
      (List.Forall₂ Answers responses (expected validity times (es.filterMap Label.request)) ↔
        ∀ k now order faults s1, Trace.Takes (step caching validity) es s0
          (.getProviders k now order faults) s1 → NotStale validity k now s1) := by
  induction es generalizing s0 times readings with
  | nil =>
    cases hrun
    refine ⟨[], (append_nil _).symm, fun _ => ?_, fun _ => .nil⟩
    rintro k now order faults s1 ⟨before, after, heq, -⟩
    simp at heq
  | cons l es ih =>
    obtain ⟨s1, hstep, hrest⟩ := run_cons.mp hrun
    have hl := hclean l mem_cons_self
    rw [clock_cons, ← append_assoc] at hclock
    obtain ⟨responses, heq, hiff⟩ := ih (fun l' hl' => hclean l' (mem_cons_of_mem l hl'))
      (keeps_step hl hkeeps hstep) (exact_step hl hkeeps hexact hstep) hclock hrest
    by_cases hget : ∃ k now order faults, l = .getProviders k now order faults
    · obtain ⟨k, now, order, faults, rfl⟩ := hget
      have hnow : ∀ t ∈ readings, t ≤ now := fun t ht => by
        rw [append_assoc, pairwise_append] at hclock
        exact hclock.2.2 t ht now mem_cons_self
      obtain ⟨response, hresponse, hanswers⟩ := answers_iff hl hkeeps hexact hnow hstep
      refine ⟨response :: responses, ?_, ?_⟩
      · rw [heq, hresponse, append_assoc, singleton_append]
      · show List.Forall₂ Answers (response :: responses) (Valid validity times k now ::
          expected validity times (es.filterMap Label.request)) ↔ _
        rw [forall₂_cons, hanswers]
        refine (and_congr_right fun _ => hiff).trans ?_
        simp only [takes_cons hstep]
        constructor
        · rintro ⟨hfirst, hlater⟩ k' now' order' faults' s2 (⟨hlabel, rfl⟩ | htakes)
          · cases hlabel
            exact hfirst
          · exact hlater k' now' order' faults' s2 htakes
        · intro hall
          refine ⟨hall k now order faults s0 (.inl ⟨rfl, rfl⟩), ?_⟩
          exact fun k' now' order' faults' s2 htakes => hall k' now' order' faults' s2 (.inr htakes)
    · simp only [not_exists] at hget
      refine ⟨responses, by rw [heq, responses_of_ne hget hstep], ?_⟩
      rw [expected_of_ne hget, hiff]
      simp only [takes_cons hstep]
      constructor
      · rintro hlater k' now' order' faults' s2 (⟨hlabel, rfl⟩ | htakes)
        · exact (hget _ _ _ _ hlabel.symm).elim
        · exact hlater k' now' order' faults' s2 htakes
      · exact fun hall k' now' order' faults' s2 htakes =>
          hall k' now' order' faults' s2 (.inr htakes)

/-! ## The cache that never stores anything -/

theorem uncached_step (h : ∀ k, s.cache k = none)
    (hstep : step false validity l s = some s') : ∀ k, s'.cache k = none := by
  cases move_of_step hstep with
  | add k p now | addFails k p now =>
    intro k'
    show s.updateCache k p now k' = none
    rw [updateCache_of_none (h k), h k']
  | miss now order hcache hquery hload hkept =>
    rcases hkept with rfl | ⟨hfalse, -⟩
    · exact h
    · cases hfalse
  | evict k =>
    intro k'
    dsimp only
    by_cases hk : k' = k
    · rw [hk, Function.update_self]
    · rw [Function.update_of_ne hk, h k']
  | gcQueryFails | gcStart => exact fun _ => rfl
  | _ => exact h

theorem uncached_responses (hclean : ∀ l ∈ es, l.Clean) (hclock : (clock es).Pairwise (· ≤ ·))
    (hholds : Holds d times)
    (hrun : run (step false validity) es (.start d) = some u) :
    List.Forall₂ Answers u.responses (expected validity times (es.filterMap Label.request)) := by
  have hkeeps : Keeps validity times [] (.start d) := hholds.keeps
  obtain ⟨responses, heq, hiff⟩ := responses_iff hclean hkeeps hholds.exact hclock hrun
  rw [heq]
  refine hiff.mpr fun k now order faults s1 ⟨before, after, hes, hbefore⟩ pset hcache => ?_
  have hnone : ∀ k, s1.cache k = none :=
    invariant (fun l _ s s' => uncached_step) (fun _ => rfl) hbefore
  rw [hnone k] at hcache
  cases hcache

def SamePeers (response response' : List PeerId) : Prop := ∀ p, p ∈ response ↔ p ∈ response'

omit [Base32Lib] in
theorem samePeers_iff {rs rs' : List (List PeerId)} {valid : List (PeerId → Prop)}
    (h : List.Forall₂ Answers rs' valid) :
    List.Forall₂ SamePeers rs rs' ↔ List.Forall₂ Answers rs valid := by
  induction h generalizing rs with
  | nil => simp
  | cons hr hrest ih =>
    cases rs with
    | nil => simp
    | cons r rs =>
      rw [forall₂_cons, forall₂_cons, ih]
      refine and_congr_left fun _ => ?_
      exact forall_congr' fun p => by rw [hr p]

/-- **When the cache is transparent.** The manager returns the same peers as one whose cache never
stores anything, for all requests, if and only if no request finds a set in the cache with a
provider that is too old. -/
theorem transparent_iff (hclean : ∀ l ∈ es, l.Clean) (hclean' : ∀ l ∈ es', l.Clean)
    (hclock : (clock es).Pairwise (· ≤ ·)) (hclock' : (clock es').Pairwise (· ≤ ·))
    (hrequests : es'.filterMap Label.request = es.filterMap Label.request) (hholds : Holds d times)
    (hrun : Trace.run (Manager.step true validity) es (.start d) = some s)
    (hrun' : Trace.run (Manager.step false validity) es' (.start d) = some u) :
    List.Forall₂ SamePeers s.responses u.responses ↔
      ∀ k now order faults s1, Trace.Takes (Manager.step true validity) es (.start d)
        (.getProviders k now order faults) s1 → NotStale validity k now s1 := by
  have hkeeps : Keeps validity times [] (.start d) := hholds.keeps
  obtain ⟨responses, heq, hiff⟩ := responses_iff hclean hkeeps hholds.exact hclock hrun
  have huncached := uncached_responses hclean' hclock' hholds hrun'
  rw [hrequests] at huncached
  rw [samePeers_iff huncached, heq]
  exact hiff

end Runs

end Cached

def inOrder : MapOrder (DsKey × Bytes) := ⟨id, fun _ => .refl _⟩

/-- A provider is added. There is a round of garbage collection after 47.5 hours, a request one
minute before the record is too old, and another one a minute after. -/
def staleHit : List Label :=
  [.addProvider [7] [1] 0 false, .fire 171000000000000, .gcStart false, .gcResult 0 false false,
    .gcEnd, .getProviders [7] 172740000000000 inOrder .none,
    .getProviders [7] 172860000000000 inOrder .none]

theorem staleHit_cached :
    (run (@Manager.step base64Text true 172800000000000) staleHit (.start .empty)).map
      responses = some [[[1]], [[1]]] := by decide

theorem staleHit_uncached :
    (run (@Manager.step base64Text false 172800000000000) staleHit (.start .empty)).map
      responses = some [[[1]], []] := by decide

theorem transparent_iff_staleHit :
    ∃ s u,
      Trace.run (@Manager.step base64Text true 172800000000000) staleHit (.start .empty) = some s ∧
      Trace.run (@Manager.step base64Text false 172800000000000) staleHit (.start .empty) = some u ∧
      (List.Forall₂ SamePeers s.responses u.responses ↔
        ∀ k now order faults s1, Trace.Takes (@Manager.step base64Text true 172800000000000)
          staleHit (.start .empty) (.getProviders k now order faults) s1 →
            NotStale 172800000000000 k now s1) := by
  let _ := base64Text
  have hclean : ∀ l ∈ staleHit, l.Clean := by simp [staleHit, Label.Clean]
  have hclock : (clock staleHit).Pairwise (· ≤ ·) := by decide
  obtain ⟨s, hs, -⟩ := Option.map_eq_some_iff.mp staleHit_cached
  obtain ⟨u, hu, -⟩ := Option.map_eq_some_iff.mp staleHit_uncached
  exact ⟨s, u, hs, hu, transparent_iff hclean hclean hclock hclock rfl holds_empty hs hu⟩

/-- The cache returns a peer that is too old. -/
theorem not_transparent_staleHit :
    ∃ s u,
      Trace.run (@Manager.step base64Text true 172800000000000) staleHit (.start .empty) = some s ∧
      Trace.run (@Manager.step base64Text false 172800000000000) staleHit (.start .empty) = some u ∧
      ¬ List.Forall₂ SamePeers s.responses u.responses := by
  obtain ⟨s, hs, hcached⟩ := Option.map_eq_some_iff.mp staleHit_cached
  obtain ⟨u, hu, huncached⟩ := Option.map_eq_some_iff.mp staleHit_uncached
  refine ⟨s, u, hs, hu, ?_⟩
  rw [hcached, huncached, forall₂_cons, forall₂_cons]
  rintro ⟨-, hsame, -⟩
  exact absurd ((hsame [1]).mp mem_cons_self) not_mem_nil

end KadDht.Providers
