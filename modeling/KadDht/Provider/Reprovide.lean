import KadDht.Provider.Outcome

/-!
# Provider — the paths of `batchReprovide`

Which way a call of `batchReprovide` takes is decided by its environment alone: the keystore, the
addresses of the node and the peers found. Once the path is known, so is what the call does to the
view.
-/

namespace KadDht.SweepingProvider

inductive ReprovidePath where
  /-- There is nothing to do, or it cannot be done. -/
  | idle (events : List Event)
  /-- The keys could not be loaded, or no peers were found. -/
  | failed (err : String)
  /-- A few keys, provided one by one. -/
  | individual (keys : List Multihash)
  /-- Regions were claimed, and then the keys of the shorter covered prefix could not be
  loaded. -/
  | loadFailed (regions : List Region) (err : String)
  /-- The keys below `pfx` are sent region by region. -/
  | sweep (pfx : Bitstr) (keys : List Multihash) (regions : List Region)

section Paths

variable [TrieLib]

def exploredPath (env : Env) (p : Bitstr) (keys : List Multihash) (regions : List Region)
    (c : Bitstr) : ReprovidePath :=
  if c.length < p.length then
    match env.keystoreGet c with
    | .error err => .loadFailed regions (loadError err)
    | .ok allKeys => .sweep c allKeys regions
  else .sweep p keys regions

def reprovidePath (env : Env) (p : Bitstr) : ReprovidePath :=
  if env.closed then .idle []
  else if env.selfAddrs.isEmpty then
    .idle [.warn "provider: no self addresses available for providing keys", .triggerCheck]
  else
    match env.keystoreGet p with
    | .error err => .failed (loadError err)
    | .ok keys =>
      if keys.isEmpty then .idle []
      else if keys.length ≤ individualProvideThreshold then .individual keys
      else
        match exploreSwarm env p with
        | .error err => .failed ("reprovide '" ++ bitstrString p ++ "': " ++ err)
        | .ok (regions, c) => exploredPath env p keys regions c

namespace View

noncomputable def follow (env : Env) (p : Bitstr) (path : ReprovidePath) (v : View) : View :=
  match path with
  | .idle events => v.emitAll events
  | .failed err => (v.failedReprovide p err).schedule p
  | .individual keys => v.individualProvide env p keys true
  | .loadFailed regions err =>
    ((v.claim regions).failedReprovide p err).schedule p
  | .sweep p' keys regions =>
    (v.claim regions).reprovideClaimed env p' keys (v.claimed regions)

/-- **A call does what its path says.** -/
theorem batchReprovide_eq (env : Env) (p : Bitstr) (v : View) :
    v.batchReprovide env p = v.follow env p (reprovidePath env p) := by
  unfold batchReprovide reprovidePath
  by_cases hclosed : env.closed = true
  · simp [hclosed, follow, emitAll]
  by_cases haddr : env.selfAddrs.isEmpty = true
  · simp [hclosed, haddr, follow, selfAddrInfo]
  simp only [hclosed, haddr]
  cases env.keystoreGet p with
  | error err => rfl
  | ok keys =>
    by_cases hempty : keys.isEmpty = true
    · simp [hempty, follow, emitAll]
    by_cases hfew : keys.length ≤ individualProvideThreshold
    · simp [hempty, hfew, follow]
    simp only [hempty, hfew]
    cases exploreSwarm env p with
    | error err => rfl
    | ok r =>
      by_cases hlt : r.2.length < p.length
      · simp only [reprovideExplored, exploredPath, hlt, if_true]
        cases env.keystoreGet r.2 <;> rfl
      · simp [reprovideExplored, exploredPath, hlt, follow]

end View

theorem batchReprovide_follow (env : Env) (p : Bitstr) {s : State} (hs : s.Inv) :
    ∃ s', batchReprovide env p s = some ((), s') ∧ s'.Inv ∧
      s'.view = s.view.follow env p (reprovidePath env p) := by
  obtain ⟨s', heq, hinv, hview⟩ := simulates_batchReprovide env p s hs
  exact ⟨s', heq, hinv, hview.trans (View.batchReprovide_eq env p s.view)⟩

/-- A call for many keys whose exploration succeeds: it explores, and finds these regions and this
covered prefix. -/
structure Explores (env : Env) (p : Bitstr) (keys : List Multihash) (regions : List Region)
    (c : Bitstr) : Prop where
  opened : env.closed = false
  addrs : env.selfAddrs ≠ []
  loaded : env.keystoreGet p = .ok keys
  many : individualProvideThreshold < keys.length
  explored : exploreSwarm env p = .ok (regions, c)

variable {env : Env} {p c : Bitstr} {keys : List Multihash} {regions : List Region}

theorem Explores.path (h : Explores env p keys regions c) :
    reprovidePath env p = exploredPath env p keys regions c := by
  have hne : keys ≠ [] := by
    rintro rfl
    exact absurd h.many (by decide)
  simp [reprovidePath, h.opened, h.addrs, h.loaded, hne, Nat.not_le.mpr h.many, h.explored]

theorem Explores.unique {c' : Bitstr} {keys' : List Multihash} {regions' : List Region}
    (h : Explores env p keys regions c) (h' : Explores env p keys' regions' c') :
    keys = keys' ∧ regions = regions' ∧ c = c' := by
  have hkeys := h.loaded.symm.trans h'.loaded
  have hfound := h.explored.symm.trans h'.explored
  simp only [Except.ok.injEq, Prod.mk.injEq] at hkeys hfound
  exact ⟨hkeys, hfound.1, hfound.2⟩

/-- The keys a call that explores goes on with: those below the covered prefix when it is shorter
than the requested one, otherwise those already loaded. -/
def Loads (env : Env) (p c : Bitstr) (keys : List Multihash) (p' : Bitstr)
    (loaded : List Multihash) : Prop :=
  (c.length < p.length ∧ p' = c ∧ env.keystoreGet c = .ok loaded) ∨
    (p.length ≤ c.length ∧ p' = p ∧ loaded = keys)

omit [TrieLib] in
theorem Loads.unique {p1 p2 : Bitstr} {loaded1 loaded2 : List Multihash}
    (h1 : Loads env p c keys p1 loaded1) (h2 : Loads env p c keys p2 loaded2) :
    p1 = p2 ∧ loaded1 = loaded2 := by
  rcases h1 with ⟨hlt1, rfl, hget1⟩ | ⟨hle1, rfl, rfl⟩ <;>
    rcases h2 with ⟨hlt2, rfl, hget2⟩ | ⟨hle2, rfl, rfl⟩
  · exact ⟨rfl, Except.ok.inj (hget1.symm.trans hget2)⟩
  · omega
  · omega
  · exact ⟨rfl, rfl⟩

omit [TrieLib] in
/-- Keys of a shorter covered prefix are loaded without an error. -/
theorem Loads.not_error {p' : Bitstr} {loaded : List Multihash} {err : String}
    (h : Loads env p c keys p' loaded) (hlt : c.length < p.length) :
    env.keystoreGet c ≠ .error err := by
  rcases h with ⟨-, -, hget⟩ | ⟨hle, -, -⟩
  · rw [hget]
    exact fun h => by cases h
  · omega

omit [TrieLib] in
/-- After a successful exploration, the keys of the covered prefix cannot be loaded, or the regions
are swept. -/
theorem exploredPath_cases (env : Env) (p c : Bitstr) (keys : List Multihash)
    (regions : List Region) :
    (∃ err, c.length < p.length ∧ env.keystoreGet c = .error err ∧
        exploredPath env p keys regions c = .loadFailed regions (loadError err)) ∨
      ∃ p' loaded, Loads env p c keys p' loaded ∧
        exploredPath env p keys regions c = .sweep p' loaded regions := by
  unfold exploredPath
  by_cases hlt : c.length < p.length
  · cases hget : env.keystoreGet c with
    | error err => exact .inl ⟨err, hlt, rfl, by simp [hlt]⟩
    | ok allKeys => exact .inr ⟨c, allKeys, .inl ⟨hlt, rfl, hget⟩, by simp [hlt]⟩
  · exact .inr ⟨p, keys, .inr ⟨Nat.not_lt.mp hlt, rfl, rfl⟩, by simp [hlt]⟩

theorem reprovidePath_cases (env : Env) (p : Bitstr) :
    (∃ keys regions c, Explores env p keys regions c) ∨
      (∃ events, (∀ e ∈ events, e.ofSending = true) ∧ reprovidePath env p = .idle events) ∨
      (∃ err, reprovidePath env p = .failed err) ∨
      ∃ keys, keys ≠ [] ∧ env.keystoreGet p = .ok keys ∧
        keys.length ≤ individualProvideThreshold ∧ reprovidePath env p = .individual keys := by
  unfold reprovidePath
  by_cases hclosed : env.closed = true
  · exact .inr (.inl ⟨[], by simp, by simp [hclosed]⟩)
  by_cases haddr : env.selfAddrs.isEmpty = true
  · refine .inr (.inl ⟨[.warn "provider: no self addresses available for providing keys",
      .triggerCheck], ?_, by simp [hclosed, haddr]⟩)
    simp [Event.ofSending]
  simp only [hclosed, haddr]
  cases hget : env.keystoreGet p with
  | error err => exact .inr (.inr (.inl ⟨_, rfl⟩))
  | ok keys =>
    by_cases hempty : keys.isEmpty = true
    · exact .inr (.inl ⟨[], by simp, by simp [hempty]⟩)
    by_cases hfew : keys.length ≤ individualProvideThreshold
    · exact .inr (.inr (.inr ⟨keys, by simpa using hempty, rfl, hfew, by simp [hempty, hfew]⟩))
    cases hexplore : exploreSwarm env p with
    | error err =>
      exact .inr (.inr (.inl ⟨"reprovide '" ++ bitstrString p ++ "': " ++ err,
        by simp [hempty, hfew]⟩))
    | ok r =>
      exact .inl ⟨keys, r.1, r.2, by simpa using hclosed, by simpa using haddr, hget,
        Nat.not_le.mp hfew, hexplore⟩

theorem reprovidePath_of_peers {peers : List PeerId} (hopen : env.closed = false)
    (haddr : env.selfAddrs ≠ []) (hget : env.keystoreGet p = .ok keys)
    (hpeers : closestPeersToPrefix env p = .ok peers) (hne : peers ≠ []) :
    reprovidePath env p =
      if keys.isEmpty then .idle []
      else if keys.length ≤ individualProvideThreshold then .individual keys
      else exploredPath env p keys (foundRegions env peers) (coveredPrefix env peers) := by
  simp [reprovidePath, hopen, haddr, hget, exploreSwarm_of_peers hpeers hne]

/-! ## A few keys -/

/-- What is rescheduled after a few keys, and the error if there is one. -/
def individualResult (env : Env) (p : Bitstr) (keys : List Multihash) : Bitstr × Option String :=
  match keys with
  | [key] =>
    (if (vanillaOutcome env key).2.isNone then (vanillaOutcome env key).1 else p,
      (vanillaOutcome env key).2)
  | keys =>
    (p, if keys.any fun key => (vanillaOutcome env key).2.isNone then none
      else some ("all individual provides failed for prefix " ++ bitstrString p))

theorem View.foldl_provideOne (env : Env) (p : Bitstr) (keys : List Multihash) (success : Bool)
    (v : View) :
    keys.foldl (fun r key => r.2.provideOne env p true r.1 key) (success, v)
      = (success || keys.any fun key => (vanillaOutcome env key).2.isNone,
        v.emitAll (keys.flatMap (vanillaEvents env))) := by
  induction keys generalizing success v with
  | nil => simp [View.emitAll]
  | cons key keys ih =>
    have hone : v.provideOne env p true success key = (success ||
        (vanillaOutcome env key).2.isNone, v.emitAll (vanillaEvents env key)) := by
      cases hout : (vanillaOutcome env key).2 <;> simp [View.provideOne, hout]
    rw [List.foldl_cons, hone, ih]
    simp [Bool.or_assoc]

/-- **A few keys** are provided, and then one prefix is rescheduled. -/
theorem View.individualProvide_reprovide (env : Env) (p : Bitstr) (hne : keys ≠ []) (v : View) :
    v.individualProvide env p keys true
      = (v.emitAll (keys.flatMap (vanillaEvents env))).finishReprovide
          (individualResult env p keys).1 (individualResult env p keys).2 := by
  match keys with
  | [] => exact absurd rfl hne
  | [key] => simp [View.individualProvide, View.concludeSingle, individualResult]
  | key :: key' :: rest =>
    rw [View.individualProvide]
    · rw [View.foldl_provideOne]
      simp [View.concludeAll, individualResult]
    · simp
    · simp

def individualTrace (env : Env) (p : Bitstr) (keys : List Multihash) : List Event :=
  keys.flatMap (vanillaEvents env) ++
    match (individualResult env p keys).2 with
    | none => [.persistSuccessfulReprovide (individualResult env p keys).1]
    | some err => [.warn err, .triggerCheck]

theorem View.individualProvide_trace (env : Env) (p : Bitstr) (hne : keys ≠ []) (v : View) :
    (v.individualProvide env p keys true).trace = v.trace ++ individualTrace env p keys := by
  rw [View.individualProvide_reprovide env p hne, individualTrace]
  cases (individualResult env p keys).2 with
  | none => simp [View.finishReprovide, View.emitAll, View.schedule]
  | some err =>
    rw [View.finishReprovide, View.failedReprovide_trace]
    simp [View.emitAll, View.schedule]

omit [TrieLib] in
theorem ofSending_flatMap_vanillaEvents {e : Event} (he : e ∈ keys.flatMap (vanillaEvents env)) :
    e.ofSending = true := by
  obtain ⟨key, -, hkey⟩ := List.mem_flatMap.mp he
  unfold vanillaEvents at hkey
  split at hkey
  · rw [List.mem_singleton.mp hkey]
    rfl
  · simp only [List.mem_cons, List.not_mem_nil, or_false] at hkey
    rcases hkey with rfl | rfl <;> rfl

/-! ## Sweeping regions -/

def sweepTrace (env : Env) (p : Bitstr) (dequeued : List Multihash) (regions : List Region) :
    List Event :=
  [.dequeueMatching dequeued, .assignKeysToRegions regions] ++ regionsTrace env regions ++
    if regions.countP (regionFails env) < regions.length then [.persistSuccessfulReprovide p]
    else [.warn ("failed to reprovide any region for prefix " ++ bitstrString p)]

/-- **The path through the regions**: what lies below the prefix leaves the reprovide queue and the
schedule, the regions with keys are scheduled, the claimed ones are released, and those that could
not be sent are queued. -/
theorem View.sweep_eq (env : Env) (p : Bitstr) (keys : List Multihash) (claimed : List Region)
    {v : View} {q : ProvideQueue} {dequeued : List Multihash}
    (hdequeue : v.dequeueMatching p = (dequeued,
      { v with provideQueue := q, trace := v.trace ++ [.dequeueMatching dequeued] })) :
    v.reprovideClaimed env p keys claimed =
      { provideQueue := q
        reprovideQueue := (failedPrefixes env (assignKeysToRegions claimed keys)).foldl pushPrefix
          (v.reprovideQueue.filter fun x => !p.isPrefixOf x)
        scheduled := absorbAll {x | x ∈ v.scheduled ∧ ¬ p <+: x}
          (livePrefixes (assignKeysToRegions claimed keys))
        active := {x | x ∈ v.active ∧ ∀ r ∈ assignKeysToRegions claimed keys, ¬ r.pfx <+: x}
        trace := v.trace ++ sweepTrace env p dequeued (assignKeysToRegions claimed keys) } := by
  unfold View.reprovideClaimed View.reprovideAssigned sweepTrace
  rw [hdequeue]
  simp only [View.provideRegions_reprovide]
  split <;> simp [View.emitAll, View.removeReprovide, View.unschedule]

omit [TrieLib] in
theorem mem_sweepTrace {dequeued : List Multihash} {e : Event}
    (he : e ∈ sweepTrace env p dequeued regions) :
    e.ofSending = true ∨ e = .dequeueMatching dequeued ∨ e = .assignKeysToRegions regions ∨
      (e = .persistSuccessfulReprovide p ∧
        regions.countP (regionFails env) < regions.length) := by
  simp only [sweepTrace, List.mem_append, List.mem_cons, List.not_mem_nil, or_false] at he
  rcases he with ((rfl | rfl) | he) | he
  · exact .inr (.inl rfl)
  · exact .inr (.inr (.inl rfl))
  · exact .inl (ofSending_regionsTrace he)
  · split at he
    · next hlt => exact .inr (.inr (.inr ⟨List.mem_singleton.mp he, hlt⟩))
    · rw [List.mem_singleton.mp he]
      exact .inl rfl

end Paths

end KadDht.SweepingProvider
