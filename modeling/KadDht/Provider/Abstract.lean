import KadDht.Provider.Batch

/-!
# Provider — what the batch methods do to the view

Every method of `Provider/Batch.lean` is simulated by a function on the view of the state, in
which the schedule and the claimed regions are sets of prefixes. What is shown about a call
afterwards is read off these functions.

* **`Job.runs_refine`** — any sequence of calls.
-/

namespace KadDht.SweepingProvider

open Abstraction List Simulates

/-! ## Queues -/

namespace View

variable [TrieLib]

def enqueueProvide (p : Bitstr) (keys : List Multihash) (v : View) : View :=
  { v with provideQueue := (v.provideQueue.enqueue p keys).getD v.provideQueue }

def dequeueMatching (p : Bitstr) (v : View) : List Multihash × View :=
  match v.provideQueue.dequeueMatching p with
  | some (q, keys) =>
    (keys, { v with provideQueue := q, trace := v.trace ++ [.dequeueMatching keys] })
  | none => ([], v)

omit [TrieLib] in
def enqueueReprovide (p : Bitstr) (v : View) : View :=
  { v with reprovideQueue := pushPrefix v.reprovideQueue p }

omit [TrieLib] in
def removeReprovide (p : Bitstr) (v : View) : View :=
  { v with reprovideQueue := v.reprovideQueue.filter fun q => !p.isPrefixOf q }

def failedProvide (p : Bitstr) (keys : List Multihash) (err : String) (v : View) : View :=
  ((v.emit (.warn err)).enqueueProvide p keys).emit .triggerCheck

omit [TrieLib] in
def failedReprovide (p : Bitstr) (err : String) (v : View) : View :=
  ((v.emit (.warn err)).enqueueReprovide p).emit .triggerCheck

omit [TrieLib] in
theorem failedReprovide_trace (p : Bitstr) (err : String) (v : View) :
    (v.failedReprovide p err).trace = v.trace ++ [.warn err, .triggerCheck] := by
  simp [failedReprovide, enqueueReprovide, emitAll]

end View

theorem simulates_releaseRegionReprovide (pfx : Bitstr) :
    sweeping.Simulates (releaseRegionReprovide pfx) (fun v => ((), v.release pfx)) := by
  intro s hs
  refine SimulatesAt.update { hs with
    activeReprovides := pruneSubtrie_wf hs.activeReprovides pfx } ?_
  have hactive : {p | p ∈ (pruneSubtrie s.activeReprovides pfx).keys}
      = {p | p ∈ s.view.active ∧ ¬ pfx <+: p} := by
    ext p
    exact mem_keys_pruneSubtrie hs.activeReprovides pfx p
  show _ = { s.view with active := {p | p ∈ s.view.active ∧ ¬ pfx <+: p} }
  rw [← hactive]
  rfl

section Queues

variable [TrieLib]

theorem simulates_reprovideQueueEnqueue (pfx : Bitstr) :
    sweeping.Simulates (reprovideQueueEnqueue pfx) (fun v => ((), v.enqueueReprovide pfx)) := by
  intro s hs
  obtain ⟨q, heq, hinv, hqueue⟩ := PrefixQueue.push_spec hs.reprovideQueue pfx
  refine ⟨{ s with reprovideQueue := q }, ?_, { hs with reprovideQueue := hinv }, ?_⟩
  · rw [reprovideQueueEnqueue, heq]
    rfl
  · show _ = { s.view with reprovideQueue := pushPrefix s.reprovideQueue.queue pfx }
    rw [← hqueue]
    rfl

theorem simulates_reprovideQueueRemove (pfx : Bitstr) :
    sweeping.Simulates (reprovideQueueRemove pfx) (fun v => ((), v.removeReprovide pfx)) := by
  intro s hs
  obtain ⟨q, heq, hinv, hqueue⟩ := PrefixQueue.remove_spec hs.reprovideQueue pfx
  refine ⟨{ s with reprovideQueue := q }, ?_, { hs with reprovideQueue := hinv }, ?_⟩
  · rw [reprovideQueueRemove, heq]
    rfl
  · show _ = { s.view with
      reprovideQueue := s.reprovideQueue.queue.filter fun p => !pfx.isPrefixOf p }
    rw [← hqueue]
    rfl

variable {pfx : Bitstr} {keys : List Multihash} {r : Region} {regions : List Region}
  {reprovide : Bool}

theorem simulates_provideQueueEnqueue (hmatch : ∀ m ∈ keys, pfx <+: (mhToBit256 m).bits) :
    sweeping.Simulates (provideQueueEnqueue pfx keys)
      (fun v => ((), v.enqueueProvide pfx keys)) := by
  intro s hs
  obtain ⟨q, heq, hinv⟩ := ProvideQueue.step_inv hs.provideQueue (.enqueue pfx keys) hmatch
  replace heq : s.provideQueue.enqueue pfx keys = some q := heq
  refine ⟨{ s with provideQueue := q }, ?_, { hs with provideQueue := hinv }, ?_⟩
  · rw [provideQueueEnqueue, heq]
    rfl
  · show _ = { s.view with
      provideQueue := (s.provideQueue.enqueue pfx keys).getD s.provideQueue }
    rw [heq]
    rfl

theorem simulates_provideQueueDequeueMatching (pfx : Bitstr) :
    sweeping.Simulates (provideQueueDequeueMatching pfx) (fun v => v.dequeueMatching pfx) := by
  intro s hs
  obtain ⟨q, keys, heq, hinv, -⟩ := ProvideQueue.dequeueMatching_spec hs.provideQueue pfx
  have hview : s.view.dequeueMatching pfx = (keys,
      { s.view with provideQueue := q, trace := s.view.trace ++ [.dequeueMatching keys] }) := by
    unfold View.dequeueMatching
    rw [show s.view.provideQueue.dequeueMatching pfx = some (q, keys) from heq]
  show sweeping.SimulatesAt s _ (s.view.dequeueMatching pfx)
  rw [hview]
  refine ⟨{ s with provideQueue := q, trace := s.trace ++ [.dequeueMatching keys] }, ?_,
    { hs with provideQueue := hinv }, rfl⟩
  rw [provideQueueDequeueMatching, heq]
  rfl

theorem simulates_failedProvide (err : String) (hmatch : ∀ m ∈ keys, pfx <+: (mhToBit256 m).bits) :
    sweeping.Simulates (failedProvide pfx keys err) (fun v => ((), v.failedProvide pfx keys err)) :=
  congr (andThen (simulates_emit _)
    (andThen (simulates_provideQueueEnqueue hmatch) (simulates_emit _))) fun _ => rfl

theorem simulates_failedReprovide (pfx : Bitstr) (err : String) :
    sweeping.Simulates (failedReprovide pfx err) (fun v => ((), v.failedReprovide pfx err)) :=
  congr (andThen (simulates_emit _)
    (andThen (simulates_reprovideQueueEnqueue pfx) (simulates_emit _))) fun _ => rfl

/-! ## Claims -/

/-- One round of the loop of `claimRegionReprovide`: the claims absorb the prefix, and the region
is claimed when it was not covered. -/
theorem claimRegion_spec {acc : List Region × Trie Bitstr Unit} (h : acc.2.WF)
    (hpeers : r.peers.isEmptyLeaf = false) :
    (claimRegion acc r).2.WF ∧
      {p | p ∈ (claimRegion acc r).2.keys} = absorb {p | p ∈ acc.2.keys} r.pfx ∧
      (Covers {p | p ∈ acc.2.keys} r.pfx → (claimRegion acc r).1 = acc.1) ∧
      (¬ Covers {p | p ∈ acc.2.keys} r.pfx → (claimRegion acc r).1 = acc.1 ++ [r]) := by
  have hfind := findPrefixOfKey_isNone h r.pfx
  unfold claimRegion
  rw [hpeers]
  by_cases hcov : Covers {p | p ∈ acc.2.keys} r.pfx
  · have hnone : ¬ (findPrefixOfKey acc.2 r.pfx).isNone = true := fun hn => hfind.mp hn hcov
    rw [if_neg hnone, absorb_of_covers hcov]
    exact ⟨h, rfl, fun _ => rfl, fun hn => absurd hcov hn⟩
  · rw [if_pos (hfind.mpr hcov)]
    obtain ⟨hwf, hkeys⟩ := add_pruneSubtrie h hcov ()
    exact ⟨hwf, hkeys, fun hc => absurd hc hcov, fun _ => rfl⟩

open Classical in
/-- The loop of `claimRegionReprovide` over disjoint regions: what is claimed depends on the
claims before the loop only. -/
theorem foldl_claimRegion_spec (regions : List Region) (acc : List Region × Trie Bitstr Unit)
    (h : acc.2.WF) (hpeers : ∀ r ∈ regions, r.peers.isEmptyLeaf = false) (hdisj : Separate regions)
    :
    (regions.foldl claimRegion acc).2.WF ∧
      {p | p ∈ (regions.foldl claimRegion acc).2.keys}
        = absorbAll {p | p ∈ acc.2.keys} (regions.map Region.pfx) ∧
      (regions.foldl claimRegion acc).1
        = acc.1 ++ regions.filter fun r => ¬ Covers {p | p ∈ acc.2.keys} r.pfx := by
  induction regions generalizing acc with
  | nil => exact ⟨h, rfl, by simp⟩
  | cons r regions ih =>
    have hdisj := pairwise_cons.mp hdisj
    obtain ⟨hwf, hkeys, hcovered, hfresh⟩ := claimRegion_spec h (hpeers r mem_cons_self)
    obtain ⟨ihwf, ihkeys, ihout⟩ := ih _ hwf (fun r' hr' => hpeers r' (mem_cons_of_mem r hr'))
      hdisj.2
    refine ⟨ihwf, ?_, ?_⟩
    · rw [foldl_cons, ihkeys, hkeys]
      rfl
    · rw [foldl_cons, ihout, hkeys]
      -- the claim just made covers no later region
      have hsame : (regions.filter fun r' => ¬ Covers (absorb {p | p ∈ acc.2.keys} r.pfx) r'.pfx)
          = regions.filter fun r' => ¬ Covers {p | p ∈ acc.2.keys} r'.pfx := by
        refine filter_congr fun r' hr' => ?_
        rw [decide_eq_decide, covers_absorb, not_or]
        exact ⟨And.left, fun hn => ⟨hn, fun hpre => hdisj.1 r' hr' (.inl hpre)⟩⟩
      rw [hsame]
      by_cases hcov : Covers {p | p ∈ acc.2.keys} r.pfx
      · rw [hcovered hcov, filter_cons_of_neg (by simpa using hcov)]
      · rw [hfresh hcov, filter_cons_of_pos (by simpa using hcov), append_assoc]
        rfl

open Classical in
/-- The regions `claimRegionReprovide` returns: those that no claim covers. -/
noncomputable def View.claimed (regions : List Region) (v : View) : List Region :=
  regions.filter fun r => ¬ Covers v.active r.pfx

omit [TrieLib] in
theorem View.mem_claimed {v : View} :
    r ∈ v.claimed regions ↔ r ∈ regions ∧ ¬ Covers v.active r.pfx := by
  simp [View.claimed]

def View.claim (regions : List Region) (v : View) : View :=
  { v with active := absorbAll v.active (regions.map Region.pfx) }

/-- **`claimRegionReprovide`.** -/
theorem simulates_claimRegionReprovide (hpeers : ∀ r ∈ regions, r.peers.entries ≠ [])
    (hdisj : Separate regions) :
    sweeping.Simulates (claimRegionReprovide regions) (fun v =>
      (v.claimed regions, v.claim regions)) := by
  intro s hs
  have hfull : ∀ r ∈ regions, r.peers.isEmptyLeaf = false := by
    intro r hr
    rw [Bool.eq_false_iff, ne_eq, Trie.isEmptyLeaf_iff]
    intro heq
    exact hpeers r hr (by simp [heq])
  obtain ⟨hwf, hkeys, hout⟩ := foldl_claimRegion_spec regions ([], s.activeReprovides)
    hs.activeReprovides hfull hdisj
  refine ⟨{ s with activeReprovides := (regions.foldl claimRegion ([], s.activeReprovides)).2 },
    ?_, { hs with activeReprovides := hwf }, ?_⟩
  · have hclaimed : (regions.foldl claimRegion ([], s.activeReprovides)).1
        = s.view.claimed regions := hout
    show some ((regions.foldl claimRegion ([], s.activeReprovides)).1, _) = _
    rw [hclaimed]
    rfl
  · show _ = { s.view with
      active := absorbAll {p | p ∈ s.activeReprovides.keys} (regions.map Region.pfx) }
    rw [← hkeys]
    rfl

/-! ## Individual provides -/

namespace View

omit [TrieLib] in
def finishReprovide (p : Bitstr) (provideErr : Option String) (v : View) : View :=
  match provideErr with
  | none => (v.schedule p).emit (.persistSuccessfulReprovide p)
  | some err => (v.schedule p).failedReprovide p err

def provideOne (env : Env) (p : Bitstr) (reprovide success : Bool) (key : Multihash) (v : View) :
    Bool × View :=
  match (vanillaOutcome env key).2 with
  | none => (true, v.emitAll (vanillaEvents env key))
  | some err =>
    if reprovide then (success, v.emitAll (vanillaEvents env key))
    else (success, (v.emitAll (vanillaEvents env key)).failedProvide p [key] err)

def concludeSingle (p : Bitstr) (key : Multihash) (reprovide : Bool) (r : Bitstr × Option String)
    (v : View) : View :=
  if reprovide then v.finishReprovide (if r.2.isNone then r.1 else p) r.2
  else
    match r.2 with
    | none => v
    | some err =>
      v.failedProvide p [key]
        ("individual provide failed for prefix '" ++ bitstrString p ++ "', " ++ err)

omit [TrieLib] in
def concludeAll (p : Bitstr) (reprovide success : Bool) (v : View) : View :=
  if reprovide then
    v.finishReprovide p (if success then none
      else some ("all individual provides failed for prefix " ++ bitstrString p))
  else v

def individualProvide (env : Env) (p : Bitstr) (keys : List Multihash) (reprovide : Bool)
    (v : View) : View :=
  match keys with
  | [] => v
  | [key] =>
    (v.emitAll (vanillaEvents env key)).concludeSingle p key reprovide (vanillaOutcome env key)
  | keys =>
    let r := keys.foldl (fun r key => r.2.provideOne env p reprovide r.1 key) (false, v)
    r.2.concludeAll p reprovide r.1

end View

theorem simulates_finishReprovide (env : Env) (pfx : Bitstr) (provideErr : Option String) :
    sweeping.Simulates (finishReprovide env pfx provideErr)
      (fun v => ((), v.finishReprovide pfx provideErr)) := by
  cases provideErr with
  | none =>
    exact congr (andThen (simulates_reschedulePrefix env pfx)
      (simulates_emit _)) fun _ => rfl
  | some err =>
    exact congr (andThen (simulates_reschedulePrefix env pfx)
      (simulates_failedReprovide pfx err)) fun _ => rfl

theorem simulates_provideOne (env : Env) (success : Bool) {key : Multihash}
    (hmatch : reprovide = true ∨ pfx <+: (mhToBit256 key).bits) :
    sweeping.Simulates (provideOne env pfx reprovide success key)
      (fun v => v.provideOne env pfx reprovide success key) := by
  unfold provideOne View.provideOne
  cases hout : (vanillaOutcome env key).2 with
  | none =>
    refine congr (andThen (f := fun v => (true, v))
      (simulates_vanillaProvide env key) ?_) fun _ => rfl
    rw [hout]
    exact pure true
  | some err =>
    cases reprovide with
    | true =>
      refine congr (andThen (f := fun v => (success, v))
        (simulates_vanillaProvide env key) ?_) fun _ => rfl
      rw [hout]
      exact pure success
    | false =>
      have hkey : pfx <+: (mhToBit256 key).bits := hmatch.resolve_left Bool.false_ne_true
      refine congr (andThen
        (f := fun v => (success, v.failedProvide pfx [key] err))
        (simulates_vanillaProvide env key) ?_) fun _ => rfl
      rw [hout]
      exact congr (andThen
        (simulates_failedProvide err (by simpa using hkey)) (pure success)) fun _ => rfl

theorem simulates_concludeSingle (env : Env) {key : Multihash}
    (hmatch : reprovide = true ∨ pfx <+: (mhToBit256 key).bits) (r : Bitstr × Option String) :
    sweeping.Simulates (concludeSingle env pfx key reprovide r)
      (fun v => ((), v.concludeSingle pfx key reprovide r)) := by
  unfold concludeSingle View.concludeSingle
  cases reprovide with
  | true => exact simulates_finishReprovide env _ _
  | false =>
    cases r.2 with
    | none => exact pure ()
    | some err =>
      have hkey := hmatch.resolve_left Bool.false_ne_true
      exact simulates_failedProvide _ (by simpa using hkey)

theorem simulates_concludeAll (env : Env) (pfx : Bitstr) (reprovide success : Bool) :
    sweeping.Simulates (concludeAll env pfx reprovide success)
      (fun v => ((), v.concludeAll pfx reprovide success)) := by
  cases reprovide with
  | true => exact simulates_finishReprovide env _ _
  | false => exact pure ()

/-- **`individualProvide`.** The keys of a provide have to match the prefix, since a failure puts
them back in the provide queue. -/
theorem simulates_individualProvide (env : Env)
    (hmatch : reprovide = true ∨ ∀ m ∈ keys, pfx <+: (mhToBit256 m).bits) :
    sweeping.Simulates (individualProvide env pfx keys reprovide)
      (fun v => ((), v.individualProvide env pfx keys reprovide)) := by
  match keys with
  | [] => exact pure ()
  | [key] =>
    have hkey := hmatch.imp_right fun hall => hall key mem_cons_self
    exact congr (andThen (simulates_vanillaProvide env key)
      (simulates_concludeSingle env hkey _)) fun _ => rfl
  | key :: key' :: rest =>
    have hloop := foldlM (key :: key' :: rest) (fun success k hk =>
      simulates_provideOne env success (hmatch.imp_right fun hall => hall k hk)) false
    exact congr (bind
      (g := fun success v => ((), v.concludeAll pfx reprovide success)) hloop
      fun v => simulates_concludeAll env pfx reprovide _) fun _ => rfl

/-! ## Regions -/

def regionAllocations (env : Env) (r : Region) : Allocations Multihash PeerId :=
  allocateToKClosest r.keys r.peers env.replicationFactor

def regionErr (env : Env) (r : Region) : Option String :=
  (sendOutcome env (regionAllocations env r)).2

def regionFails (env : Env) (r : Region) : Bool := !r.keys.isEmptyLeaf && (regionErr env r).isSome

def regionEvents (env : Env) (r : Region) : List Event :=
  (valuesIter r.keys env.order).map .addLocalRecord
    ++ [.sendProviderRecords (regionAllocations env r) (regionErr env r)]

namespace View

def concludeRegion (env : Env) (reprovide : Bool) (r : Region) (err : Option String) (v : View) :
    View :=
  let v := if reprovide then (v.release r.pfx).schedule r.pfx else v
  match err with
  | none => v
  | some err =>
    if reprovide then v.failedReprovide r.pfx (regionError r.pfx err)
    else v.failedProvide r.pfx (valuesIter r.keys env.order) (regionError r.pfx err)

def provideRegion (env : Env) (reprovide : Bool) (v : View) (r : Region) : View :=
  if r.keys.isEmptyLeaf then (if reprovide then v.release r.pfx else v)
  else (v.emitAll (regionEvents env r)).concludeRegion env reprovide r (regionErr env r)

def provideRegions (env : Env) (regions : List Region) (reprovide : Bool) (v : View) : View :=
  regions.foldl (provideRegion env reprovide) v

end View

theorem simulates_concludeRegion (env : Env) (errCount : Nat) (hr : r.KeysMatch)
    (err : Option String) :
    sweeping.Simulates (concludeRegion env reprovide errCount r err) (fun v =>
      (errCount + err.isSome.toNat, v.concludeRegion env reprovide r err)) := by
  have hmatch : ∀ m ∈ valuesIter r.keys env.order, r.pfx <+: (mhToBit256 m).bits := by
    intro m hm
    obtain ⟨e, he, rfl⟩ := mem_map.mp ((valuesIter_perm r.keys env.order).mem_iff.mp hm)
    exact hr.filed e he ▸ hr.below e he
  cases reprovide with
  | true =>
    cases err with
    | none =>
      exact congr (andThen (simulates_releaseRegionReprovide r.pfx)
        (andThen (simulates_reschedulePrefix env r.pfx)
          (skip (simulates_modifyStats _) (pure errCount)))) fun _ => rfl
    | some err =>
      exact congr (andThen (simulates_releaseRegionReprovide r.pfx)
        (andThen (simulates_reschedulePrefix env r.pfx)
          (andThen (simulates_failedReprovide r.pfx _) (pure _)))) fun _ => rfl
  | false =>
    cases err with
    | none => exact skip (simulates_modifyStats _) (pure errCount)
    | some err =>
      exact congr (andThen (simulates_failedProvide _ hmatch)
        (pure _)) fun _ => rfl

omit [TrieLib] in
theorem simulates_emitAll (es : List Event) :
    sweeping.Simulates (modify fun s => { s with trace := s.trace ++ es })
      (fun v => ((), v.emitAll es)) :=
  fun _ hs => SimulatesAt.update
    { hs with } rfl

theorem simulates_provideRegion (env : Env) (reprovide : Bool) (errCount : Nat) (hr : r.KeysMatch) :
    sweeping.Simulates (provideRegion env reprovide errCount r) (fun v =>
      (errCount + (regionFails env r).toNat, v.provideRegion env reprovide r)) := by
  unfold provideRegion View.provideRegion regionFails
  by_cases hempty : r.keys.isEmptyLeaf = true
  · simp only [hempty, if_true]
    cases reprovide with
    | true =>
      exact congr (andThen (simulates_releaseRegionReprovide r.pfx)
        (pure errCount)) fun _ => rfl
    | false =>
      exact skip (k := fun _ => pure errCount) (pure ())
        (pure errCount)
  · simp only [hempty, Bool.false_eq_true, if_false]
    refine congr (andThen (simulates_emitAll _)
      (andThen (simulates_sendProviderRecords env _ _)
        (simulates_concludeRegion env errCount hr _))) fun v => ?_
    simp only [View.emitAll_emitAll]
    rfl

/-- **`provideRegions`.** The regions are handled one by one; the result tells whether not all of
them failed. -/
theorem simulates_provideRegions (env : Env) (reprovide : Bool) (hr : ∀ r ∈ regions, r.KeysMatch) :
    sweeping.Simulates (provideRegions env regions reprovide) (fun v =>
      (decide (regions.countP (regionFails env) < regions.length),
        v.provideRegions env regions reprovide)) := by
  have hloop := foldlM (A := sweeping) regions (fun errCount r hmem =>
    simulates_provideRegion env reprovide errCount (hr r hmem)) 0
  -- the two components of the loop do not depend on each other
  have hfold : ∀ (rs : List Region) (n : Nat) (v : View),
      rs.foldl (fun a r => (a.1 + (regionFails env r).toNat, a.2.provideRegion env reprovide r))
        (n, v) = (n + rs.countP (regionFails env), v.provideRegions env rs reprovide) := by
    intro rs
    induction rs with
    | nil => exact fun n v => rfl
    | cons r rs ih =>
      intro n v
      rw [foldl_cons, ih, countP_cons]
      simp only [View.provideRegions, foldl_cons, Prod.mk.injEq, and_true]
      cases regionFails env r with
      | false => simp
      | true => simp; omega
  refine congr (bind (g := fun errCount v =>
    (decide (errCount < regions.length), v)) hloop fun v => pure _) fun v => ?_
  rw [hfold, Nat.zero_add]

/-! ## Batches -/

namespace View

omit [TrieLib] in
def selfAddrInfo (env : Env) (v : View) : Bool × View :=
  if env.selfAddrs.isEmpty then
    (false, v.emitAll [.warn "provider: no self addresses available for providing keys",
      .triggerCheck])
  else (true, v)

/-- The end of `batchProvide`, once keys are assigned to the regions. -/
def provideAssigned (env : Env) (p : Bitstr) (regions : List Region) (v : View) : View :=
  let v := (v.emit (.assignKeysToRegions regions)).provideRegions env regions false
  if regions.countP (regionFails env) < regions.length then v
  else v.emit (.warn ("failed to provide any region for prefix " ++ bitstrString p))

/-- The part of `batchProvide` after a successful exploration. -/
def provideExplored (env : Env) (p : Bitstr) (keys : List Multihash) (regions : List Region)
    (c : Bitstr) (v : View) : View :=
  let r := v.dequeueMatching c
  r.2.provideAssigned env p (assignKeysToRegions regions (keys ++ r.1))

def batchProvide (env : Env) (p : Bitstr) (keys : List Multihash) (v : View) : View :=
  if keys.isEmpty then v
  else if env.selfAddrs.isEmpty then (v.selfAddrInfo env).2
  else if keys.length ≤ individualProvideThreshold then v.individualProvide env p keys false
  else
    match exploreSwarm env p with
    | .error err => v.failedProvide p keys ("provide '" ++ bitstrString p ++ "': " ++ err)
    | .ok (regions, c) => v.provideExplored env p keys regions c

/-- The end of `batchReprovide`, once keys are assigned to the claimed regions. -/
def reprovideAssigned (env : Env) (p : Bitstr) (regions : List Region) (v : View) : View :=
  let v := (v.removeReprovide p).unschedule p
  let v := (v.emit (.assignKeysToRegions regions)).provideRegions env regions true
  if regions.countP (regionFails env) < regions.length then v.emit (.persistSuccessfulReprovide p)
  else v.emit (.warn ("failed to reprovide any region for prefix " ++ bitstrString p))

def reprovideClaimed (env : Env) (p : Bitstr) (keys : List Multihash) (claimed : List Region)
    (v : View) : View :=
  (v.dequeueMatching p).2.reprovideAssigned env p (assignKeysToRegions claimed keys)

/-- The part of `batchReprovide` after a successful exploration. -/
noncomputable def reprovideExplored (env : Env) (p : Bitstr) (keys : List Multihash)
    (regions : List Region) (c : Bitstr) (v : View) : View :=
  let claimed := v.claimed regions
  let v := v.claim regions
  if c.length < p.length then
    match env.keystoreGet c with
    | .error err => (v.failedReprovide p (loadError err)).schedule p
    | .ok allKeys => v.reprovideClaimed env c allKeys claimed
  else v.reprovideClaimed env p keys claimed

noncomputable def batchReprovide (env : Env) (p : Bitstr) (v : View) : View :=
  if env.closed then v
  else if env.selfAddrs.isEmpty then (v.selfAddrInfo env).2
  else
    match env.keystoreGet p with
    | .error err => (v.failedReprovide p (loadError err)).schedule p
    | .ok keys =>
      if keys.isEmpty then v
      else if keys.length ≤ individualProvideThreshold then v.individualProvide env p keys true
      else
        match exploreSwarm env p with
        | .error err =>
          (v.failedReprovide p ("reprovide '" ++ bitstrString p ++ "': " ++ err)).schedule p
        | .ok (regions, c) => v.reprovideExplored env p keys regions c

end View

omit [TrieLib] in
theorem simulates_selfAddrInfo (env : Env) :
    sweeping.Simulates (selfAddrInfo env) (fun v => v.selfAddrInfo env) := by
  unfold selfAddrInfo View.selfAddrInfo
  split
  · refine congr (andThen (simulates_emit _) (andThen
      (simulates_emit _) (pure false))) fun v => ?_
    simp
  · exact pure true

omit [TrieLib] in
theorem simulates_withSelfAddr (env : Env) {m : ProviderM Unit} {f : View → View}
    (hm : sweeping.Simulates m (fun v => ((), f v))) :
    sweeping.Simulates (do
      let ok ← selfAddrInfo env
      if !ok then pure () else m)
      (fun v => ((), if env.selfAddrs.isEmpty then (v.selfAddrInfo env).2 else f v)) := by
  have haddr := simulates_selfAddrInfo env
  unfold View.selfAddrInfo at haddr ⊢
  by_cases hempty : env.selfAddrs.isEmpty = true
  · simp only [hempty, if_true] at haddr ⊢
    exact congr (andThen haddr (pure ())) fun _ => rfl
  · simp only [hempty] at haddr ⊢
    exact skip haddr hm

theorem simulates_provideRegions_or (env : Env) (hr : ∀ r ∈ regions, r.KeysMatch)
    {provided failed : ProviderM Unit} {f g : View → View}
    (hprovided : sweeping.Simulates provided (fun v => ((), f v)))
    (hfailed : sweeping.Simulates failed (fun v => ((), g v))) :
    sweeping.Simulates (do
      let ok ← provideRegions env regions reprovide
      if ok then provided else failed)
      (fun v => ((), if regions.countP (regionFails env) < regions.length
        then f (v.provideRegions env regions reprovide)
        else g (v.provideRegions env regions reprovide))) := by
  have hregions := simulates_provideRegions env reprovide hr
  by_cases hlt : regions.countP (regionFails env) < regions.length
  · simp only [hlt, decide_true, if_true] at hregions ⊢
    exact congr (andThen hregions hprovided) fun _ => rfl
  · simp only [hlt, decide_false, if_false] at hregions ⊢
    exact congr (andThen hregions hfailed) fun _ => rfl

theorem simulates_reprovideClaimed (env : Env) (pfx : Bitstr) (keys : List Multihash)
    {claimed : List Region} (hdisj : Separate claimed) :
    sweeping.Simulates (reprovideClaimed env pfx keys claimed)
      (fun v => ((), v.reprovideClaimed env pfx keys claimed)) := by
  have hr : ∀ r ∈ assignKeysToRegions claimed keys, r.KeysMatch := fun r =>
    keysMatch_assignKeysToRegions hdisj keys
  refine congr (bind
    (g := fun _ v => ((), v.reprovideAssigned env pfx (assignKeysToRegions claimed keys)))
    (simulates_provideQueueDequeueMatching pfx) fun _ => ?_) fun _ => rfl
  exact congr (andThen (simulates_reprovideQueueRemove pfx)
    (andThen (simulates_unscheduleSubsumedPrefixesNoLock env pfx)
      (andThen (simulates_emit _)
        (simulates_provideRegions_or env hr (simulates_emit _) (simulates_emit _)))))
    fun _ => rfl

omit [TrieLib] in
theorem View.claimed_disjoint (hdisj : Separate regions) (v : View) :
    Separate (v.claimed regions) :=
  hdisj.sublist filter_sublist

/-- The end of a reprovide. If the exploration covers more than the prefix, the keys are loaded
again, which may fail. -/
theorem simulates_reprovideExplored (env : Env) (pfx c : Bitstr) (keys : List Multihash)
    (hpeers : ∀ r ∈ regions, r.peers.entries ≠ []) (hdisj : Separate regions) :
    sweeping.Simulates (do
      let claimed ← claimRegionReprovide regions
      if c.length < pfx.length then
        match env.keystoreGet c with
        | .error err => do
          failedReprovide pfx (loadError err)
          reschedulePrefix env pfx
          ongoingReprovides (.finish 0)
        | .ok allKeys => do
          ongoingReprovides (.addKeys (allKeys.length - keys.length))
          reprovideClaimed env c allKeys claimed
          ongoingReprovides (.finish allKeys.length)
      else do
        reprovideClaimed env pfx keys claimed
        ongoingReprovides (.finish keys.length))
      (fun v => ((), v.reprovideExplored env pfx keys regions c)) := by
  have hclaim := simulates_claimRegionReprovide hpeers hdisj
  unfold View.reprovideExplored
  by_cases hlt : c.length < pfx.length
  · simp only [hlt, if_true]
    cases env.keystoreGet c with
    | error err =>
      refine congr (bind
        (g := fun _ v => ((), (v.failedReprovide pfx (loadError err)).schedule pfx)) hclaim
        fun _ => ?_) fun _ => rfl
      exact congr (andThen (simulates_failedReprovide pfx _)
        (andThen (simulates_reschedulePrefix env pfx) (simulates_modifyStats _)))
        fun _ => rfl
    | ok allKeys =>
      refine congr (bind
        (g := fun claimed v => ((), v.reprovideClaimed env c allKeys claimed)) hclaim
        fun v => ?_) fun _ => rfl
      exact skip (simulates_modifyStats _) (congr (andThen
        (simulates_reprovideClaimed env c allKeys (View.claimed_disjoint hdisj v))
        (simulates_modifyStats _)) fun _ => rfl)
  · simp only [hlt, if_false]
    refine congr (bind
      (g := fun claimed v => ((), v.reprovideClaimed env pfx keys claimed)) hclaim
      fun v => ?_) fun _ => rfl
    exact congr (andThen
      (simulates_reprovideClaimed env pfx keys (View.claimed_disjoint hdisj v))
      (simulates_modifyStats _)) fun _ => rfl

/-- **`batchReprovide`** does not panic, keeps the invariant, and acts on the view as
`View.batchReprovide`. -/
theorem simulates_batchReprovide (env : Env) (pfx : Bitstr) :
    sweeping.Simulates (batchReprovide env pfx) (fun v => ((), v.batchReprovide env pfx)) := by
  unfold batchReprovide View.batchReprovide
  by_cases hclosed : env.closed = true
  · simp only [hclosed, if_true]
    exact pure ()
  · simp only [hclosed]
    refine simulates_withSelfAddr env ?_
    cases env.keystoreGet pfx with
    | error err =>
      exact congr (andThen (simulates_failedReprovide pfx _)
        (simulates_reschedulePrefix env pfx)) fun _ => rfl
    | ok keys =>
      by_cases hempty : keys.isEmpty = true
      · simp only [hempty, if_true]
        exact pure ()
      · simp only [hempty]
        refine skip (simulates_modifyStats _) ?_
        by_cases hfew : keys.length ≤ individualProvideThreshold
        · simp only [hfew, if_true]
          exact congr (andThen (simulates_individualProvide env (.inl rfl))
            (simulates_modifyStats _)) fun _ => rfl
        · simp only [hfew, if_false]
          cases hexplore : exploreSwarm env pfx with
          | error err =>
            exact congr (andThen (simulates_failedReprovide pfx _)
              (andThen (simulates_reschedulePrefix env pfx) (simulates_modifyStats _)))
              fun _ => rfl
          | ok r =>
            exact simulates_reprovideExplored env pfx r.2 keys
              (fun r' hr' => (exploreSwarm_peers hexplore hr').nonempty)
              (exploreSwarm_disjoint hexplore)

/-- **`batchProvide`** does not panic, keeps the invariant, and acts on the view as
`View.batchProvide`, when the keys match the prefix. -/
theorem simulates_batchProvide (env : Env) (hmatch : ∀ m ∈ keys, pfx <+: (mhToBit256 m).bits) :
    sweeping.Simulates (batchProvide env pfx keys)
      (fun v => ((), v.batchProvide env pfx keys)) := by
  unfold batchProvide View.batchProvide
  by_cases hempty : keys.isEmpty = true
  · simp only [hempty, if_true]
    exact pure ()
  · simp only [hempty]
    refine simulates_withSelfAddr env (skip (simulates_modifyStats _) ?_)
    by_cases hfew : keys.length ≤ individualProvideThreshold
    · simp only [hfew, if_true]
      exact congr (andThen (simulates_individualProvide env (.inr hmatch))
        (simulates_modifyStats _)) fun _ => rfl
    · simp only [hfew, if_false]
      cases hexplore : exploreSwarm env pfx with
      | error err =>
        exact congr (andThen (simulates_failedProvide _ hmatch)
          (simulates_modifyStats _)) fun _ => rfl
      | ok r =>
        refine congr (bind (g := fun extraKeys v => ((),
          v.provideAssigned env pfx (assignKeysToRegions r.1 (keys ++ extraKeys))))
          (simulates_provideQueueDequeueMatching r.2) fun _ => ?_) fun _ => rfl
        have hr := fun ks r' => keysMatch_assignKeysToRegions (r := r')
          (exploreSwarm_disjoint hexplore) ks
        exact skip (simulates_modifyStats _) (congr (andThen
          (simulates_emit _) (simulates_provideRegions_or env (hr _) (simulates_modifyStats _)
            (andThen (simulates_emit _) (simulates_modifyStats _)))) fun _ => rfl)

/-! ## Any number of calls -/

abbrev KeysBelow (pfx : Bitstr) : Type := List {m : Multihash // pfx <+: (mhToBit256 m).bits}

inductive Job where
  /-- `provideQueue.Enqueue` -/
  | enqueue (pfx : Bitstr) (keys : KeysBelow pfx)
  | batchProvide (pfx : Bitstr) (keys : KeysBelow pfx)
  | batchReprovide (pfx : Bitstr)
  | schedulePrefix (pfx : Bitstr) (justReprovided : Bool)

namespace Job

def run (env : Env) : Job → ProviderM Unit
  | enqueue pfx keys => provideQueueEnqueue pfx keys.unattach
  | batchProvide pfx keys => SweepingProvider.batchProvide env pfx keys.unattach
  | batchReprovide pfx => SweepingProvider.batchReprovide env pfx
  | schedulePrefix pfx justReprovided => schedulePrefixNoLock env pfx justReprovided

noncomputable def onView (env : Env) : Job → View → View
  | enqueue pfx keys, v => v.enqueueProvide pfx keys.unattach
  | batchProvide pfx keys, v => v.batchProvide env pfx keys.unattach
  | batchReprovide pfx, v => v.batchReprovide env pfx
  | schedulePrefix pfx _, v => v.schedule pfx

theorem simulates (env : Env) (job : Job) :
    sweeping.Simulates (job.run env) (fun v => ((), job.onView env v)) := by
  have hmatch {pfx : Bitstr} (keys : KeysBelow pfx) :
      ∀ m ∈ keys.unattach, pfx <+: (mhToBit256 m).bits := by
    intro m hm
    obtain ⟨k, -, rfl⟩ := mem_map.mp hm
    exact k.2
  cases job with
  | enqueue pfx keys => exact simulates_provideQueueEnqueue (hmatch keys)
  | batchProvide pfx keys => exact simulates_batchProvide env (hmatch keys)
  | batchReprovide pfx => exact simulates_batchReprovide env pfx
  | schedulePrefix pfx justReprovided =>
    exact simulates_schedulePrefixNoLock env pfx justReprovided

theorem simulates_forM (jobs : List (Env × Job)) :
    sweeping.Simulates (forM jobs fun job => job.2.run job.1)
      (fun v => ((), jobs.foldl (fun v job => job.2.onView job.1 v) v)) := by
  induction jobs with
  | nil => exact pure ()
  | cons job jobs ih =>
    rw [forM_cons]
    exact congr (andThen (job.2.simulates job.1) ih) fun _ => rfl

/-- **The provider refines its view.** Whatever calls are made one after the other, each with an
environment of its own, none of them panics, the queues and tries stay consistent, and what is
visible is what the calls do to the view. -/
theorem runs_refine (jobs : List (Env × Job)) :
    ∃ s, (forM jobs fun job => job.2.run job.1 : ProviderM Unit) State.new = some ((), s) ∧
      s.Inv ∧ s.view = jobs.foldl (fun v job => job.2.onView job.1 v) State.new.view :=
  simulates_forM jobs State.new State.inv_new

end Job

end Queues

end KadDht.SweepingProvider
