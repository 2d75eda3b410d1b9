import KadDht.Keystore.ResetProtocol

/-!
# Keystore — the result of a reset

`ResetCids` decides what it returns before its deferred function hands the cleanup to the worker.
When the worker has returned meanwhile, the cleanup is skipped, and a call that has written all its
keys returns no error although the datastores are not exchanged.

* **`swaps_iff`** — a call that returns no error was performed unless the worker has returned.
-/

namespace KadDht.Keystore

open DsM List Trace

/-! ## What an event does to a call -/

inductive Call.Goes (i : Nat) : ResetEvent → Call → Call → Prop where
  | start {stream : List Multihash} : Goes i (.start i) (run (.waiting stream)) (awaitStart stream)
  | cleanup {err : Option String} : Goes i (.cleanup i) (run (.ending err)) (awaitCleanup err)
  | granted {stream : List Multihash} :
    Goes i .respond (awaitStart stream) (run (.reading stream []))
  | cleaned {err : Option String} : Goes i .respond (awaitCleanup err) (run (.returned err))
  | skip {err : Option String} : Goes i (.skip i) (run (.ending err)) (run (.returned err))
  /-- The start is refused, or the call gives up before. -/
  | fails {e : ResetEvent} {c : Call} {err : String} : Goes i e c (run (.returned (some err)))
  /-- The call goes on with its loop. -/
  | loop {e : ResetEvent} {c c' : Call} (hc : c.holds false = true) (hc' : c'.holds false = true) :
    Goes i e c c'

def Call.over : Call → Bool
  | awaitCleanup _ => true
  | run (.returned _) => true
  | _ => false

theorem Call.not_holds_of_over {c : Call} {grants : Bool} (h : c.over = true) :
    c.holds grants = false := by
  cases c with
  | run r =>
    cases r with
    | returned err => rfl
    | waiting | reading | writing | final | ending => cases h
  | awaitCleanup err => rfl
  | acquire | awaitStart => cases h

namespace Protocol

variable {cfg : Config} {faults : CommitFaults} {p p' : Protocol} {e : ResetEvent}

variable {i : Nat} {c : Call}

variable (hstep : step cfg faults e p = some p')
include hstep

/-- A call that was not there before is a new one. -/
theorem new_of_step (hnone : p.calls[i]? = none) (hi : p'.calls[i]? = some c) :
    ∃ keysChan, c = .new keysChan := by
  have hset {j : Nat} {d : Call} (hcalls : p'.calls = p.calls.set j d) :
      ∃ keysChan, c = .new keysChan := by
    rw [hcalls, getElem?_eq_none_iff.mpr] at hi
    · cases hi
    · rw [length_set]
      exact getElem?_eq_none_iff.mp hnone
  cases move_of_step hstep with
  | @resetCids keysChan =>
    rcases getElem?_append_cases hi with hi | ⟨-, hnew⟩
    · cases hnone.symm.trans hi
    · exact ⟨keysChan, hnew⟩
  | load | get | serve | close | closeAgain | exit | take | persist => cases hnone.symm.trans hi
  | start | cleanup | granted | refused | cleaned | cancel | abandon | closedStart | closedLoop
  | call | acquire | acquireFails | skip => exact hset rfl

theorem goes_of_step (hi : p.calls[i]? = some c) :
    ∃ c', p'.calls[i]? = some c' ∧ (c' = c ∨ Call.Goes i e c c') := by
  have hset {j : Nat} {d d' : Call} (hj : p.calls[j]? = some d)
      (hcalls : p'.calls = p.calls.set j d') (hgoes : Call.Goes j e d d') :
      ∃ c', p'.calls[i]? = some c' ∧ (c' = c ∨ Call.Goes i e c c') := by
    rw [hcalls]
    by_cases hji : j = i
    · subst hji
      cases hi.symm.trans hj
      exact ⟨d', getElem?_set_at hi, .inr hgoes⟩
    · exact ⟨c, (List.getElem?_set_ne hji).trans hi, .inl rfl⟩
  cases move_of_step hstep with
  | resetCids =>
    have hlt := (List.getElem?_eq_some_iff.mp hi).1
    exact ⟨c, (List.getElem?_append_left hlt).trans hi, .inl rfl⟩
  | load | get | serve | close | closeAgain | exit | take | persist => exact ⟨c, hi, .inl rfl⟩
  | start _ hj => exact hset hj rfl .start
  | cleanup _ hj => exact hset hj rfl .cleanup
  | granted _ hj => exact hset hj rfl .granted
  | cleaned _ hj => exact hset hj rfl .cleaned
  | skip _ hj => exact hset hj rfl .skip
  | refused _ hj | closedStart _ hj => exact hset hj rfl .fails
  | cancel hj | abandon hj => exact hset hj rfl .fails
  | closedLoop _ hj | acquireFails hj => exact hset hj rfl (.loop rfl rfl)
  | call hj hl hw =>
    have hactive := (World.resets_of_isResets hl hw).active
    exact hset hj rfl (.loop hactive.1 (Call.holds_next _ hactive.2 _))
  | @acquire _ r hr hj => exact hset hj rfl (.loop rfl (ResetCids.active_of_writes hr))

theorem returns_cases (hi : p.calls[i]? = some c) (hc : c ≠ .run (.returned none))
    (hreturned : p'.calls[i]? = some (.run (.returned none))) :
    e = .respond ∧ c = .awaitCleanup none ∨ e = .skip i ∧ c = .run (.ending none) := by
  obtain ⟨c', hc', hsame | hgoes⟩ := goes_of_step hstep hi
  · cases hreturned.symm.trans hc'
    exact (hc hsame.symm).elim
  · cases hreturned.symm.trans hc'
    cases hgoes with
    | cleaned => exact .inl ⟨rfl, rfl⟩
    | skip => exact .inr ⟨rfl, rfl⟩
    | loop _ hc' => cases hc'

theorem awaitCleanup_cases {err : Option String} (hi : p'.calls[i]? = some (.awaitCleanup err)) :
    p.calls[i]? = some (.awaitCleanup err) ∨
      e = .cleanup i ∧ p.calls[i]? = some (.run (.ending err)) := by
  cases hcall : p.calls[i]? with
  | none =>
    obtain ⟨keysChan, hnew⟩ := new_of_step hstep hcall hi
    cases keysChan with
    | none => cases hnew
    | some stream => cases hnew
  | some c =>
    obtain ⟨c', hc', hsame | hgoes⟩ := goes_of_step hstep hcall
    · cases hi.symm.trans hc'
      exact .inl (hsame ▸ rfl)
    · cases hi.symm.trans hc'
      cases hgoes with
      | cleanup => exact .inr ⟨rfl, rfl⟩
      | loop _ hc' => cases hc'

/-- A call that the worker cleans up for, or that has returned, does not get back to its loop. -/
theorem over_step (hi : p.calls[i]? = some c) (hc : c.over = true) :
    ∃ c', p'.calls[i]? = some c' ∧ c'.over = true := by
  obtain ⟨c', hc', hsame | hgoes⟩ := goes_of_step hstep hi
  · exact ⟨c', hc', hsame ▸ hc⟩
  · refine ⟨c', hc', ?_⟩
    cases hgoes with
    | cleanup | cleaned | skip | fails => rfl
    | start | granted => cases hc
    | loop hholds => cases (Call.not_holds_of_over hc).symm.trans hholds

end Protocol

/-! ## The keys that a call has read -/

def ResetEvent.reads (i : Nat) : ResetEvent → List Multihash
  | call j l => if j = i then l.reads else []
  | _ => []

section Keeps

variable {cfg : Config} {faults : CommitFaults} {keys : List Multihash} {d d' : Datastore}
  {s s' : Session Resettable} {r r' : ResetCids} {c : Call} {keys' : List Multihash}

/-- The keys are in the alternate datastore, or the reset is going to write them. -/
def ResetCids.Keeps (cfg : Config) (keys : List Multihash) (d : Datastore) (r : ResetCids) : Prop :=
  r.Sound cfg (fun _ => True) d ∧ ∀ h ∈ keys, keyOf cfg h ∈ d.keys ∨ r.Due cfg (keyOf cfg h)

/-- The keys are in the alternate datastore, or on the way there; after the swap they are in the
active one. -/
def Call.Keeps (cfg : Config) (keys : List Multihash) (s : Session Resettable) : Call → Prop
  | run (.waiting _) => keys = []
  | run (.returned _) => True
  | run r => r.Keeps cfg keys s.caller.altDs
  | acquire r _ => r.Keeps cfg keys s.caller.altDs
  | awaitStart _ => keys = []
  | awaitCleanup none => ∀ h ∈ keys, keyOf cfg h ∈ s.store.keys
  | awaitCleanup (some _) => True

theorem ResetCids.Keeps.mono (h : r.Keeps cfg keys d) (hgrows : ∀ κ ∈ d.keys, κ ∈ d'.keys) :
    r.Keeps cfg keys d' :=
  ⟨h.1.mono hgrows, fun m hm => (h.2 m hm).imp_left (hgrows _)⟩

theorem Call.keeps_run (hr : r.active = true) :
    (run r).Keeps cfg keys s ↔ r.Keeps cfg keys s.caller.altDs := by
  cases r with
  | reading | writing | final | ending => exact Iff.rfl
  | waiting | returned => cases hr

theorem Call.keeps_next (hr' : r'.active = true) :
    (next r r').Keeps cfg keys s ↔ r'.Keeps cfg keys s.caller.altDs := by
  unfold next
  split
  · exact Iff.rfl
  · exact keeps_run hr'

/-- The session goes on: the alternate datastore does not lose keys while the call has the reset,
and the active one stays while it waits. -/
theorem Call.Keeps.frame (h : c.Keeps cfg keys s)
    (hgrows : c.holds false = true → ∀ κ ∈ s.caller.altDs.keys, κ ∈ s'.caller.altDs.keys)
    (hstore : c.awaits = true → s'.store = s.store) : c.Keeps cfg keys s' := by
  cases c with
  | run r =>
    by_cases hr : r.active = true
    · exact (keeps_run hr).mpr (((keeps_run hr).mp h).mono (hgrows hr))
    · cases r with
      | waiting | returned => exact h
      | reading | writing | final | ending => exact (hr rfl).elim
  | acquire r hr => exact ResetCids.Keeps.mono h (hgrows rfl)
  | awaitStart stream => exact h
  | awaitCleanup err =>
    cases err with
    | some err => trivial
    | none =>
      intro m hm
      rw [hstore rfl]
      exact h m hm

theorem Call.Keeps.subset (h : c.Keeps cfg keys s)
    (hsub : ∀ m ∈ keys', m ∈ keys) : c.Keeps cfg keys' s := by
  have hnil (hkeys : keys = []) : keys' = [] := subset_nil.mp fun m hm => hkeys ▸ hsub m hm
  have hreset {r : ResetCids} (h : r.Keeps cfg keys s.caller.altDs) :
      r.Keeps cfg keys' s.caller.altDs := ⟨h.1, fun m hm => h.2 m (hsub m hm)⟩
  cases c with
  | run r =>
    by_cases hr : r.active = true
    · exact (keeps_run hr).mpr (hreset ((keeps_run hr).mp h))
    · cases r with
      | waiting => exact hnil h
      | returned => trivial
      | reading | writing | final | ending => exact (hr rfl).elim
  | acquire r hr => exact hreset h
  | awaitStart stream => exact hnil h
  | awaitCleanup err =>
    cases err with
    | some err => trivial
    | none => exact fun m hm => h m (hsub m hm)

theorem World.due_of_reads {l : Label} {w w' : World} {m : Multihash}
    (h : step cfg faults l w = some w') (hm : m ∈ l.reads) : w.reset.Due cfg (keyOf cfg m) := by
  cases l with
  | read m' =>
    obtain rfl := mem_singleton.mp hm
    cases move_of_step h with
    | read _ stream keys hr =>
      rw [hr]
      exact mem_map_of_mem (mem_append_right keys mem_cons_self)
  | _ => cases hm

theorem ResetCids.Keeps.step {l : Label} {w : World} (h : r.Keeps cfg keys s.caller.altDs)
    (hflag : s.caller.resetInProgress = true) (hl : l.isResets = true)
    (hstep : World.step cfg faults l ⟨s, .idle, r⟩ = some w) :
    w.reset.Keeps cfg (l.reads ++ keys) w.session.caller.altDs := by
  have hlive : World.Live cfg (fun _ => True) ⟨s, .idle, r⟩ :=
    ⟨hflag, fun _ _ => trivial, trivial, h.1⟩
  have hwithin : l.Within cfg fun _ => True := by
    cases l with
    | put => cases hl
    | _ => trivial
  have hresets := World.resets_of_isResets hl hstep
  rcases hlive.step hwithin hstep with ⟨err, hreturned⟩ | hadvances
  · have hactive := hresets.active.2
    rw [hreturned] at hactive
    cases hactive
  · refine ⟨hadvances.live.reset, fun m hm => ?_⟩
    have hbound : World.Bound cfg ⟨s, .idle, r⟩ (keyOf cfg m) := by
      rcases mem_append.mp hm with hm | hm
      · exact .inr (.inr (World.due_of_reads hstep hm))
      · exact (h.2 m hm).imp_right .inr
    rcases hadvances.bound _ hbound with hin | hworker | hreset
    · exact .inl hin
    · rw [hresets.worker] at hworker
      exact hworker.elim
    · exact .inr hreset

end Keeps

namespace Protocol

variable {cfg : Config} {faults : CommitFaults} {p p' : Protocol} {e : ResetEvent}

/-- The keys that a call has read are kept; a call that was not made has read none. -/
structure Kept (cfg : Config) (i : Nat) (keys : List Multihash) (p : Protocol) : Prop where
  none : p.calls[i]? = none → keys = []
  call : ∀ c, p.calls[i]? = some c → c.Keeps cfg keys p.session

namespace Kept

variable {i : Nat} {keys : List Multihash}

theorem subset (h : Kept cfg i keys p) (hsub : ∀ m ∈ keys', m ∈ keys) :
    Kept cfg i keys' p where
  none := fun hnone => subset_nil.mp fun m hm => h.none hnone ▸ hsub m hm
  call := fun c hc => (h.call c hc).subset hsub

/-- The calls are the same. -/
theorem frame (h : Kept cfg i keys p) (hcalls : p'.calls = p.calls)
    (hgrows : ∀ κ ∈ p.session.caller.altDs.keys, κ ∈ p'.session.caller.altDs.keys)
    (hstore : ∀ c, p.calls[i]? = some c → c.awaits = true →
      p'.session.store = p.session.store) : Kept cfg i keys p' := by
  constructor
  · rw [hcalls]
    exact h.none
  · rw [hcalls]
    exact fun c hc => (h.call c hc).frame (fun _ => hgrows) (hstore c hc)

/-- A call takes a step. -/
theorem set {j : Nat} {d d' : Call} (h : Kept cfg i keys p)
    (hj : p.calls[j]? = some d) (hcalls : p'.calls = p.calls.set j d')
    (hself : j = i → d.Keeps cfg keys p.session → d'.Keeps cfg keys' p'.session)
    (hkeys : j ≠ i → keys' = keys)
    (hother : ∀ c, j ≠ i → p.calls[i]? = some c → c.Keeps cfg keys p.session →
      c.Keeps cfg keys p'.session) : Kept cfg i keys' p' := by
  constructor
  · intro hnone
    rw [hcalls, getElem?_eq_none_iff, length_set] at hnone
    have hji : j ≠ i := by
      rintro rfl
      cases (getElem?_eq_none_iff.mpr hnone).symm.trans hj
    rw [hkeys hji]
    exact h.none (getElem?_eq_none_iff.mpr hnone)
  · intro c hc
    rw [hcalls] at hc
    rcases getElem?_set_cases hc with ⟨rfl, rfl⟩ | ⟨hne, hc⟩
    · exact hself rfl (h.call d hj)
    · rw [hkeys hne.symm]
      exact hother c hne.symm hc (h.call c hc)

/-- A call takes a step that leaves the datastores alone. -/
theorem setCall {j : Nat} {d d' : Call} (h : Kept cfg i keys p) (hj : p.calls[j]? = some d)
    (hcalls : p'.calls = p.calls.set j d') (hsession : p'.session = p.session)
    (hself : d.Keeps cfg keys p.session → d'.Keeps cfg keys p.session) : Kept cfg i keys p' := by
  refine h.set hj hcalls (fun _ => ?_) (fun _ => rfl) fun c _ _ hc => ?_
  · rw [hsession]
    exact hself
  · rw [hsession]
    exact hc

end Kept

def Exits (p : Protocol) : Prop := p.closer = .persists → p.server = .exited

theorem exits_step (h : Exits p) (hstep : step cfg faults e p = some p') : Exits p' := by
  have hbusy {server : Server} (hserver : p.server = server) (hne : server ≠ .exited)
      (hcloser : p'.closer = p.closer) : Exits p' := by
    intro hp
    exact (hne (hserver.symm.trans (h (hcloser.symm.trans hp)))).elim
  cases move_of_step hstep with
  | load hserver | get hserver | serve hserver | start hserver | cleanup hserver | granted hserver
  | refused hserver | cleaned hserver => exact hbusy hserver nofun rfl
  | exit => exact fun _ => rfl
  | take hserver => exact fun _ => hserver
  | close | persist => exact nofun
  | resetCids | cancel | abandon | closedStart | closedLoop | call | acquire | acquireFails | skip
  | closeAgain => exact h

theorem cleanup_session (cfg : Config) (faults : CommitFaults) (s : Session Resettable) :
    (handleResetOp cfg faults (.cleanup true) s).1.store = s.caller.altDs ∧
      (handleResetOp cfg faults (.cleanup true) s).1.caller.activeNamespace =
        1 - s.caller.activeNamespace := by
  have htrue (c : State) : EndsIn (fun _ => True) (empty cfg faults) c s.store fun _ _ _ => True :=
    empty_settles.mono fun _ _ _ _ => trivial
  obtain ⟨-, hstore, -, -, hactive, -⟩ := cleanup_ends htrue s trivial rfl rfl
  exact ⟨hstore, hactive⟩

variable {i : Nat} {session : Session Resettable} {es : List ResetEvent}

/-- **Every step** keeps the keys that a call has read. -/
theorem kept_step {keys : List Multihash} (hsound : Sound p) (hexits : Exits p)
    (h : Kept cfg i keys p) (hstep : step cfg faults e p = some p') :
    Kept cfg i (e.reads i ++ keys) p' := by
  -- nobody waits for the worker
  have hidle (hresponse : p.server.response = none) (c : Call) (hc : p.calls[i]? = some c)
      (hawaits : c.awaits = true) : p'.session.store = p.session.store := by
    cases (hsound.not_awaits hresponse hc).symm.trans hawaits
  cases move_of_step hstep with
  | @resetCids keysChan =>
    show Kept cfg i keys { p with calls := p.calls ++ [.new keysChan] }
    constructor
    · intro hnone
      refine h.none (getElem?_eq_none_iff.mpr ?_)
      have hle := getElem?_eq_none_iff.mp hnone
      rw [length_append] at hle
      exact Nat.le_of_add_right_le hle
    · intro c hc
      rcases getElem?_append_cases hc with hc | ⟨hnone, rfl⟩
      · exact h.call c hc
      · cases keysChan with
        | none => trivial
        | some stream => exact h.none hnone
  | load hserver => exact h.frame rfl (fun _ hκ => hκ) (hidle (by rw [hserver]; rfl))
  | get => exact h.frame rfl (fun _ hκ => hκ) fun _ _ _ => rfl
  | serve hserver hl hw =>
    exact h.frame rfl (World.grows_of_isWorkers hl hw).keys (hidle (by rw [hserver]; rfl))
  | @start j stream err hserver hj herr =>
    refine h.set hj rfl (fun _ hd => hd) (fun _ => rfl) fun c hne hc hkeeps => ?_
    refine hkeeps.frame (fun hholds => ?_) (hidle (by rw [hserver]; rfl) c hc)
    -- the reset of the other call is in progress, so nothing is started
    have hflag := hsound.reset.taken i c hc (Call.holds_mono hholds _)
    obtain ⟨hcaller, -⟩ := (start_session cfg faults p.session).2.2 hflag
    rw [hcaller]
    exact fun _ hκ => hκ
  | @cleanup j err res hserver hj =>
    refine h.set hj rfl (fun _ hd => ?_) (fun _ => rfl) fun c hne hc hkeeps => ?_
    · cases err with
      | some err => trivial
      | none =>
        intro m hm
        have hstore := (cleanup_session cfg faults p.session).1
        show keyOf cfg m ∈ (handleResetOp cfg faults (.cleanup true) p.session).1.store.keys
        rw [hstore]
        exact (hd.2 m hm).resolve_right fun hne => hne rfl
    · refine hkeeps.frame (fun hholds => ?_) (hidle (by rw [hserver]; rfl) c hc)
      exact (hsound.reset.alone hj rfl hne.symm hc (Call.holds_mono hholds _)).elim
  | granted _ hj =>
    refine h.setCall hj rfl rfl fun hkeys => ⟨fun _ _ => trivial, fun m hm => ?_⟩
    rw [hkeys] at hm
    cases hm
  | refused _ hj | cleaned _ hj | closedStart _ hj | skip _ hj =>
    exact h.setCall hj rfl rfl fun _ => trivial
  | cancel hj | abandon hj => exact h.setCall hj rfl rfl fun _ => trivial
  | closedLoop _ hj | acquireFails hj =>
    exact h.setCall hj rfl rfl fun _ => ⟨trivial, fun _ _ => .inr nofun⟩
  | @acquire j r hr hj =>
    exact h.setCall hj rfl rfl (Call.keeps_run (ResetCids.active_of_writes hr)).mpr
  | @call j l r w hj hl hw =>
    have hresets := World.resets_of_isResets hl hw
    refine h.set hj rfl (fun hji hd => ?_) (fun hne => ?_) fun c _ _ hkeeps => ?_
    · show Call.Keeps cfg ((if j = i then l.reads else []) ++ keys) w.session (.next r w.reset)
      rw [if_pos hji]
      refine (Call.keeps_next hresets.active.2).mpr ?_
      have hkeeps := (Call.keeps_run hresets.active.1).mp hd
      exact hkeeps.step (hsound.reset.taken j _ hj hresets.active.1) hl hw
    · show (if j = i then l.reads else []) ++ keys = keys
      rw [if_neg hne]
      rfl
    · exact hkeeps.frame (fun _ => hresets.grows.keys) fun _ => hresets.store
  | close | closeAgain | exit | take => exact h.frame rfl (fun _ hκ => hκ) fun _ _ _ => rfl
  | persist hcloser =>
    refine h.frame rfl (fun _ hκ => hκ) (hidle ?_)
    rw [hexits hcloser]
    rfl

/-- **Run.** What a call has read in a run is kept. -/
theorem kept_run (i : Nat) (hrun : Trace.run (step cfg faults) es (new session) = some p) :
    Exits p ∧ Kept cfg i (es.flatMap (ResetEvent.reads i)) p := by
  induction es using reverseRecOn generalizing p with
  | nil =>
    cases hrun
    exact ⟨nofun, fun _ => rfl, nofun⟩
  | append_singleton es e ih =>
    obtain ⟨q, hq, hstep⟩ := run_append.mp hrun
    rw [run_singleton] at hstep
    obtain ⟨hexits, hkept⟩ := ih hq
    refine ⟨exits_step hexits hstep,
      (kept_step (sound_run hq) hexits hkept hstep).subset fun m hm => ?_⟩
    rw [flatMap_append, flatMap_singleton] at hm
    exact mem_append.mpr (mem_append.mp hm).symm

/-! ## The swap -/

def Swaps (cfg : Config) (faults : CommitFaults) (es : List ResetEvent) (p : Protocol) (i : Nat) :
    Prop :=
  ∃ q q', Trace.Takes (step cfg faults) es p (.cleanup i) q ∧
    step cfg faults (.cleanup i) q = some q' ∧ q'.session.store = q.session.caller.altDs ∧
    q'.session.caller.activeNamespace = 1 - q.session.caller.activeNamespace

theorem swaps_of_awaitCleanup (hrun : Trace.run (step cfg faults) es (new session) = some p)
    (hi : p.calls[i]? = some (.awaitCleanup none)) : Swaps cfg faults es (new session) i := by
  induction es using reverseRecOn generalizing p with
  | nil =>
    cases hrun
    cases hi
  | append_singleton es e ih =>
    obtain ⟨q, hq, hstep⟩ := run_append.mp hrun
    rw [run_singleton] at hstep
    rcases awaitCleanup_cases hstep hi with hbefore | ⟨rfl, hending⟩
    · obtain ⟨q1, q2, ⟨before, after, rfl, hq1⟩, hswap⟩ := ih hq hbefore
      exact ⟨q1, q2, ⟨before, after ++ [e], by simp, hq1⟩, hswap⟩
    · refine ⟨q, p, ⟨es, [], rfl, hq⟩, hstep, ?_⟩
      cases move_of_step hstep with
      | cleanup _ hj =>
        obtain ⟨⟨⟩⟩ := Option.some.inj (hending.symm.trans hj)
        exact cleanup_session cfg faults q.session

theorem not_swaps_of_ending {err : Option String}
    (hrun : Trace.run (step cfg faults) es (new session) = some p)
    (hi : p.calls[i]? = some (.run (.ending err))) : ¬ Swaps cfg faults es (new session) i := by
  rintro ⟨q, q', ⟨before, after, rfl, hq⟩, hstep, -⟩
  obtain ⟨q1, hq1, hrest⟩ := run_append.mp hrun
  cases hq.symm.trans hq1
  obtain ⟨q2, hq2, hafter⟩ := run_cons.mp hrest
  cases hstep.symm.trans hq2
  have hover : ∃ c, q'.calls[i]? = some c ∧ c.over = true := by
    cases move_of_step hstep with
    | cleanup _ hj =>
      exact ⟨_, getElem?_set_at hj, rfl⟩
  obtain ⟨c, hc, hc'⟩ : ∃ c, p.calls[i]? = some c ∧ c.over = true :=
    invariant (P := fun p => ∃ c, p.calls[i]? = some c ∧ c.over = true)
      (fun _ _ _ _ ⟨_, hc, hover⟩ hstep => over_step hstep hc hover) hover hafter
  cases hi.symm.trans hc
  cases hc'

/-- **A call that returns no error** has got its swap, with all keys that it has read, if and only
if the worker has not returned before. -/
theorem swaps_iff {session : Session Resettable} {es : List ResetEvent} {i : Nat} {c : Call}
    (hrun : Trace.run (step cfg faults) es (new session) = some p) (hi : p.calls[i]? = some c)
    (hc : c ≠ .run (.returned none)) (hstep : step cfg faults e p = some p')
    (hreturned : p'.calls[i]? = some (.run (.returned none))) :
    (Swaps cfg faults es (new session) i ∧
      ∀ h ∈ es.flatMap (ResetEvent.reads i), keyOf cfg h ∈ p'.session.store.keys) ↔
    p.server ≠ .exited := by
  rcases returns_cases hstep hi hc hreturned with ⟨rfl, rfl⟩ | ⟨rfl, rfl⟩
  · -- the response to the cleanup is read
    obtain ⟨err, hresponse⟩ := (sound_run hrun).waits i _ hi rfl
    refine iff_of_true ⟨swaps_of_awaitCleanup hrun hi, ?_⟩ fun hexited => ?_
    · have hkept := (kept_run i hrun).2.call _ hi
      cases move_of_step hstep with
      | granted | refused | cleaned => exact hkept
    · rw [hexited] at hresponse
      cases hresponse
  · -- the cleanup is skipped
    refine iff_of_false (fun h => not_swaps_of_ending hrun hi h.1) ?_
    cases move_of_step hstep with
    | skip hserver => exact fun hne => hne hserver

/-- A reset with one key. -/
theorem swaps_iff_oneKey : ∃ p p',
    Trace.run (step defaultConfig .none)
        [.load, .resetCids (some [[1]]), .start 0, .respond, .call 0 (.read [1]), .call 0 .closed,
          .acquire 0, .call 0 .write, .call 0 .write, .call 0 .write, .cleanup 0]
        (new (World.new []).session) = some p ∧
      step defaultConfig .none .respond p = some p' ∧
      p'.calls = [.run (.returned none)] ∧ keyOf defaultConfig [1] ∈ p'.session.store.keys := by
  simp only [exists_and_left]
  refine exists_observed (fun p => (p.calls, p.server.response,
    (step defaultConfig .none .respond p).map calls))
    ([.awaitCleanup none], some (0, none), some [.run (.returned none)]) (by decide +kernel)
    fun p hrun hp => ?_
  simp only [Prod.mk.injEq] at hp
  obtain ⟨hcalls, hresponse, hrespond⟩ := hp
  obtain ⟨p', hstep, hcalls'⟩ := Option.map_eq_some_iff.mp hrespond
  have hi : p.calls[0]? = some (.awaitCleanup none) := by rw [hcalls]; rfl
  have hreturned : p'.calls[0]? = some (.run (.returned none)) := by rw [hcalls']; rfl
  have hserver : p.server ≠ .exited := by
    intro hexited
    rw [hexited] at hresponse
    cases hresponse
  obtain ⟨-, hkeys⟩ := (swaps_iff hrun hi nofun hstep hreturned).mpr hserver
  exact ⟨p', hstep, hcalls', hkeys [1] (by decide)⟩

/-- `Close` is called when the last key was written: the call returns no error, and the key is not
there. -/
theorem not_swaps_closed : ∃ p,
    Trace.run (step defaultConfig .none)
        [.load, .resetCids (some [[1]]), .start 0, .respond, .call 0 (.read [1]), .call 0 .closed,
          .acquire 0, .call 0 .write, .call 0 .write, .call 0 .write, .close, .exit, .skip 0]
        (new (World.new []).session) = some p ∧
      p.calls = [.run (.returned none)] ∧ p.session.caller.activeNamespace = 0 ∧
      keyOf defaultConfig [1] ∉ p.session.store.keys := by
  refine exists_observed
    (fun p => (p.calls, p.session.caller.activeNamespace, p.session.store.keys))
    ([.run (.returned none)], 0, []) (by decide +kernel) fun p _ hp => ?_
  simp only [Prod.mk.injEq] at hp
  obtain ⟨hcalls, hactive, hstore⟩ := hp
  refine ⟨hcalls, hactive, ?_⟩
  rw [hstore]
  exact not_mem_nil

end Protocol

end KadDht.Keystore
