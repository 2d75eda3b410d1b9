import KadDht.Keystore.ResetProtocol

/-!
# Keystore — the worker and the calls that give up

A call that gives up while the worker starts its reset leaves a worker that waits for ever: nobody
reads the response. Nobody cleans up either. Other cancellations do no harm.

* **`neverBlocks_iff`** — without `Close`, this is the only thing that can go wrong.
-/

namespace KadDht.Keystore

open DsM Trace

namespace Protocol

variable {cfg : Config} {faults : CommitFaults} {p p' : Protocol} {e : ResetEvent}

/-! ## A worker that waits for ever -/

/-- The worker sends a response that the call does not read. -/
def blocked (p : Protocol) : Bool :=
  match p.server.response with
  | some (i, _) => !(p.calls[i]?.any Call.awaits)
  | none => false

theorem blocked_iff : p.blocked = true ↔
    ∃ i err, p.server.response = some (i, err) ∧
      ∀ c, p.calls[i]? = some c → c.awaits = false := by
  unfold blocked
  cases p.server.response with
  | none => exact iff_of_false nofun fun ⟨_, _, h, _⟩ => nomatch h
  | some response =>
    obtain ⟨i, err⟩ := response
    show (!(p.calls[i]?.any Call.awaits)) = true ↔ _
    rw [Bool.not_eq_true', Option.any_eq_false]
    constructor
    · intro h
      exact ⟨i, err, rfl, h⟩
    · rintro ⟨j, err', heq, h⟩ c hc
      cases heq
      exact h c hc

/-- **A worker that is blocked stays so**, whatever happens. -/
theorem blocked_step (h : p.blocked = true) (hstep : step cfg faults e p = some p') :
    p'.blocked = true := by
  obtain ⟨i, err, hresponse, hcall⟩ := blocked_iff.mp h
  have hbusy {server : Server} (hserver : p.server = server) (hnone : server.response = none) :
      p'.blocked = true := by
    rw [hserver, hnone] at hresponse
    cases hresponse
  have hread {j : Nat} {c : Call} {err' : Option String} (hserver : p.server = .responds j err')
      (hj : p.calls[j]? = some c) (hc : c.awaits = true) : p'.blocked = true := by
    rw [hserver] at hresponse
    cases hresponse
    cases (hcall c hj).symm.trans hc
  have hset {j : Nat} {c : Call} (hc : c.awaits = false) (hserver : p'.server = p.server)
      (hcalls : p'.calls = p.calls.set j c) : p'.blocked = true := by
    refine blocked_iff.mpr ⟨i, err, by rw [hserver]; exact hresponse, fun d hd => ?_⟩
    rw [hcalls] at hd
    rcases getElem?_set_cases hd with ⟨-, rfl⟩ | ⟨-, hd⟩
    · exact hc
    · exact hcall d hd
  cases move_of_step hstep with
  | @resetCids keysChan =>
    refine blocked_iff.mpr ⟨i, err, hresponse, fun c hc => ?_⟩
    rcases getElem?_append_cases hc with hc | ⟨-, rfl⟩
    · exact hcall c hc
    · exact Call.not_awaits_new keysChan
  | load hserver | get hserver | serve hserver | start hserver | cleanup hserver | exit hserver =>
    exact hbusy hserver rfl
  | granted hserver hi | refused hserver hi | cleaned hserver hi => exact hread hserver hi rfl
  | cancel | abandon | closedStart | closedLoop | acquire | acquireFails | skip =>
    exact hset rfl rfl rfl
  | call => exact hset (Call.not_awaits_next _ _) rfl rfl
  | close | closeAgain | take | persist => exact h

/-! ## A worker that is not left alone -/

/-- The worker answers a call that waits, and the flag is set only while a call has the reset. -/
structure Tidy (p : Protocol) : Prop where
  answered : ∀ i err, p.server.response = some (i, err) →
    ∃ c, p.calls[i]? = some c ∧ c.awaits = true
  flagged : p.session.caller.resetInProgress = true →
    ∃ (i : Nat) (c : Call), p.calls[i]? = some c ∧ c.holds p.server.grants = true
  isOpen : p.closer = .idle
  works : p.server ≠ .exited

namespace Tidy

theorem frame (h : Tidy p) (hcalls : p'.calls = p.calls)
    (hresponse : p'.server.response = p.server.response)
    (hflag : p'.session.caller.resetInProgress = p.session.caller.resetInProgress)
    (hcloser : p'.closer = p.closer) (hworks : p'.server ≠ .exited) : Tidy p' := by
  refine ⟨?_, ?_, hcloser.trans h.isOpen, hworks⟩
  · rw [hcalls, hresponse]
    exact h.answered
  · unfold Server.grants
    rw [hcalls, hresponse, hflag]
    exact h.flagged

variable {i : Nat} {c c' : Call}

/-- A call gets on without the worker. -/
theorem set (h : Tidy p) (hi : p.calls[i]? = some c) (hawaits : c.awaits = false)
    (hholds : c.holds p.server.grants = true → c'.holds p.server.grants = true) :
    Tidy (p.setCall i c') where
  __ := h
  answered := by
    intro j err hj
    obtain ⟨d, hd, hwaits⟩ := h.answered j err hj
    refine ⟨d, ?_, hwaits⟩
    have hne : i ≠ j := by
      rintro rfl
      cases hi.symm.trans hd
      cases hawaits.symm.trans hwaits
    exact (List.getElem?_set_ne hne).trans hd
  flagged := fun hflag => exists_set hi hholds (fun _ _ _ _ hd => hd) (h.flagged hflag)

/-- The worker receives an operation. -/
theorem handle (h : Tidy p) {i : Nat} {c c' : Call} {session : Session Resettable}
    {err : Option String} (hi : p.calls[i]? = some c) (hawaits : c'.awaits = true)
    (hflagged : session.caller.resetInProgress = true →
      ∃ (j : Nat) (d : Call), (p.calls.set i c')[j]? = some d ∧
        d.holds (Server.responds i err).grants = true) :
    Tidy { p.setCall i c' with session := session, server := .responds i err } where
  answered := by
    intro j err' hj
    cases hj
    exact ⟨c', getElem?_set_at hi, hawaits⟩
  flagged := hflagged
  isOpen := h.isOpen
  works := nofun

/-- The response is read. -/
theorem respond (h : Tidy p) (hsound : Sound p) {err : Option String}
    (hserver : p.server.response = some (i, err)) (hi : p.calls[i]? = some c)
    (hholds : c.holds p.server.grants = true → c'.holds false = true) :
    Tidy { p.setCall i c' with server := .serves .idle } where
  answered := nofun
  flagged := fun hflag => exists_set hi hholds
    (fun _ _ hne hd => Call.holds_of_not_awaits (hsound.not_awaits_ne hserver hne hd))
    (h.flagged hflag)
  isOpen := h.isOpen
  works := nofun

end Tidy

theorem tidy_new (session : Session Resettable) : Tidy (new session) := ⟨nofun, nofun, rfl, nofun⟩

/-- **Every step** keeps this, unless it is a call that gives up, or `Close`. -/
theorem tidy_step (hsound : Sound p) (h : Tidy p) (hclose : e ≠ .close)
    (habandon : ∀ i, e ≠ .abandon i) (hstep : step cfg faults e p = some p') : Tidy p' := by
  cases move_of_step hstep with
  | @resetCids keysChan =>
    have hold {j : Nat} {d : Call} (hj : p.calls[j]? = some d) :
        (p.calls ++ [Call.new keysChan])[j]? = some d := by
      rw [List.getElem?_append_left (List.getElem?_eq_some_iff.mp hj).1, hj]
    refine ⟨fun i err hi => ?_, fun hflag => ?_, h.isOpen, h.works⟩
    · obtain ⟨c, hc, hawaits⟩ := h.answered i err hi
      exact ⟨c, hold hc, hawaits⟩
    · obtain ⟨i, c, hc, hholds⟩ := h.flagged hflag
      exact ⟨i, c, hold hc, hholds⟩
  | load hserver => exact h.frame rfl (by rw [hserver]; rfl) rfl rfl nofun
  | get hserver => exact h.frame rfl rfl rfl rfl h.works
  | serve hserver hl hw =>
    exact h.frame rfl (by rw [hserver]; rfl) (World.grows_of_isWorkers hl hw).flag rfl nofun
  | @start i stream err hserver hi herr =>
    have hresponse : p.server.response = none := by rw [hserver]; rfl
    obtain ⟨-, hfails, -⟩ := start_session cfg faults p.session
    refine h.handle hi rfl fun hflag => ?_
    cases err with
    | none => exact ⟨i, _, getElem?_set_at hi, rfl⟩
    | some err =>
      rw [hfails fun hres => nomatch herr.mpr hres] at hflag
      exact exists_set hi nofun
        (fun _ _ _ hd => Call.holds_of_not_awaits (hsound.not_awaits hresponse hd))
        (h.flagged hflag)
  | @cleanup i err res hserver hi =>
    have hflag : (handleResetOp cfg faults (.cleanup err.isNone) p.session).1.caller.resetInProgress
        = false := (cleanup_flag (H := fun _ => True) err.isNone p.session trivial rfl rfl).2
    exact h.handle hi rfl fun hset => nomatch hflag.symm.trans hset
  | granted hserver hi => exact h.respond hsound (by rw [hserver]; rfl) hi fun _ => rfl
  | refused hserver hi =>
    refine h.respond hsound (by rw [hserver]; rfl) hi fun hholds => ?_
    rw [hserver] at hholds
    cases hholds
  | cleaned hserver hi =>
    exact h.respond hsound (by rw [hserver]; rfl) hi nofun
  | cancel hi => exact h.set hi rfl nofun
  | @abandon i => exact (habandon i rfl).elim
  | closedStart hserver | closedLoop hserver | skip hserver | take hserver =>
    exact (h.works hserver).elim
  | call hi hl hw =>
    have hresets := World.resets_of_isResets hl hw
    exact (h.set hi rfl fun _ => Call.holds_next _ hresets.active.2 _).frame rfl rfl
      hresets.grows.flag rfl h.works
  | @acquire i r hr hi =>
    have hholds (grants : Bool) : (Call.run r).holds grants = true := ResetCids.active_of_writes hr
    exact (h.set hi rfl fun _ => hholds _).frame rfl rfl rfl rfl h.works
  | acquireFails hi => exact h.set hi rfl fun _ => rfl
  | close => exact (hclose rfl).elim
  | closeAgain => exact h
  | exit hserver hcloser => exact (hcloser h.isOpen).elim
  | persist hcloser => cases h.isOpen.symm.trans hcloser

/-! ## When the keystore is never blocked -/

/-- No state of a run has a worker that is blocked, and when all calls have returned the flag is not
set. -/
def NeverBlocks (cfg : Config) (faults : CommitFaults) (es : List ResetEvent) (p : Protocol) :
    Prop :=
  ∀ q, Trace.Visits (step cfg faults) es p q → q.blocked = false ∧
    ((∀ c ∈ q.calls, c.isReturned = true) → q.session.caller.resetInProgress = false)

theorem Tidy.not_blocked (h : Tidy p) : p.blocked = false := by
  rw [← Bool.not_eq_true, blocked_iff]
  rintro ⟨i, err, hresponse, hnone⟩
  obtain ⟨c, hc, hawaits⟩ := h.answered i err hresponse
  cases (hnone c hc).symm.trans hawaits

theorem Tidy.flag_of_returned (h : Tidy p) (hreturned : ∀ c ∈ p.calls, c.isReturned = true) :
    p.session.caller.resetInProgress = false := by
  rw [← Bool.not_eq_true]
  intro hflag
  obtain ⟨i, c, hc, hholds⟩ := h.flagged hflag
  rw [Call.not_holds_of_isReturned (hreturned c (List.mem_of_getElem? hc))] at hholds
  cases hholds

theorem blocked_of_abandon {i : Nat} (h : Sound p)
    (hstep : step cfg faults (.abandon i) p = some p') : p'.blocked = true := by
  cases move_of_step hstep with
  | abandon hi =>
    obtain ⟨err, hresponse⟩ := h.waits i _ hi rfl
    refine blocked_iff.mpr ⟨i, err, hresponse, fun c hc => ?_⟩
    rcases getElem?_set_cases hc with ⟨-, rfl⟩ | ⟨hne, -⟩
    · rfl
    · exact (hne rfl).elim

/-- **A call that gives up while its reset starts blocks the worker for ever**: whatever happens
afterwards, the worker serves no request and does not exit. -/
theorem abandon_blocks_forever {session : Session Resettable} {before after : List ResetEvent}
    {i : Nat} (hrun : Trace.run (step cfg faults) (before ++ .abandon i :: after) (new session)
      = some p) : p.blocked = true := by
  obtain ⟨q, hbefore, hrest⟩ := run_append.mp hrun
  obtain ⟨q', hstep, hafter⟩ := run_cons.mp hrest
  have hblocked := blocked_of_abandon (sound_run hbefore) hstep
  exact invariant (P := fun q => q.blocked = true)
    (fun _ _ _ _ h hstep => blocked_step h hstep) hblocked hafter

/-- `Close` comes too late. -/
theorem abandon_blocks_close : ∃ p, Trace.run (step defaultConfig .none)
    ([.load, .resetCids (some []), .start 0] ++ .abandon 0 :: [.close])
      (new (World.new []).session) = some p ∧ p.blocked = true :=
  exists_observed (fun _ => ()) () (by decide +kernel) fun _ hrun _ =>
    abandon_blocks_forever hrun

/-- **Without `Close` the keystore is never blocked** if and only if no call gives up between the
hand-over of its `opStart` and the response. -/
theorem neverBlocks_iff {session : Session Resettable} {es : List ResetEvent}
    (hrun : Trace.run (step cfg faults) es (new session) = some p) (hclose : .close ∉ es) :
    NeverBlocks cfg faults es (new session) ↔ ∀ i, .abandon i ∉ es := by
  constructor
  · intro hnever i hi
    obtain ⟨before, after, rfl⟩ := List.append_of_mem hi
    obtain ⟨q, hbefore, hrest⟩ := run_append.mp hrun
    obtain ⟨q', hstep, -⟩ := run_cons.mp hrest
    have hvisit : Trace.Visits (step cfg faults) (before ++ .abandon i :: after) (new session) q' :=
      Trace.Takes.visits ⟨before, after, rfl, hbefore⟩ hstep
    cases (hnever q' hvisit).1.symm.trans (blocked_of_abandon (sound_run hbefore) hstep)
  · rintro habandon q ⟨before, after, rfl, hbefore⟩
    have hkeep (e : ResetEvent) (he : e ∈ before) (q q' : Protocol) (h : Sound q ∧ Tidy q)
        (hstep : step cfg faults e q = some q') : Sound q' ∧ Tidy q' := by
      have hmem : e ∈ before ++ after := List.mem_append_left after he
      exact ⟨sound_step h.1 hstep, tidy_step h.1 h.2 (fun heq => hclose (heq ▸ hmem))
        (fun i heq => habandon i (heq ▸ hmem)) hstep⟩
    obtain ⟨-, htidy⟩ := invariant hkeep ⟨sound_new session, tidy_new session⟩ hbefore
    exact ⟨htidy.not_blocked, htidy.flag_of_returned⟩

/-- Two calls: one is refused because of the other, which is cancelled while it reads its keys. -/
theorem neverBlocks_iff_twoCalls : NeverBlocks defaultConfig .none
    [.load, .resetCids (some [[1]]), .resetCids (some []), .start 0, .respond, .start 1, .respond,
      .call 0 (.read [1]), .call 0 .cancel, .cleanup 0, .respond]
    (new (World.new []).session) := by
  refine (neverBlocks_iff (Option.some_get ?_).symm ?_).mpr fun i => ?_
  · decide +kernel
  · simp
  · simp

/-- A call gives up when the worker has just started its reset. -/
theorem not_neverBlocks_oneCall : ∃ p,
    Trace.run (step defaultConfig .none) [.load, .resetCids (some []), .start 0, .abandon 0]
        (new (World.new []).session) = some p ∧
      p.calls = [.run (.returned (some "context canceled"))] ∧ p.blocked = true ∧
      p.session.caller.resetInProgress = true := by
  refine exists_observed (fun p => (p.calls, p.blocked, p.session.caller.resetInProgress))
    ([.run (.returned (some "context canceled"))], true, true) (by decide +kernel) fun p _ hp => ?_
  simpa only [Prod.mk.injEq] using hp

end Protocol

end KadDht.Keystore
