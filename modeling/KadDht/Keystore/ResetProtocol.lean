import KadDht.Keystore.ResetKeys
import KadDht.Lib.Exclusive

/-!
# Keystore — the handshakes of a reset (`provider/keystore/resettable_keystore.go`)

The worker performs the start and the cleanup of a reset on behalf of the calls of `ResetCids`. A
call hands its operation over on an unbuffered channel and reads the result from another one, on
which the worker waits until it is read. A call that waits for the start gives up when its context
is cancelled. The cleanup is deferred; it is skipped when the worker has returned.

* **`Protocol.step`** — the worker, any number of calls of `ResetCids`, and `Close`. The steps
  between the handshakes are those of `World.step`.
-/

namespace KadDht.Keystore

open DsM World

/-! ## Model -/

inductive Server where
  /-- `loadSize` -/
  | loads
  | serves (worker : Worker)
  /-- It sends the result of a reset operation to a call. -/
  | responds (i : Nat) (err : Option String)
  /-- It has returned, and `done` is closed. -/
  | exited

def Server.response : Server → Option (Nat × Option String)
  | responds i err => some (i, err)
  | _ => none

def Server.grants (server : Server) : Bool :=
  match server.response with
  | some (_, none) => true
  | _ => false

def ResetCids.writes : ResetCids → Bool
  | writing _ _ => true
  | final _ => true
  | _ => false

/-- The reset was started, and its cleanup is still to come. -/
def ResetCids.active : ResetCids → Bool
  | waiting _ => false
  | returned _ => false
  | _ => true

inductive Call where
  | run (r : ResetCids)
  /-- `tryAltPut` is about to take the token. -/
  | acquire (r : ResetCids) (hr : r.writes = true)
  /-- `opStart` was handed over. -/
  | awaitStart (stream : List Multihash)
  /-- `opCleanup` was handed over. -/
  | awaitCleanup (err : Option String)
deriving DecidableEq

namespace Call

/-- `ResetCids` is called; with a nil channel it returns. -/
def new : Option (List Multihash) → Call
  | none => run (.returned none)
  | some stream => run (.waiting stream)

def next (r r' : ResetCids) : Call :=
  if h : r'.writes = true ∧ r.writes = false then acquire r' h.1 else run r'

def awaits : Call → Bool
  | awaitStart _ => true
  | awaitCleanup _ => true
  | _ => false

/-- The call has the reset; one that waits has it if the worker grants it. -/
def holds (grants : Bool) : Call → Bool
  | run r => r.active
  | acquire _ _ => true
  | awaitStart _ => grants
  | awaitCleanup _ => false

def isReturned : Call → Bool
  | run (.returned _) => true
  | _ => false

end Call

inductive Closer where
  | idle
  /-- `close` is closed, and `done` and the token are waited for. -/
  | waits
  /-- `persistSize` comes next. -/
  | persists
  | returned
deriving DecidableEq

def Label.isWorkers : Label → Bool
  | put _ _ => true
  | work => true
  | workFails => true
  | answer _ => true
  | serve _ _ => true
  | _ => false

/-- The steps of `World.step` that a reset takes between its handshakes. -/
def Label.isResets : Label → Bool
  | read _ => true
  | closed => true
  | write => true
  | writeFails _ _ => true
  | cancel => true
  | _ => false

inductive ResetEvent where
  /-- `ResetCids` is called. -/
  | resetCids (keysChan : Option (List Multihash))
  | load
  /-- A request that reads only, with the calls it makes on the datastore. -/
  | get (calls : Nat)
  | serve (l : Label)
  /-- The worker receives `opStart` and performs it. -/
  | start (i : Nat)
  /-- The worker receives `opCleanup` and performs it. -/
  | cleanup (i : Nat)
  /-- The response is read. -/
  | respond
  /-- The context is found cancelled before `opStart` is handed over. -/
  | cancel (i : Nat)
  /-- The context is found cancelled instead of the response to `opStart`. -/
  | abandon (i : Nat)
  /-- `done` is found closed, before the start or in the loop. -/
  | closed (i : Nat)
  | call (i : Nat) (l : Label)
  /-- The token is taken, if it is there. -/
  | acquire (i : Nat)
  /-- `done` is found closed instead of the cleanup. -/
  | skip (i : Nat)
  /-- `Close` is called. -/
  | close
  /-- The worker finds `close` closed. -/
  | exit
  /-- `Close` takes the token. -/
  | take
  | persist

structure Protocol where
  session : Session Resettable
  server : Server
  calls : List Call
  closer : Closer
  /-- The token of the binary semaphore. -/
  altPutSem : Bool

namespace Protocol

def new (session : Session Resettable) : Protocol where
  session := { session with caller.resetInProgress := false }
  server := .loads
  calls := []
  closer := .idle
  altPutSem := true

variable (cfg : Config) (faults : CommitFaults)

def setCall (i : Nat) (c : Call) (p : Protocol) : Protocol := { p with calls := p.calls.set i c }

/-- The worker performs an operation of a call. Nobody else uses the flag or the alternate datastore
meanwhile. -/
def handle (op : ResetOp) (i : Nat) (c : Call) (p : Protocol) : Option Protocol :=
  let res := handleResetOp cfg faults op p.session
  let p := { p.setCall i c with session := res.1 }
  match res.2 with
  | .ok () => some { p with server := .responds i none }
  | .error (.error e) => some { p with server := .responds i (some e) }
  | .error .panic => none

def step : ResetEvent → Protocol → Option Protocol
  | .resetCids keysChan, p => some { p with calls := p.calls ++ [.new keysChan] }
  | .load, p =>
    match p.server with
    | .loads => some { p with session := (onDs loadSize p.session).1, server := .serves .idle }
    | _ => none
  | .get calls, p =>
    match p.server with
    | .serves .idle => some { p with session.calls := p.session.calls + calls }
    | _ => none
  | .serve l, p =>
    match p.server with
    | .serves worker =>
      if l.isWorkers then
        (World.step cfg faults l ⟨p.session, worker, .returned none⟩).map fun w =>
          { p with session := w.session, server := .serves w.worker }
      else none
    | _ => none
  | .start i, p =>
    match p.server, p.calls[i]? with
    | .serves .idle, some (.run (.waiting stream)) =>
      p.handle cfg faults .start i (.awaitStart stream)
    | _, _ => none
  | .cleanup i, p =>
    match p.server, p.calls[i]? with
    | .serves .idle, some (.run (.ending err)) =>
      p.handle cfg faults (.cleanup err.isNone) i (.awaitCleanup err)
    | _, _ => none
  | .respond, p =>
    match p.server with
    | .responds i err =>
      match p.calls[i]?, err with
      | some (.awaitStart stream), none =>
        some { p.setCall i (.run (.reading stream [])) with server := .serves .idle }
      | some (.awaitStart _), some e =>
        some { p.setCall i (.run (.returned (some e))) with server := .serves .idle }
      | some (.awaitCleanup err), _ =>
        some { p.setCall i (.run (.returned err)) with server := .serves .idle }
      | _, _ => none
    | _ => none
  | .cancel i, p =>
    match p.calls[i]? with
    | some (.run (.waiting _)) => some (p.setCall i (.run (.returned (some "context canceled"))))
    | _ => none
  | .abandon i, p =>
    match p.calls[i]? with
    | some (.awaitStart _) => some (p.setCall i (.run (.returned (some "context canceled"))))
    | _ => none
  | .closed i, p =>
    match p.server, p.calls[i]? with
    | .exited, some (.run (.waiting _)) =>
      some (p.setCall i (.run (.returned (some "keystore is closed"))))
    | .exited, some (.run (.reading _ _)) =>
      some (p.setCall i (.run (.ending (some "keystore is closed"))))
    | _, _ => none
  | .call i l, p =>
    match p.calls[i]? with
    | some (.run r) =>
      if l.isResets then
        (World.step cfg faults l ⟨p.session, .idle, r⟩).map fun w =>
          { p.setCall i (.next r w.reset) with
            session := w.session
            -- `tryAltPut` puts the token back
            altPutSem := p.altPutSem || (r.writes && !w.reset.writes) }
      else none
    | _ => none
  | .acquire i, p =>
    match p.calls[i]? with
    | some (.acquire r _) =>
      if p.altPutSem then some { p.setCall i (.run r) with altPutSem := false }
      else some (p.setCall i (.run (.ending (some "keystore is closed"))))
    | _ => none
  | .skip i, p =>
    match p.server, p.calls[i]? with
    | .exited, some (.run (.ending err)) => some (p.setCall i (.run (.returned err)))
    | _, _ => none
  | .close, p =>
    match p.closer with
    | .idle => some { p with closer := .waits }
    -- already closed
    | _ => some p
  | .exit, p =>
    match p.server, p.closer with
    | .serves .idle, .idle => none
    | .serves .idle, _ => some { p with server := .exited }
    | _, _ => none
  | .take, p =>
    match p.server, p.closer with
    | .exited, .waits =>
      if p.altPutSem then some { p with closer := .persists, altPutSem := false } else none
    | _, _ => none
  | .persist, p =>
    match p.closer with
    | .persists =>
      some { p with session := (onDs Keystore.close p.session).1, closer := .returned }
    | _ => none

/-! ## What a step does -/

variable (p : Protocol)

inductive Move : ResetEvent → Protocol → Prop where
  | resetCids {keysChan : Option (List Multihash)} :
    Move (.resetCids keysChan) { p with calls := p.calls ++ [.new keysChan] }
  | load (hserver : p.server = .loads) :
    Move .load { p with session := (onDs loadSize p.session).1, server := .serves .idle }
  | get {calls : Nat} (hserver : p.server = .serves .idle) :
    Move (.get calls) { p with session.calls := p.session.calls + calls }
  | serve {l : Label} {worker : Worker} {w : World}
    (hserver : p.server = .serves worker) (hl : l.isWorkers = true)
    (hstep : World.step cfg faults l ⟨p.session, worker, .returned none⟩ = some w) :
    Move (.serve l) { p with session := w.session, server := .serves w.worker }
  | start {i : Nat} {stream : List Multihash} {err : Option String}
    (hserver : p.server = .serves .idle) (hi : p.calls[i]? = some (.run (.waiting stream)))
    (herr : err = none ↔ (handleResetOp cfg faults .start p.session).2 = .ok ()) :
    Move (.start i) { p.setCall i (.awaitStart stream) with
      session := (handleResetOp cfg faults .start p.session).1, server := .responds i err }
  | cleanup {i : Nat} {err res : Option String} (hserver : p.server = .serves .idle)
    (hi : p.calls[i]? = some (.run (.ending err))) :
    Move (.cleanup i) { p.setCall i (.awaitCleanup err) with
      session := (handleResetOp cfg faults (.cleanup err.isNone) p.session).1
      server := .responds i res }
  | granted {i : Nat} {stream : List Multihash}
    (hserver : p.server = .responds i none) (hi : p.calls[i]? = some (.awaitStart stream)) :
    Move .respond { p.setCall i (.run (.reading stream [])) with server := .serves .idle }
  | refused {i : Nat} {stream : List Multihash} {e : String}
    (hserver : p.server = .responds i (some e)) (hi : p.calls[i]? = some (.awaitStart stream)) :
    Move .respond { p.setCall i (.run (.returned (some e))) with server := .serves .idle }
  | cleaned {i : Nat} {err res : Option String}
    (hserver : p.server = .responds i res) (hi : p.calls[i]? = some (.awaitCleanup err)) :
    Move .respond { p.setCall i (.run (.returned err)) with server := .serves .idle }
  | cancel {i : Nat} {stream : List Multihash} (hi : p.calls[i]? = some (.run (.waiting stream))) :
    Move (.cancel i) (p.setCall i (.run (.returned (some "context canceled"))))
  | abandon {i : Nat} {stream : List Multihash} (hi : p.calls[i]? = some (.awaitStart stream)) :
    Move (.abandon i) (p.setCall i (.run (.returned (some "context canceled"))))
  | closedStart {i : Nat} {stream : List Multihash} (hserver : p.server = .exited)
    (hi : p.calls[i]? = some (.run (.waiting stream))) :
    Move (.closed i) (p.setCall i (.run (.returned (some "keystore is closed"))))
  | closedLoop {i : Nat} {stream keys : List Multihash}
    (hserver : p.server = .exited) (hi : p.calls[i]? = some (.run (.reading stream keys))) :
    Move (.closed i) (p.setCall i (.run (.ending (some "keystore is closed"))))
  | call {i : Nat} {l : Label} {r : ResetCids} {w : World} (hi : p.calls[i]? = some (.run r))
    (hl : l.isResets = true) (hstep : World.step cfg faults l ⟨p.session, .idle, r⟩ = some w) :
    Move (.call i l) { p.setCall i (.next r w.reset) with
      session := w.session, altPutSem := p.altPutSem || (r.writes && !w.reset.writes) }
  | acquire {i : Nat} {r : ResetCids} {hr : r.writes = true}
    (hi : p.calls[i]? = some (.acquire r hr)) :
    Move (.acquire i) { p.setCall i (.run r) with altPutSem := false }
  | acquireFails {i : Nat} {r : ResetCids} {hr : r.writes = true}
    (hi : p.calls[i]? = some (.acquire r hr)) :
    Move (.acquire i) (p.setCall i (.run (.ending (some "keystore is closed"))))
  | skip {i : Nat} {err : Option String} (hserver : p.server = .exited)
    (hi : p.calls[i]? = some (.run (.ending err))) :
    Move (.skip i) (p.setCall i (.run (.returned err)))
  | close : Move .close { p with closer := .waits }
  | closeAgain : Move .close p
  | exit (hserver : p.server = .serves .idle) (hcloser : p.closer ≠ .idle) :
    Move .exit { p with server := .exited }
  | take (hserver : p.server = .exited) :
    Move .take { p with closer := .persists, altPutSem := false }
  | persist (hcloser : p.closer = .persists) :
    Move .persist { p with session := (onDs Keystore.close p.session).1, closer := .returned }

variable {cfg faults p} {p' : Protocol} {e : ResetEvent}

theorem handle_cases {op : ResetOp} {i : Nat} {c : Call}
    (h : p.handle cfg faults op i c = some p') :
    ∃ err, (err = none ↔ (handleResetOp cfg faults op p.session).2 = .ok ()) ∧
      p' = { p.setCall i c with
        session := (handleResetOp cfg faults op p.session).1, server := .responds i err } := by
  unfold handle at h
  dsimp only at h
  split at h
  · next hres => exact ⟨none, iff_of_true rfl hres, (Option.some.inj h).symm⟩
  · next e hres =>
    refine ⟨some e, iff_of_false nofun (fun hok => ?_), (Option.some.inj h).symm⟩
    cases hres.symm.trans hok
  · cases h

theorem move_of_step (h : step cfg faults e p = some p') : Move cfg faults p e p' := by
  cases e with
  | resetCids keysChan =>
    cases h
    exact .resetCids
  | load | get calls | cancel i | abandon i | closed i | skip i | close | exit | persist =>
    rw [step] at h
    split at h <;> cases h <;> constructor <;> assumption
  | respond | acquire i =>
    rw [step] at h
    split at h
    · split at h <;> cases h <;> constructor <;> assumption
    · cases h
  | serve l | call i l =>
    rw [step] at h
    split at h
    · obtain ⟨hl, hstep⟩ := Option.ite_none_right_eq_some.mp h
      obtain ⟨w, hw, rfl⟩ := Option.map_eq_some_iff.mp hstep
      constructor <;> assumption
    · cases h
  | start i | cleanup i =>
    rw [step] at h
    split at h
    · obtain ⟨err, herr, rfl⟩ := handle_cases h
      constructor <;> assumption
    · cases h
  | take =>
    rw [step] at h
    split at h
    · next hserver _ =>
      obtain ⟨-, ⟨⟩⟩ := Option.ite_none_right_eq_some.mp h
      exact .take hserver
    · cases h

end Protocol

/-! ## Between the handshakes -/

section Between

variable {cfg : Config} {faults : CommitFaults} {w w' : World} {l : Label}

/-- What is kept between the handshakes: the flag, and the keys of the alternate datastore. -/
structure Resettable.Grows (c c' : Resettable) : Prop where
  flag : c'.resetInProgress = c.resetInProgress
  keys : ∀ κ ∈ c.altDs.keys, κ ∈ c'.altDs.keys

theorem Resettable.Grows.refl (c : Resettable) : c.Grows c := ⟨rfl, fun _ hκ => hκ⟩

theorem AltPut.grows_of_step {fault : AltFault} {p : AltPut} {p' : Option AltPut}
    {c c' : Resettable} (h : p.step cfg fault c = some (p', c')) : c.Grows c' := by
  cases goes_of_step h with
  | seen | stored | taken => exact .refl c
  | counted => exact ⟨rfl, fun _ hκ => hκ⟩
  | committed => exact ⟨rfl, fun _ hκ => mem_keys_putAll.mpr (.inl hκ)⟩

theorem AltPut.grows_of_fail (applied : DsKey → Bool) (p : AltPut) (c : Resettable) :
    c.Grows (p.fail cfg applied c) := by
  cases p with
  | check keys seen b added => exact .refl c
  | commit b => exact ⟨rfl, fun _ hκ => mem_keys_putAll.mpr (.inl hκ)⟩

theorem World.grows_of_isWorkers (hl : l.isWorkers = true) (h : step cfg faults l w = some w') :
    w.session.caller.Grows w'.session.caller := by
  have hserve {r : Request} {response : Except String (List Multihash)}
      (h : w.serve cfg faults r response = some w') :
      w.session.caller.Grows w'.session.caller := by
    obtain ⟨size, hcaller, -⟩ := serve_cases h
    rw [hcaller]
    exact ⟨rfl, fun _ hκ => hκ⟩
  cases move_of_step h with
  | put | workFails => exact .refl _
  | answer keys response hworker h => exact hserve h
  | serve r response hidle h => exact hserve h
  | work h =>
    unfold work at h
    split at h
    · obtain ⟨⟨p', c⟩, hstep, rfl⟩ := Option.map_eq_some_iff.mp h
      exact AltPut.grows_of_step hstep
    · cases h
      exact .refl _
    · cases h
      exact ⟨rfl, fun _ hκ => hκ⟩
    · cases h
  | start | startFails | read | closed | write | writeFails | cancel | cleanup => cases hl

structure World.Resets (w w' : World) : Prop where
  grows : w.session.caller.Grows w'.session.caller
  store : w'.session.store = w.session.store
  worker : w'.worker = w.worker
  active : w.reset.active = true ∧ w'.reset.active = true

theorem ResetCids.active_of_writes {r : ResetCids} (h : r.writes = true) : r.active = true := by
  cases r with
  | writing | final => rfl
  | waiting | reading | ending | returned => cases h

theorem ResetCids.active_receive (stream keys : List Multihash) :
    (ResetCids.receive cfg stream keys).active = true := by
  unfold ResetCids.receive
  split
  · rfl
  · rfl

theorem World.resets_of_isResets (hl : l.isResets = true) (h : step cfg faults l w = some w') :
    w.Resets w' := by
  have hactive {r r' : ResetCids} (hr : w.reset = r) (hr' : w'.reset = r')
      (h : r.active = true) (h' : r'.active = true) :
      w.reset.active = true ∧ w'.reset.active = true := by
    rw [hr, hr']
    exact ⟨h, h'⟩
  cases move_of_step h with
  | read m stream keys hr =>
    exact ⟨.refl _, rfl, rfl, hactive hr rfl rfl (ResetCids.active_receive _ _)⟩
  | closed keys hr | cancel stream keys hr => exact ⟨.refl _, rfl, rfl, hactive hr rfl rfl rfl⟩
  | write h =>
    unfold write at h
    split at h
    · next hr =>
      obtain ⟨⟨p', c⟩, hstep, rfl⟩ := Option.map_eq_some_iff.mp h
      refine ⟨AltPut.grows_of_step hstep, rfl, rfl, hactive hr rfl rfl ?_⟩
      cases p' with
      | some p' => rfl
      | none => rfl
    · next hr =>
      obtain ⟨⟨p', c⟩, hstep, rfl⟩ := Option.map_eq_some_iff.mp h
      refine ⟨AltPut.grows_of_step hstep, rfl, rfl, hactive hr rfl rfl ?_⟩
      cases p' with
      | some p' => rfl
      | none => rfl
    · cases h
  | writeFails err applied h =>
    unfold writeFails at h
    split at h
    · next hr =>
      cases h
      exact ⟨AltPut.grows_of_fail applied _ _, rfl, rfl, hactive hr rfl rfl rfl⟩
    · next hr =>
      cases h
      exact ⟨AltPut.grows_of_fail applied _ _, rfl, rfl, hactive hr rfl rfl rfl⟩
    · cases h
  | put | work | workFails | answer | serve | start | startFails | cleanup => cases hl

end Between

/-! ## Who waits, and who has the reset -/

namespace Call

theorem not_awaits_new (keysChan : Option (List Multihash)) : (new keysChan).awaits = false := by
  cases keysChan with
  | none => rfl
  | some stream => rfl

theorem not_holds_new (keysChan : Option (List Multihash)) (grants : Bool) :
    (new keysChan).holds grants = false := by
  cases keysChan with
  | none => rfl
  | some stream => rfl

theorem not_awaits_next (r r' : ResetCids) : (next r r').awaits = false := by
  unfold next
  split
  · rfl
  · rfl

theorem holds_next (r : ResetCids) {r' : ResetCids} (hr' : r'.active = true) (grants : Bool) :
    (next r r').holds grants = true := by
  unfold next
  split
  · rfl
  · exact hr'

variable {c : Call}

theorem not_holds_of_isReturned {grants : Bool} (h : c.isReturned = true) :
    c.holds grants = false := by
  cases c with
  | run r =>
    cases r with
    | returned err => rfl
    | waiting | reading | writing | final | ending => cases h
  | acquire | awaitStart | awaitCleanup => cases h

theorem holds_of_not_awaits {grants : Bool} (hc : c.awaits = false) (h : c.holds grants = true) :
    c.holds false = true := by
  cases c with
  | run r | acquire r hr => exact h
  | awaitStart stream => cases hc
  | awaitCleanup err => cases h

theorem holds_mono (h : c.holds false = true) (grants : Bool) : c.holds grants = true := by
  cases c with
  | run r | acquire r hr => exact h
  | awaitStart stream | awaitCleanup err => cases h

end Call

namespace Protocol

variable {cfg : Config} {faults : CommitFaults} {p p' : Protocol} {e : ResetEvent}

/-- A call that waits is the one the worker answers, and at most one call has the reset, only while
the flag is set. -/
structure Sound (p : Protocol) : Prop where
  waits : ∀ (i : Nat) (c : Call), p.calls[i]? = some c → c.awaits = true →
    ∃ err, p.server.response = some (i, err)
  reset : Exclusive (fun c : Call => c.holds p.server.grants = true)
    (p.session.caller.resetInProgress = true) p.calls

namespace Sound

theorem frame (h : Sound p) (hcalls : p'.calls = p.calls)
    (hresponse : p'.server.response = p.server.response)
    (hflag : p'.session.caller.resetInProgress = p.session.caller.resetInProgress) : Sound p' := by
  constructor
  · rw [hcalls, hresponse]
    exact h.waits
  · unfold Server.grants
    rw [hcalls, hresponse, hflag]
    exact h.reset

variable {i : Nat} {c : Call} {err : Option String}

/-- Nobody waits while the worker serves requests. -/
theorem not_awaits (h : Sound p) (hserver : p.server.response = none) (hi : p.calls[i]? = some c) :
    c.awaits = false := by
  rw [← Bool.not_eq_true]
  intro hc
  obtain ⟨err, hresponse⟩ := h.waits i c hi hc
  cases hserver.symm.trans hresponse

theorem not_awaits_ne (h : Sound p) {j : Nat} (hserver : p.server.response = some (i, err))
    (hne : j ≠ i) (hj : p.calls[j]? = some c) : c.awaits = false := by
  rw [← Bool.not_eq_true]
  intro hc
  obtain ⟨err', hresponse⟩ := h.waits j c hj hc
  obtain ⟨rfl, -⟩ := Prod.mk.inj (Option.some.inj (hserver.symm.trans hresponse))
  exact hne rfl

/-- A call gets on without the worker. -/
theorem set (h : Sound p) {c' : Call} (hi : p.calls[i]? = some c) (hawaits : c'.awaits = false)
    (hholds : c'.holds p.server.grants = true → c.holds p.server.grants = true) :
    Sound (p.setCall i c') where
  waits := by
    intro j d hj hd
    rcases getElem?_set_cases hj with ⟨-, rfl⟩ | ⟨-, hj⟩
    · cases hawaits.symm.trans hd
    · exact h.waits j d hj hd
  reset := h.reset.set hi hholds

/-- The worker receives an operation. -/
theorem handle (h : Sound p) (hserver : p.server.response = none) {i : Nat} {c : Call}
    {session : Session Resettable} {err : Option String}
    (hreset : Exclusive (fun c : Call => c.holds (Server.responds i err).grants = true)
      (session.caller.resetInProgress = true) (p.calls.set i c)) :
    Sound { p.setCall i c with session := session, server := .responds i err } where
  waits := by
    intro j d hj hd
    rcases getElem?_set_cases hj with ⟨rfl, -⟩ | ⟨-, hj⟩
    · exact ⟨err, rfl⟩
    · cases (h.not_awaits hserver hj).symm.trans hd
  reset := hreset

/-- The response is read. -/
theorem respond (h : Sound p) {c' : Call} (hserver : p.server.response = some (i, err))
    (hi : p.calls[i]? = some c) (hawaits : c'.awaits = false)
    (hholds : c'.holds p.server.grants = true → c.holds p.server.grants = true) :
    Sound { p.setCall i c' with server := .serves .idle } where
  waits := by
    intro j d hj hd
    rcases getElem?_set_cases hj with ⟨-, rfl⟩ | ⟨hne, hj⟩
    · cases hawaits.symm.trans hd
    · cases (h.not_awaits_ne hserver hne hj).symm.trans hd
  reset := (h.reset.set hi hholds).mono fun c _ hc => Call.holds_mono hc _

end Sound

theorem sound_new (session : Session Resettable) : Sound (new session) := ⟨nofun, .of_none nofun⟩

theorem start_session (cfg : Config) (faults : CommitFaults) (s : Session Resettable) :
    ((handleResetOp cfg faults .start s).2 = .ok () → s.caller.resetInProgress = false ∧
      (handleResetOp cfg faults .start s).1.caller.resetInProgress = true) ∧
    ((handleResetOp cfg faults .start s).2 ≠ .ok () →
      (handleResetOp cfg faults .start s).1.caller.resetInProgress = s.caller.resetInProgress) ∧
    (s.caller.resetInProgress = true → (handleResetOp cfg faults .start s).1.caller = s.caller ∧
      (handleResetOp cfg faults .start s).1.store = s.store) :=
  (start_flag (H := fun _ => True) s trivial rfl rfl).2

/-- **Every step** keeps this. -/
theorem sound_step (h : Sound p) (hstep : step cfg faults e p = some p') : Sound p' := by
  cases move_of_step hstep with
  | @resetCids keysChan =>
    refine ⟨fun i c hi hc => ?_, h.reset.append ?_⟩
    · rcases getElem?_append_cases hi with hi | ⟨-, rfl⟩
      · exact h.waits i c hi hc
      · cases (Call.not_awaits_new keysChan).symm.trans hc
    · rw [Call.not_holds_new]
      exact Bool.false_ne_true
  | load hserver => exact h.frame rfl (by rw [hserver]; rfl) rfl
  | get hserver => exact h.frame rfl rfl rfl
  | serve hserver hl hw =>
    exact h.frame rfl (by rw [hserver]; rfl) (grows_of_isWorkers hl hw).flag
  | @start i stream err hserver hi herr =>
    have hresponse : p.server.response = none := by rw [hserver]; rfl
    obtain ⟨hok, hfails, -⟩ := start_session cfg faults p.session
    refine h.handle hresponse ?_
    cases err with
    | none =>
      obtain ⟨hfree, htaken⟩ := hok (herr.mp rfl)
      refine .set_of_alone (fun j c _ hj hc => ?_) fun _ => htaken
      have hholds := Call.holds_of_not_awaits (h.not_awaits hresponse hj) hc
      cases hfree.symm.trans (h.reset.taken j c hj (Call.holds_mono hholds _))
    | some err =>
      rw [hfails fun hres => nomatch herr.mpr hres]
      exact (h.reset.mono fun c _ hc => Call.holds_mono hc _).set hi nofun
  | @cleanup i err res hserver hi =>
    have hresponse : p.server.response = none := by rw [hserver]; rfl
    refine h.handle hresponse (.set_of_alone (fun j c hne hj hc => ?_) nofun)
    have hholds := Call.holds_of_not_awaits (h.not_awaits hresponse hj) hc
    exact h.reset.alone hi rfl hne hj (Call.holds_mono hholds _)
  | granted hserver hi =>
    have hgrants : p.server.grants = true := by rw [hserver]; rfl
    exact h.respond (by rw [hserver]; rfl) hi rfl fun _ => hgrants
  | refused hserver hi | cleaned hserver hi =>
    exact h.respond (by rw [hserver]; rfl) hi rfl nofun
  | cancel hi | abandon hi | closedStart _ hi | skip _ hi => exact h.set hi rfl nofun
  | closedLoop _ hi | acquireFails hi => exact h.set hi rfl fun _ => rfl
  | call hi hl hw =>
    have hresets := resets_of_isResets hl hw
    exact (h.set hi (Call.not_awaits_next _ _) fun _ => hresets.active.1).frame rfl rfl
      hresets.grows.flag
  | acquire hi => exact (h.set hi rfl fun _ => rfl).frame rfl rfl rfl
  | close | closeAgain | take | persist => exact h.frame rfl rfl rfl
  | exit hserver => exact h.frame rfl (by rw [hserver]; rfl) rfl

theorem sound_run {session : Session Resettable} {es : List ResetEvent}
    (hrun : Trace.run (step cfg faults) es (new session) = some p) : Sound p :=
  Trace.invariant (fun _ _ _ _ h hstep => sound_step h hstep) (sound_new session) hrun

/-- **One reset at a time.** In every interleaving at most one call has the reset, and only while
the flag is set. -/
theorem resets_exclusive {session : Session Resettable} {es : List ResetEvent}
    (hrun : Trace.run (step cfg faults) es (new session) = some p) :
    Exclusive (fun c : Call => c.holds p.server.grants = true)
      (p.session.caller.resetInProgress = true) p.calls :=
  (sound_run hrun).reset

theorem resets_exclusive_twoCalls : ∃ p,
    Trace.run (step defaultConfig .none) [.load, .resetCids (some []), .resetCids (some []),
        .start 0, .respond, .start 1] (new (World.new []).session) = some p ∧
      Exclusive (fun c : Call => c.holds p.server.grants = true)
        (p.session.caller.resetInProgress = true) p.calls :=
  Trace.exists_observed (fun _ => ()) () (by decide +kernel) fun _ hrun _ => resets_exclusive hrun

end Protocol

end KadDht.Keystore
