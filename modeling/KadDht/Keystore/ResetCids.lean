import KadDht.Keystore.Reset
import KadDht.Lib.Trace

/-!
# Keystore — a reset and the worker (`provider/keystore/resettable_keystore.go`)

`ResetCids` runs in the goroutine of its caller: it starts the reset in the worker, writes the keys
of a stream to the alternate datastore, batch by batch, and has the worker clean up. Meanwhile the
worker serves requests. A put during a reset is written to both datastores; an error of the
alternate write is not reported. Deletions go to the active datastore only.
-/

namespace KadDht.Keystore

open DsM

/-! ## Model -/

def keyOf (cfg : Config) (h : Multihash) : DsKey := dsKey (mhToBit256 h) cfg.prefixBits

inductive AltFault where
  | none
  /-- A call before the commit fails. -/
  | early
  /-- The commit fails, after it applied part of the writes. -/
  | commit (applied : DsKey → Bool)

def AltFault.isEarly : AltFault → Bool
  | early => true
  | _ => false

def AltFault.writes : AltFault → DsKey → Bool
  | none, _ => true
  | early, _ => false
  | commit applied, k => applied k

/-- What is left of a call of `altPut`. A batch is given by the multihashes it writes. -/
inductive AltPut where
  | check (keys : List Multihash) (seen : List Bit256) (b : List Multihash) (added : Nat)
  | commit (b : List Multihash)
deriving DecidableEq

/-- The next step of `altPut`; the result is what is left of it, nothing when it has returned. -/
def AltPut.step (cfg : Config) (fault : AltFault) :
    AltPut → Resettable → Option (Option AltPut × Resettable)
  | check (h :: keys) seen b added, c =>
    -- duplicates within the batch are skipped
    if mhToBit256 h ∈ seen then some (some (check keys seen b added), c)
    else if keyOf cfg h ∈ c.altDs.keys then
      some (some (check keys (mhToBit256 h :: seen) b added), c)
    else some (some (check keys (mhToBit256 h :: seen) (b ++ [h]) (added + 1)), c)
  | check [] _ b added, c =>
    if fault.isEarly then none
    else some (some (commit b), { c with altSize := c.altSize + Int64.ofNat added })
  | commit b, c =>
    let written := b.filter fun h => fault.writes (keyOf cfg h)
    some (none, { c with altDs := Batch.applyTo (written.map (putOp cfg)) c.altDs })

/-- `altPut` fails: its commit may have applied part of the writes. -/
def AltPut.fail (cfg : Config) (applied : DsKey → Bool) : AltPut → Resettable → Resettable
  | check _ _ _ _, c => c
  | commit b, c =>
    let written := b.filter fun h => applied (keyOf cfg h)
    { c with altDs := Batch.applyTo (written.map (putOp cfg)) c.altDs }

inductive Worker where
  | idle
  /-- `put` during a reset, in `altPut`. -/
  | altPut (keys : List Multihash) (fault : AltFault) (p : AltPut)
  /-- `altPut` failed, and the alternate datastore is counted. -/
  | refresh (keys : List Multihash)
  | storeSize (keys : List Multihash) (size : Nat)
  /-- `keystore.put` comes next. -/
  | put (keys : List Multihash)

def Worker.receive (c : Resettable) (keys : List Multihash) (fault : AltFault) : Worker :=
  if c.resetInProgress then .altPut keys fault (.check keys [] [] 0) else .put keys

inductive ResetCids where
  | waiting (stream : List Multihash)
  | reading (stream keys : List Multihash)
  /-- A full batch is written. -/
  | writing (stream : List Multihash) (p : AltPut)
  /-- The final batch is written. -/
  | final (p : AltPut)
  /-- The deferred cleanup comes next. -/
  | ending (err : Option String)
  | returned (err : Option String)
deriving DecidableEq

def ResetCids.receive (cfg : Config) (stream keys : List Multihash) : ResetCids :=
  if keys.length ≥ cfg.batchSize then .writing stream (.check keys [] [] 0)
  else .reading stream keys

structure World where
  session : Session Resettable
  worker : Worker
  reset : ResetCids

inductive Label where
  /-- The worker receives a put. -/
  | put (keys : List Multihash) (fault : AltFault)
  /-- The next step of a put before `keystore.put`. -/
  | work
  /-- A call of `altPut` fails before its commit. -/
  | workFails
  /-- The put is answered. -/
  | answer (response : Except String (List Multihash))
  /-- Another request is served and answered. -/
  | serve (r : Request) (response : Except String (List Multihash))
  | start
  /-- A key is received from the stream. -/
  | read (h : Multihash)
  /-- The stream is closed. -/
  | closed
  /-- The next step of `tryAltPut`. -/
  | write
  | writeFails (err : String) (applied : DsKey → Bool)
  /-- The context is cancelled. -/
  | cancel
  | cleanup

namespace World

/-- An empty keystore, and a reset that is about to start. -/
def new (stream : List Multihash) : World where
  session :=
    { caller :=
        { size := 0, altDs := Datastore.empty, altSize := 0, resetInProgress := false,
          activeNamespace := 0, base := ⟨(), Datastore.empty, fun _ => none, 0⟩ }
      store := Datastore.empty
      faults := fun _ => none
      calls := 0 }
  worker := .idle
  reset := .waiting stream

variable (cfg : Config) (faults : CommitFaults)

def setCaller (w : World) (c : Resettable) : World := { w with session.caller := c }

/-- The datastores work on a request, and the response is as stated. -/
def serve (r : Request) (response : Except String (List Multihash)) (w : World) : Option World :=
  let res := onDs (r.serve cfg faults) w.session
  match res.2 with
  | .ok answer =>
    if answer = response then some { w with session := res.1, worker := .idle } else none
  | .error _ => none

/-- The next step of the worker in a put, before `keystore.put`. -/
def work (w : World) : Option World :=
  match w.worker with
  | .altPut keys fault p =>
    (p.step cfg fault w.session.caller).map fun r =>
      { w.setCaller r.2 with
        worker := match r.1, fault with
          | some p', _ => .altPut keys fault p'
          | none, .none => .put keys
          | none, _ => .refresh keys }
  | .refresh keys => some { w with worker := .storeSize keys w.session.caller.altDs.keys.length }
  | .storeSize keys size =>
    some { w.setCaller { w.session.caller with altSize := Int64.ofNat size } with
      worker := .put keys }
  | _ => none

def write (w : World) : Option World :=
  match w.reset with
  | .writing stream p =>
    (p.step cfg .none w.session.caller).map fun r =>
      { w.setCaller r.2 with
        reset := match r.1 with
          | some p' => .writing stream p'
          | none => .reading stream [] }
  | .final p =>
    (p.step cfg .none w.session.caller).map fun r =>
      { w.setCaller r.2 with
        reset := match r.1 with
          | some p' => .final p'
          | none => .ending none }
  | _ => none

def writeFails (err : String) (applied : DsKey → Bool) (w : World) : Option World :=
  match w.reset with
  | .writing _ p =>
    some { w.setCaller (p.fail cfg applied w.session.caller) with reset := .ending (some err) }
  | .final p =>
    some { w.setCaller (p.fail cfg applied w.session.caller) with reset := .ending (some err) }
  | _ => none

def handle (op : ResetOp) (w : World) : World × Except Failure Unit :=
  let res := handleResetOp cfg faults op w.session
  ({ w with session := res.1 }, res.2)

def step : Label → World → Option World
  | .put keys fault, w =>
    match w.worker with
    | .idle => some { w with worker := .receive w.session.caller keys fault }
    | _ => none
  | .work, w => w.work cfg
  | .workFails, w =>
    match w.worker with
    | .altPut keys .early (.check _ _ _ _) => some { w with worker := .refresh keys }
    | _ => none
  | .answer response, w =>
    match w.worker with
    | .put keys => w.serve cfg faults (.put keys) response
    | _ => none
  | .serve r response, w =>
    match w.worker, r with
    | .idle, .delete keys => w.serve cfg faults (.delete keys) response
    | .idle, .empty => w.serve cfg faults .empty response
    | _, _ => none
  | .start, w =>
    match w.worker, w.reset with
    | .idle, .waiting stream =>
      match w.handle cfg faults .start with
      | (w, .ok ()) => some { w with reset := .reading stream [] }
      | (w, .error (.error e)) => some { w with reset := .returned (some e) }
      | (_, .error .panic) => none
    | _, _ => none
  | .read h, w =>
    match w.reset with
    | .reading (h' :: stream) keys =>
      if h' = h then some { w with reset := .receive cfg stream (keys ++ [h]) } else none
    | _ => none
  | .closed, w =>
    match w.reset with
    | .reading [] keys => some { w with reset := .final (.check keys [] [] 0) }
    | _ => none
  | .write, w => w.write cfg
  | .writeFails err applied, w => w.writeFails cfg err applied
  | .cancel, w =>
    match w.reset with
    | .reading _ _ => some { w with reset := .ending (some "context canceled") }
    | _ => none
  | .cleanup, w =>
    match w.worker, w.reset with
    | .idle, .ending err =>
      some { (w.handle cfg faults (.cleanup err.isNone)).1 with reset := .returned err }
    | _, _ => none

end World

/-! ## What a step does -/

inductive AltPut.Goes (cfg : Config) (fault : AltFault) (c : Resettable) :
    AltPut → Option AltPut → Resettable → Prop
  | seen {h : Multihash} {keys : List Multihash} {seen : List Bit256} {b : List Multihash}
    {added : Nat} (hmem : mhToBit256 h ∈ seen) :
    Goes cfg fault c (check (h :: keys) seen b added) (some (check keys seen b added)) c
  | stored {h : Multihash} {keys : List Multihash} {seen : List Bit256} {b : List Multihash}
    {added : Nat} (hnot : mhToBit256 h ∉ seen) (hstored : keyOf cfg h ∈ c.altDs.keys) :
    Goes cfg fault c (check (h :: keys) seen b added)
      (some (check keys (mhToBit256 h :: seen) b added)) c
  | taken {h : Multihash} {keys : List Multihash} {seen : List Bit256} {b : List Multihash}
    {added : Nat} (hnot : mhToBit256 h ∉ seen) (habsent : keyOf cfg h ∉ c.altDs.keys) :
    Goes cfg fault c (check (h :: keys) seen b added)
      (some (check keys (mhToBit256 h :: seen) (b ++ [h]) (added + 1))) c
  | counted {seen : List Bit256} {b : List Multihash} {added : Nat}
    (hearly : ¬ fault.isEarly = true) :
    Goes cfg fault c (check [] seen b added) (some (commit b))
      { c with altSize := c.altSize + Int64.ofNat added }
  | committed {b : List Multihash} :
    Goes cfg fault c (commit b) none
      { c with
        altDs := Batch.applyTo
          ((b.filter fun h => fault.writes (keyOf cfg h)).map (putOp cfg)) c.altDs }

theorem AltPut.goes_of_step {cfg : Config} {fault : AltFault} {p : AltPut} {p' : Option AltPut}
    {c c' : Resettable} (h : p.step cfg fault c = some (p', c')) : Goes cfg fault c p p' c' := by
  cases p with
  | check keys seen b added =>
    cases keys with
    | cons m keys =>
      rw [step] at h
      split at h
      · next hmem =>
        cases h
        exact .seen hmem
      · next hnot =>
        split at h
        · next hstored =>
          cases h
          exact .stored hnot hstored
        · next habsent =>
          cases h
          exact .taken hnot habsent
    | nil =>
      rw [step] at h
      split at h
      · cases h
      · next hearly =>
        cases h
        exact .counted hearly
  | commit b =>
    cases h
    exact .committed

variable (cfg : Config) (faults : CommitFaults) (w : World)

inductive World.Move : Label → World → Prop where
  | put (keys : List Multihash) (fault : AltFault) (hidle : w.worker = .idle) :
    Move (.put keys fault) { w with worker := .receive w.session.caller keys fault }
  | work {w' : World} (h : w.work cfg = some w') : Move .work w'
  | workFails (keys rest : List Multihash) (seen : List Bit256) (b : List Multihash)
    (added : Nat) (hworker : w.worker = .altPut keys .early (.check rest seen b added)) :
    Move .workFails { w with worker := .refresh keys }
  | answer {w' : World} (keys : List Multihash) (response : Except String (List Multihash))
    (hworker : w.worker = .put keys) (h : w.serve cfg faults (.put keys) response = some w') :
    Move (.answer response) w'
  | serve {w' : World} (r : Request) (response : Except String (List Multihash))
    (hidle : w.worker = .idle) (h : w.serve cfg faults r response = some w') :
    Move (.serve r response) w'
  | start (stream : List Multihash) (hidle : w.worker = .idle)
    (hr : w.reset = .waiting stream) (h : (w.handle cfg faults .start).2 = .ok ()) :
    Move .start { (w.handle cfg faults .start).1 with reset := .reading stream [] }
  | startFails (stream : List Multihash) (e : String) (hr : w.reset = .waiting stream) :
    Move .start { (w.handle cfg faults .start).1 with reset := .returned (some e) }
  | read (h : Multihash) (stream keys : List Multihash)
    (hr : w.reset = .reading (h :: stream) keys) :
    Move (.read h) { w with reset := .receive cfg stream (keys ++ [h]) }
  | closed (keys : List Multihash) (hr : w.reset = .reading [] keys) :
    Move .closed { w with reset := .final (.check keys [] [] 0) }
  | write {w' : World} (h : w.write cfg = some w') : Move .write w'
  | writeFails {w' : World} (err : String) (applied : DsKey → Bool)
    (h : w.writeFails cfg err applied = some w') : Move (.writeFails err applied) w'
  | cancel (stream keys : List Multihash) (hr : w.reset = .reading stream keys) :
    Move .cancel { w with reset := .ending (some "context canceled") }
  | cleanup (err : Option String) (hidle : w.worker = .idle) (hr : w.reset = .ending err) :
    Move .cleanup { (w.handle cfg faults (.cleanup err.isNone)).1 with reset := .returned err }

def Label.reads : Label → List Multihash
  | read h => [h]
  | _ => []

section Steps

variable {cfg faults w} {w' : World} {l : Label}

theorem World.move_of_step (h : step cfg faults l w = some w') : Move cfg faults w l w' := by
  cases l with
  | put keys fault | workFails | closed | cancel | cleanup =>
    simp only [World.step] at h
    split at h
    · cases h
      constructor <;> assumption
    · cases h
  | work => exact .work h
  | answer response =>
    simp only [World.step] at h
    split at h
    · next keys hworker => exact .answer keys response hworker h
    · cases h
  | serve r response =>
    simp only [World.step] at h
    split at h
    · next keys hidle => exact .serve (.delete keys) response hidle h
    · next hidle => exact .serve .empty response hidle h
    · cases h
  | start =>
    simp only [World.step] at h
    split at h
    · next stream hidle hr =>
      split at h
      · next v hhandle =>
        cases h
        obtain rfl : (w.handle cfg faults .start).1 = v := by rw [hhandle]
        exact .start stream hidle hr (by rw [hhandle])
      · next v e hhandle =>
        cases h
        obtain rfl : (w.handle cfg faults .start).1 = v := by rw [hhandle]
        exact .startFails stream e hr
      · cases h
    · cases h
  | read m =>
    simp only [World.step] at h
    split at h
    · next m' stream keys hr =>
      split at h
      · next heq =>
        subst heq
        cases h
        exact .read m' stream keys hr
      · cases h
    · cases h
  | write => exact .write h
  | writeFails err applied => exact .writeFails err applied h

/-- A request is served: only the active datastore and its size change. -/
theorem World.serve_cases {r : Request} {response : Except String (List Multihash)}
    (h : w.serve cfg faults r response = some w') :
    ∃ size, w'.session.caller = { w.session.caller with size := size } ∧ w'.worker = .idle ∧
      w'.reset = w.reset := by
  unfold serve at h
  dsimp only at h
  split at h
  · split at h
    · cases h
      exact ⟨_, rfl, rfl, rfl⟩
    · cases h
  · cases h

theorem World.reset_of_work (h : w.work cfg = some w') : w'.reset = w.reset := by
  unfold World.work at h
  split at h
  · obtain ⟨r, -, rfl⟩ := Option.map_eq_some_iff.mp h
    rfl
  · cases h
    rfl
  · cases h
    rfl
  · cases h

theorem World.reset_of_writeFails {err : String} {applied : DsKey → Bool}
    (h : w.writeFails cfg err applied = some w') : w'.reset = .ending (some err) := by
  unfold World.writeFails at h
  split at h
  · cases h
    rfl
  · cases h
    rfl
  · cases h

/-! ## The steps of a reset -/

variable (cfg : Config) in
inductive ResetCids.Step : Label → ResetCids → ResetCids → Prop where
  | start (stream : List Multihash) : Step .start (waiting stream) (reading stream [])
  | startFails (stream : List Multihash) (e : String) :
    Step .start (waiting stream) (returned (some e))
  | read (h : Multihash) (stream keys : List Multihash) :
    Step (.read h) (reading (h :: stream) keys) (receive cfg stream (keys ++ [h]))
  | closed (keys : List Multihash) : Step .closed (reading [] keys) (final (.check keys [] [] 0))
  | write (stream : List Multihash) (p q : AltPut) :
    Step .write (writing stream p) (writing stream q)
  | written (stream : List Multihash) (p : AltPut) :
    Step .write (writing stream p) (reading stream [])
  | writeFinal (p q : AltPut) : Step .write (final p) (final q)
  | writtenFinal (p : AltPut) : Step .write (final p) (ending none)
  | writeFails (err : String) (applied : DsKey → Bool) (stream : List Multihash) (p : AltPut) :
    Step (.writeFails err applied) (writing stream p) (ending (some err))
  | finalFails (err : String) (applied : DsKey → Bool) (p : AltPut) :
    Step (.writeFails err applied) (final p) (ending (some err))
  | cancel (stream keys : List Multihash) :
    Step .cancel (reading stream keys) (ending (some "context canceled"))
  | cleanup (err : Option String) : Step .cleanup (ending err) (returned err)

/-- A step of the worker leaves the reset alone and reads nothing; the others are steps of the
reset. -/
theorem World.reset_step (h : step cfg faults l w = some w') :
    w'.reset = w.reset ∧ l.reads = [] ∨ ResetCids.Step cfg l w.reset w'.reset := by
  cases move_of_step h with
  | put keys fault hidle | workFails keys rest seen b added hworker => exact .inl ⟨rfl, rfl⟩
  | work h => exact .inl ⟨reset_of_work h, rfl⟩
  | answer keys response hworker h | serve r response hidle h =>
    obtain ⟨-, -, -, hreset⟩ := serve_cases h
    exact .inl ⟨hreset, rfl⟩
  | start stream hidle hr h => exact .inr (hr ▸ .start stream)
  | startFails stream e hr => exact .inr (hr ▸ .startFails stream e)
  | read m stream keys hr => exact .inr (hr ▸ .read m stream keys)
  | closed keys hr => exact .inr (hr ▸ .closed keys)
  | write h =>
    unfold World.write at h
    split at h
    · next stream p hr =>
      rw [hr]
      obtain ⟨⟨p', c⟩, -, rfl⟩ := Option.map_eq_some_iff.mp h
      cases p' with
      | some q => exact .inr (.write stream p q)
      | none => exact .inr (.written stream p)
    · next p hr =>
      rw [hr]
      obtain ⟨⟨p', c⟩, -, rfl⟩ := Option.map_eq_some_iff.mp h
      cases p' with
      | some q => exact .inr (.writeFinal p q)
      | none => exact .inr (.writtenFinal p)
    · cases h
  | writeFails err applied h =>
    unfold World.writeFails at h
    split at h
    · next stream p hr =>
      rw [hr]
      cases h
      exact .inr (.writeFails err applied stream p)
    · next p hr =>
      rw [hr]
      cases h
      exact .inr (.finalFails err applied p)
    · cases h
  | cancel stream keys hr => exact .inr (hr ▸ .cancel stream keys)
  | cleanup err hidle hr => exact .inr (hr ▸ .cleanup err)

theorem World.returned_step {err : Option String} (hr : w.reset = .returned err)
    (h : step cfg faults l w = some w') : w'.reset = .returned err := by
  rcases reset_step h with ⟨heq, -⟩ | hstep
  · exact heq.trans hr
  · rw [hr] at hstep
    cases hstep

/-- What is left of the stream of a reset that has not failed. -/
def ResetCids.rest : ResetCids → Option (List Multihash)
  | waiting stream => some stream
  | reading stream _ => some stream
  | writing stream _ => some stream
  | final _ => some []
  | ending none => some []
  | ending (some _) => none
  | returned none => some []
  | returned (some _) => none

theorem ResetCids.rest_receive (cfg : Config) (stream keys : List Multihash) :
    (ResetCids.receive cfg stream keys).rest = some stream := by
  unfold ResetCids.receive
  split
  · rfl
  · rfl

/-- **Step.** What is read comes from the stream. -/
theorem World.rest_step {stream : List Multihash} (h : step cfg faults l w = some w')
    (hrest : w'.reset.rest = some stream) : w.reset.rest = some (l.reads ++ stream) := by
  rcases reset_step h with ⟨heq, hreads⟩ | hstep
  · rw [hreads, ← heq]
    exact hrest
  · generalize w.reset = r at hstep ⊢
    generalize w'.reset = r' at hstep hrest
    cases hstep with
    | read h stream' keys =>
      rw [ResetCids.rest_receive] at hrest
      cases hrest
      rfl
    | startFails stream' e | writeFails err applied stream' p | finalFails err applied p
    | cancel stream' keys => cases hrest
    | cleanup err =>
      cases err with
      | none => exact hrest
      | some e => cases hrest
    | _ => exact hrest

/-- **Run.** A reset that succeeds has read the whole stream. -/
theorem World.rest_run {ls : List Label} {stream : List Multihash}
    (h : Trace.run (step cfg faults) ls w = some w') (hrest : w'.reset.rest = some stream) :
    w.reset.rest = some (ls.flatMap Label.reads ++ stream) := by
  induction ls generalizing w with
  | nil => exact Option.some.inj h ▸ hrest
  | cons l ls ih =>
    obtain ⟨w1, hstep, hrun⟩ := Trace.run_cons.mp h
    rw [List.flatMap_cons, List.append_assoc]
    exact rest_step hstep (ih hrun)

end Steps

/-! ## A whole reset -/

/-- A reset is started, steps are taken, and it is cleaned up. -/
def resetRun (cfg : Config) (faults : CommitFaults) (during : List Label) : World → Option World :=
  Trace.run (World.step cfg faults) (.start :: (during ++ [.cleanup]))

section Run

variable {cfg faults w} {w' : World} {during : List Label}

structure World.Started (w : World) (stream : List Multihash) : Prop where
  altDs : w.session.caller.altDs = Datastore.empty
  altSize : w.session.caller.altSize = 0
  progress : w.session.caller.resetInProgress = true
  worker : w.worker = .idle
  reset : w.reset = .reading stream []

theorem World.start_cases (h : step cfg faults .start w = some w') :
    (∃ stream, w'.Started stream) ∨ ∃ e, w'.reset = .returned (some e) := by
  cases move_of_step h with
  | start stream hidle hr hok =>
    obtain ⟨-, -, hcaller⟩ := start_settles (H := fun _ => True) w.session trivial rfl rfl
    have hcaller' : (w.handle cfg faults .start).1.session.caller = _ := hcaller hok
    exact .inl ⟨stream, by rw [hcaller'], by rw [hcaller'], by rw [hcaller'], hidle, rfl⟩
  | startFails stream e hr => exact .inr ⟨e, rfl⟩

theorem World.cleanup_cases (h : step cfg faults .cleanup w = some w')
    (hdone : w'.reset = .returned none) :
    w.worker = .idle ∧ w.reset = .ending none ∧ w'.session.store = w.session.caller.altDs ∧
      w'.session.caller.size = w.session.caller.altSize := by
  cases move_of_step h with
  | cleanup err hidle hr =>
    cases hdone
    have htrue : ∀ c, EndsIn (fun _ => True) (empty cfg faults) c w.session.store
        fun _ _ _ => True := fun _ _ _ _ _ => ⟨trivial, trivial⟩
    obtain ⟨-, hstore, hsize, -⟩ := cleanup_ends htrue w.session trivial rfl rfl
    exact ⟨hidle, hr, hstore, hsize⟩

/-- A reset that succeeds is started, reads its stream, and is cleaned up while the worker is
idle. -/
theorem resetRun_cases (h : resetRun cfg faults during w = some w')
    (hdone : w'.reset = .returned none) :
    ∃ w1 w2, w1.Started (during.flatMap Label.reads) ∧
      Trace.run (World.step cfg faults) during w1 = some w2 ∧
      w2.worker = .idle ∧ w2.reset = .ending none ∧
      w'.session.store = w2.session.caller.altDs ∧
      w'.session.caller.size = w2.session.caller.altSize := by
  obtain ⟨w1, hstart, hrest⟩ := Trace.run_cons.mp h
  obtain ⟨w2, hduring, hcleanup⟩ := Trace.run_append.mp hrest
  rw [Trace.run_singleton] at hcleanup
  obtain ⟨hidle, hending, hstore, hsize⟩ := World.cleanup_cases hcleanup hdone
  have hread := World.rest_run hduring (show w2.reset.rest = some [] by rw [hending]; rfl)
  rw [List.append_nil] at hread
  refine ⟨w1, w2, ?_, hduring, hidle, hending, hstore, hsize⟩
  rcases World.start_cases hstart with ⟨stream, hstarted⟩ | ⟨e, hreturned⟩
  · rw [hstarted.reset] at hread
    exact Option.some.inj hread ▸ hstarted
  · rw [hreturned] at hread
    cases hread

end Run

end KadDht.Keystore
