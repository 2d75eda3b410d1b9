import KadDht.Lib.Trace
import KadDht.Lookup.PeerSet

/-!
# Lookup — the query loop (`query.go`)

`query.run` is a loop that reads updates from a channel and starts a goroutine for each peer it
queries; the goroutine dials the peer, calls the query function and writes one update to the
channel, which has room for `alpha` updates. The loop, the goroutines and the context of the caller
take their steps in any order. What the network and the query function do is arbitrary, and so are
the answers of the stop function.

The state of a call of the query function has an arbitrary type: it belongs to the query function.
-/

namespace KadDht.Lookup

/-! ## Model -/

structure Config where
  self : PeerId
  /-- The target. -/
  key : Bytes
  alpha : Nat
  alpha_pos : 1 ≤ alpha
  beta : Int
  bucketSize : Nat

/-- `queryUpdate`, without the duration. -/
structure QueryUpdate where
  cause : PeerId
  queried : List PeerId
  heard : List PeerId
  unreachable : List PeerId
deriving DecidableEq

inductive Reason where
  | stopped
  | cancelled
  | starvation
  | completed
deriving DecidableEq

/-- The ways in which the loop panics. -/
inductive Panic where
  /-- "update should not be invoked after the logical lookup termination" -/
  | updateAfterTermination
  /-- "tried to transition to the queried state from state" -/
  | queriedFrom (s : PeerState)
  /-- "tried to transition to the unreachable state from state" -/
  | unreachableFrom (s : PeerState)
  /-- A peer that is not in the set. -/
  | notFound
  /-- A negative number of peers. -/
  | sliceBounds
deriving DecidableEq

inductive Loop where
  | select
  /-- An update has been read, or the context was found cancelled. -/
  | check (cause : Option PeerId)
  /-- The peers to start queries for. -/
  | spawn (cause : Option PeerId) (qPeers : List PeerId)
  /-- The loop has ended: `waitGroup.Wait`. -/
  | wait
  | returned
  | panicked (e : Panic)
deriving DecidableEq

inductive Stage (φ : Type) where
  | dial
  /-- The query function runs. -/
  | query (fn : φ)
  | write (update : QueryUpdate)
deriving DecidableEq

structure Running (φ : Type) where
  peer : PeerId
  stage : Stage φ
deriving DecidableEq

structure Query (φ : Type) where
  queryPeers : QueryPeerset
  terminated : Bool
  /-- The reason that is reported when the lookup is terminated. -/
  reason : Option Reason
  loop : Loop
  running : List (Running φ)
  /-- The updates in the channel, the next one first. -/
  ch : List QueryUpdate
  /-- The context of the caller is cancelled. -/
  ctxDone : Bool
  /-- The peers that queries were started for, as the lookup events report them. -/
  spawned : List PeerId
deriving DecidableEq

inductive Label (φ : Type) where
  /-- The caller cancels the context. -/
  | cancel
  /-- The loop reads an update. -/
  | recv
  /-- The loop finds its context cancelled. -/
  | done
  /-- The termination conditions are checked, with the answer of the stop function. -/
  | check (stop : Bool)
  /-- A query is started. -/
  | spawn
  /-- A peer is dialed; the query function starts in the given state. -/
  | dial (i : Nat) (fn : Option φ)
  /-- The query function goes on. -/
  | work (i : Nat) (fn : φ)
  /-- The query function returns peers, with what the filter says about each, or an error. -/
  | answer (i : Nat) (reply : Option (List (PeerId × Bool)))
  /-- A goroutine writes its update and ends. -/
  | write (i : Nat)
  /-- All goroutines have ended. -/
  | wait
deriving DecidableEq

variable {φ : Type} (cfg : Config)

/-- The peers that a peer is asked about next: the ones it named, without the node itself, and
without those that the filter drops unless it is the target. -/
def sawPeers (newPeers : List (PeerId × Bool)) : List PeerId :=
  (newPeers.filter fun next => next.1 ≠ cfg.self ∧ (next.1 = cfg.key ∨ next.2)).map Prod.fst

/-- The update for a peer that could not be dialed or queried. -/
def unreachableUpdate (p : PeerId) : QueryUpdate := ⟨p, [], [], [p]⟩

def report (p : PeerId) : Option (List (PeerId × Bool)) → QueryUpdate
  | none => unreachableUpdate p
  | some newPeers => ⟨p, [p], sawPeers cfg newPeers, []⟩

def hearPeers (cause : PeerId) (heard : List PeerId) (qp : QueryPeerset) : QueryPeerset :=
  heard.foldl (fun qp p => if p = cfg.self then qp else qp.tryAdd p cause) qp

def settlePeers (next : PeerState) (err : PeerState → Panic) :
    List PeerId → QueryPeerset → Except Panic QueryPeerset
  | [], qp => .ok qp
  | p :: ps, qp =>
    if p = cfg.self then settlePeers next err ps qp
    else
      match qp.getState p with
      | none => .error .notFound
      | some .waiting =>
        match qp.setState p next with
        | none => .error .notFound
        | some qp => settlePeers next err ps qp
      | some st => .error (err st)

def updateState (terminated : Bool) (up : QueryUpdate) (qp : QueryPeerset) :
    Except Panic QueryPeerset :=
  if terminated then .error .updateAfterTermination
  else do
    let qp ← settlePeers cfg .queried .queriedFrom up.queried (hearPeers cfg up.cause up.heard qp)
    settlePeers cfg .unreachable .unreachableFrom up.unreachable qp

def isStarvationTermination (qp : QueryPeerset) : Bool := qp.numHeard = 0 ∧ qp.numWaiting = 0

def isLookupTermination (qp : QueryPeerset) : Except Panic Bool :=
  match qp.getClosestNInStates cfg.beta [.heard, .waiting, .queried] with
  | none => .error .sliceBounds
  | some peers => .ok (peers.all fun p => qp.getState p = some .queried)

/-- `isReadyToTerminate`: the reason to terminate, or the peers to query next. -/
def isReadyToTerminate (stop : Bool) (nPeersToQuery : Int) (qp : QueryPeerset) :
    Except Panic (Reason ⊕ List PeerId) :=
  if stop then .ok (.inl .stopped)
  else if isStarvationTermination qp then .ok (.inl .starvation)
  else do
    if ← isLookupTermination cfg qp then return .inl .completed
    else
      match qp.getClosestNInStates nPeersToQuery [.heard] with
      | none => .error .sliceBounds
      | some peersToQuery => return .inr peersToQuery

namespace Query

/-- The state in which the loop starts: the peers of the routing table are the first update. -/
def new (seedPeers : List PeerId) : Query φ where
  queryPeers := .new cfg.key
  terminated := false
  reason := none
  loop := .select
  running := []
  ch := [⟨cfg.self, [], seedPeers, []⟩]
  ctxDone := false
  spawned := []

/-- `terminate`. The first reason counts. -/
def terminate (reason : Reason) (q : Query φ) : Query φ :=
  if q.terminated then q else { q with terminated := true, reason := some reason }

def maxNumQueriesToSpawn (q : Query φ) : Int := cfg.alpha - q.queryPeers.numWaiting

/-- The second half of a round: termination, or the next queries. -/
def finishRound (stop : Bool) (cause : Option PeerId) (q : Query φ) : Query φ :=
  match isReadyToTerminate cfg stop (q.maxNumQueriesToSpawn cfg) q.queryPeers with
  | .error e => { q with loop := .panicked e }
  | .ok (.inl reason) => { q.terminate reason with loop := .wait }
  | .ok (.inr qPeers) =>
    if q.terminated then { q with loop := .wait } else { q with loop := .spawn cause qPeers }

def spawnQuery (p : PeerId) (q : Query φ) : Option (Query φ) :=
  match q.queryPeers.getReferrer p, q.queryPeers.setState p .waiting with
  | some _, some qp =>
    some { q with
      queryPeers := qp
      running := q.running ++ [⟨p, .dial⟩]
      spawned := q.spawned ++ [p] }
  | _, _ => none

def setStage (i : Nat) (p : PeerId) (stage : Stage φ) (q : Query φ) : Query φ :=
  { q with running := q.running.set i ⟨p, stage⟩ }

def step : Label φ → Query φ → Option (Query φ)
  | .cancel, q => some { q with ctxDone := true }
  | .recv, q =>
    match q.loop, q.ch with
    | .select, up :: ch =>
      match updateState cfg q.terminated up q.queryPeers with
      | .error e => some { q with loop := .panicked e }
      | .ok qp => some { q with queryPeers := qp, ch := ch, loop := .check (some up.cause) }
    | _, _ => none
  | .done, q =>
    match q.loop with
    | .select =>
      if q.ctxDone then some { q.terminate .cancelled with loop := .check none } else none
    | _ => none
  | .check stop, q =>
    match q.loop with
    | .check cause => some (q.finishRound cfg stop cause)
    | _ => none
  | .spawn, q =>
    match q.loop with
    | .spawn cause (p :: qPeers) =>
      match q.spawnQuery p with
      | none => some { q with loop := .panicked .notFound }
      | some q => some { q with loop := .spawn cause qPeers }
    | .spawn _ [] => some { q with loop := .select }
    | _ => none
  | .dial i fn, q =>
    match q.running[i]? with
    | some ⟨p, .dial⟩ =>
      match fn with
      | some fn => some (q.setStage i p (.query fn))
      | none => some (q.setStage i p (.write (unreachableUpdate p)))
    | _ => none
  | .work i fn, q =>
    match q.running[i]? with
    | some ⟨p, .query _⟩ => some (q.setStage i p (.query fn))
    | _ => none
  | .answer i reply, q =>
    match q.running[i]? with
    | some ⟨p, .query _⟩ => some (q.setStage i p (.write (report cfg p reply)))
    | _ => none
  | .write i, q =>
    match q.running[i]? with
    | some ⟨_, .write update⟩ =>
      if q.ch.length < cfg.alpha then
        some { q with running := q.running.eraseIdx i, ch := q.ch ++ [update] }
      else none
    | _ => none
  | .wait, q =>
    match q.loop, q.running with
    | .wait, [] => some { q with loop := .returned }
    | _, _ => none

end Query

/-! ## What a step does -/

variable (cfg : Config) (stop : Bool) (n : Int) (qp : QueryPeerset) in
inductive Ready : Except Panic (Reason ⊕ List PeerId) → Prop where
  | stopped (hstop : stop = true) : Ready (.ok (.inl .stopped))
  | starved (hstop : stop = false) (hstarved : isStarvationTermination qp = true) :
    Ready (.ok (.inl .starvation))
  | completed (hstop : stop = false) (hstarved : isStarvationTermination qp = false)
    (hcompleted : isLookupTermination cfg qp = .ok true) : Ready (.ok (.inl .completed))
  | queries (hstop : stop = false) (hstarved : isStarvationTermination qp = false)
    (hcompleted : isLookupTermination cfg qp = .ok false) (hn : 0 ≤ n) :
    Ready (.ok (.inr ((qp.inStates [.heard]).take n.toNat)))
  | panics (hstop : stop = false) (hneg : cfg.beta < 0 ∨ n < 0) : Ready (.error .sliceBounds)

theorem isLookupTermination_eq_error_iff {cfg : Config} {qp : QueryPeerset} {e : Panic} :
    isLookupTermination cfg qp = .error e ↔ e = .sliceBounds ∧ cfg.beta < 0 := by
  unfold isLookupTermination
  cases hclosest : qp.getClosestNInStates cfg.beta [.heard, .waiting, .queried] with
  | none =>
    rw [QueryPeerset.closest_eq_none_iff] at hclosest
    simp [hclosest, eq_comm]
  | some peers =>
    have hpos := (QueryPeerset.closest_spec hclosest).1
    refine iff_of_false nofun fun h => ?_
    omega

theorem ready (cfg : Config) (stop : Bool) (n : Int) (qp : QueryPeerset) :
    Ready cfg stop n qp (isReadyToTerminate cfg stop n qp) := by
  unfold isReadyToTerminate
  cases stop with
  | true => exact .stopped rfl
  | false =>
    cases hstarved : isStarvationTermination qp with
    | true => exact .starved rfl hstarved
    | false =>
      cases hlookup : isLookupTermination cfg qp with
      | error e =>
        obtain ⟨rfl, hneg⟩ := isLookupTermination_eq_error_iff.mp hlookup
        exact .panics rfl (.inl hneg)
      | ok completed =>
        cases completed with
        | true => exact .completed rfl hstarved hlookup
        | false =>
          cases hclosest : qp.getClosestNInStates n [.heard] with
          | none =>
            exact .panics rfl (.inr (QueryPeerset.closest_eq_none_iff.mp hclosest))
          | some peers =>
            obtain ⟨hn, rfl⟩ := QueryPeerset.closest_spec hclosest
            exact .queries rfl hstarved hlookup hn

namespace Query

variable {cfg} {q q' : Query φ}

theorem terminate_eq (reason : Reason) (q : Query φ) :
    q.terminate reason = { q with
      terminated := true
      reason := if q.terminated then q.reason else some reason } := by
  obtain ⟨qp, terminated, r, loop, running, ch, ctxDone, spawned⟩ := q
  cases terminated with
  | true => rfl
  | false => rfl

variable (cfg : Config) (stop : Bool) (cause : Option PeerId) (q : Query φ) in
inductive Round : Query φ → Prop where
  | panics (hstop : stop = false) (hneg : cfg.beta < 0 ∨ q.maxNumQueriesToSpawn cfg < 0) :
    Round { q with loop := .panicked .sliceBounds }
  | ends {reason : Reason}
    (hready : Ready cfg stop (q.maxNumQueriesToSpawn cfg) q.queryPeers (.ok (.inl reason))) :
    Round
      { q with
        terminated := true
        reason := if q.terminated then q.reason else some reason
        loop := .wait }
  /-- The context was found cancelled. -/
  | cancelled (hterminated : q.terminated = true) : Round { q with loop := .wait }
  | queries (hterminated : q.terminated = false) (hstop : stop = false)
    (hstarved : isStarvationTermination q.queryPeers = false)
    (hcompleted : isLookupTermination cfg q.queryPeers = .ok false)
    (hn : 0 ≤ q.maxNumQueriesToSpawn cfg) :
    Round
      { q with
        loop := .spawn cause <|
          (q.queryPeers.inStates [.heard]).take (q.maxNumQueriesToSpawn cfg).toNat }

variable (cfg) in
theorem round (stop : Bool) (cause : Option PeerId) (q : Query φ) :
    Round cfg stop cause q (q.finishRound cfg stop cause) := by
  have hready := ready cfg stop (q.maxNumQueriesToSpawn cfg) q.queryPeers
  unfold finishRound
  cases hr : isReadyToTerminate cfg stop (q.maxNumQueriesToSpawn cfg) q.queryPeers with
  | error e =>
    rw [hr] at hready
    cases hready with
    | panics hstop hneg => exact .panics hstop hneg
  | ok next =>
    rw [hr] at hready
    cases next with
    | inl reason =>
      dsimp only
      rw [terminate_eq]
      exact .ends hready
    | inr qPeers =>
      dsimp only
      split
      · next hterminated => exact .cancelled hterminated
      · next hterminated =>
        cases hready with
        | queries hstop hstarved hcompleted hn =>
          exact .queries (eq_false_of_ne_true hterminated) hstop hstarved hcompleted hn

section

variable {stop : Bool} {cause : Option PeerId}

theorem Round.queryPeers (h : Round cfg stop cause q q') : q'.queryPeers = q.queryPeers := by
  cases h with
  | panics | ends | cancelled | queries => rfl

end

variable (cfg q) in
inductive Move : Label φ → Query φ → Prop where
  | cancel : Move .cancel { q with ctxDone := true }
  | recv {up : QueryUpdate} {ch : List QueryUpdate} {qp : QueryPeerset} (hloop : q.loop = .select)
    (hch : q.ch = up :: ch) (hupdate : updateState cfg q.terminated up q.queryPeers = .ok qp) :
    Move .recv { q with queryPeers := qp, ch := ch, loop := .check (some up.cause) }
  | recvPanics {up : QueryUpdate} {ch : List QueryUpdate} {e : Panic} (hloop : q.loop = .select)
    (hch : q.ch = up :: ch) (hupdate : updateState cfg q.terminated up q.queryPeers = .error e) :
    Move .recv { q with loop := .panicked e }
  | done (hloop : q.loop = .select) (hdone : q.ctxDone = true) :
    Move .done { q.terminate .cancelled with loop := .check none }
  | check {cause : Option PeerId} {stop : Bool} {q' : Query φ} (hloop : q.loop = .check cause)
    (hround : Round cfg stop cause q q') : Move (.check stop) q'
  | spawn {cause : Option PeerId} {p : PeerId} {qPeers : List PeerId}
    {qp : QueryPeerset} (hloop : q.loop = .spawn cause (p :: qPeers))
    (hset : q.queryPeers.setState p .waiting = some qp) :
    Move .spawn
      { q with
        queryPeers := qp
        running := q.running ++ [⟨p, .dial⟩]
        spawned := q.spawned ++ [p]
        loop := .spawn cause qPeers }
  | spawnPanics {cause : Option PeerId} {p : PeerId} {qPeers : List PeerId}
    (hloop : q.loop = .spawn cause (p :: qPeers)) (hnone : q.queryPeers.getState p = none) :
    Move .spawn { q with loop := .panicked .notFound }
  | spawned {cause : Option PeerId} (hloop : q.loop = .spawn cause []) :
    Move .spawn { q with loop := .select }
  | dial {i : Nat} {p : PeerId} (fn : φ) (hi : q.running[i]? = some ⟨p, .dial⟩) :
    Move (.dial i (some fn)) (q.setStage i p (.query fn))
  | dialFails {i : Nat} {p : PeerId} (hi : q.running[i]? = some ⟨p, .dial⟩) :
    Move (.dial i none) (q.setStage i p (.write (unreachableUpdate p)))
  | work {i : Nat} {p : PeerId} {f : φ} (fn : φ) (hi : q.running[i]? = some ⟨p, .query f⟩) :
    Move (.work i fn) (q.setStage i p (.query fn))
  | answer {i : Nat} {p : PeerId} {f : φ} (reply : Option (List (PeerId × Bool)))
    (hi : q.running[i]? = some ⟨p, .query f⟩) :
    Move (.answer i reply) (q.setStage i p (.write (report cfg p reply)))
  | write {i : Nat} {p : PeerId} {update : QueryUpdate}
    (hi : q.running[i]? = some ⟨p, .write update⟩) (hroom : q.ch.length < cfg.alpha) :
    Move (.write i) { q with running := q.running.eraseIdx i, ch := q.ch ++ [update] }
  | wait (hloop : q.loop = .wait) (hrunning : q.running = []) :
    Move .wait { q with loop := .returned }

theorem spawnQuery_cases (p : PeerId) (q : Query φ) :
    (q.queryPeers.getState p = none ∧ q.spawnQuery p = none) ∨
    ∃ qp, q.queryPeers.setState p .waiting = some qp ∧
      q.spawnQuery p = some { q with
        queryPeers := qp
        running := q.running ++ [⟨p, .dial⟩]
        spawned := q.spawned ++ [p] } := by
  unfold spawnQuery QueryPeerset.getReferrer QueryPeerset.setState QueryPeerset.getState
  cases q.queryPeers.find p with
  | none => exact .inl ⟨rfl, rfl⟩
  | some e => exact .inr ⟨_, rfl, rfl⟩

/-- **Everything a step can do.** -/
theorem move_of_step {l : Label φ} (h : step cfg l q = some q') : Move cfg q l q' := by
  cases l with
  | cancel =>
    cases h
    exact .cancel
  | check stop =>
    rw [step] at h
    split at h
    · next cause hloop =>
      cases h
      exact .check hloop (round cfg stop cause q)
    · cases h
  | work i fn | answer i reply | wait =>
    rw [step] at h
    split at h
    · cases h
      constructor <;> assumption
    · cases h
  | recv | done | write i =>
    rw [step] at h
    split at h
    · split at h <;> cases h <;> constructor <;> assumption
    · cases h
  | spawn =>
    rw [step] at h
    split at h
    · next cause p qPeers hloop =>
      rcases spawnQuery_cases p q with ⟨hnone, hspawn⟩ | ⟨qp, hset, hspawn⟩
      · rw [hspawn] at h
        cases h
        exact .spawnPanics hloop hnone
      · rw [hspawn] at h
        cases h
        exact .spawn hloop hset
    · next cause hloop =>
      cases h
      exact .spawned hloop
    · cases h
  | dial i fn =>
    rw [step] at h
    split at h
    · next p hi =>
      cases fn with
      | some fn =>
        cases h
        exact .dial fn hi
      | none =>
        cases h
        exact .dialFails hi
    · cases h

theorem returned_step {l : Label φ} (h : q.loop = .returned → q.running = [])
    (hstep : step cfg l q = some q') : q'.loop = .returned → q'.running = [] := by
  -- with the query returned, there is no goroutine to take a step
  have hnone {i : Nat} {g : Running φ} (hi : q.running[i]? = some g)
      (hloop : q.loop = .returned) : False := by
    rw [h hloop] at hi
    cases hi
  cases move_of_step hstep with
  | cancel => exact h
  | wait hloop hrunning => exact fun _ => hrunning
  | check hloop hround =>
    intro hreturned
    cases hround with
    | panics | ends | cancelled | queries => cases hreturned
  | recv | recvPanics | done | spawn | spawnPanics | spawned =>
    intro hreturned
    cases hreturned
  | dial fn hi | dialFails hi | work fn hi | answer reply hi | write hi hroom =>
    exact fun hloop => (hnone hi hloop).elim

end Query

end KadDht.Lookup
