import KadDht.Lookup.Safety

/-!
# Lookup — the follow-up queries (`query.go`)

`runLookupWithFollowup` runs a query. The peers of its result that were not queried are queried at
once, by one goroutine each, which writes to `doneCh` when the query function has returned. The
lookup reads `doneCh` until all have returned, or until it is stopped; if it is no longer completed
then, it reads `doneCh` for the remaining goroutines, too.

* **`Counted`**, **`counted_run`** — every goroutine is counted, and none is left at the end.
-/

namespace KadDht.Lookup

/-! ## Model -/

structure LookupResult where
  peers : List PeerId
  state : List PeerState
  completed : Bool
  closest : List PeerId
deriving DecidableEq

variable {φ χ : Type} (cfg : Config)

def constructLookupResult (qp : QueryPeerset) : Except Panic LookupResult := do
  let completed := (← isLookupTermination cfg qp) || isStarvationTermination qp
  match qp.getClosestNInStates cfg.bucketSize [.heard, .waiting, .queried],
      qp.getClosestNInStates cfg.bucketSize [.heard, .waiting, .queried, .unreachable] with
  | some peers, some closest => return ⟨peers, peers.filterMap qp.getState, completed, closest⟩
  | _, _ => .error .sliceBounds

/-- The peers that are queried in the follow-up: those of the result that were not queried. -/
def LookupResult.queryPeers (res : LookupResult) : List PeerId :=
  ((res.peers.zip res.state).filter fun e => e.2 = .heard ∨ e.2 = .waiting).map Prod.fst

inductive FollowupStage (φ : Type) where
  | start
  /-- The query function runs. -/
  | query (fn : φ)
  /-- It has returned, which is written to `doneCh`. -/
  | send
deriving DecidableEq

structure Followup (φ : Type) where
  peer : PeerId
  stage : FollowupStage φ
deriving DecidableEq

inductive Phase where
  /-- `runQuery` -/
  | query
  /-- There are peers to query in the follow-up. -/
  | followUp (res : LookupResult)
  /-- The goroutines are running, and so many have been read from `doneCh`. This is the index of the
  loop, too. -/
  | wait (res : LookupResult) (followupsCompleted : Nat)
  /-- The remaining goroutines are waited for. -/
  | drain (res : LookupResult) (followupsCompleted : Nat)
  | returned (res : LookupResult)
  /-- There were no peers to start with: `ErrLookupFailure`. -/
  | failed
  | panicked (e : Panic)
deriving DecidableEq

structure LookupWithFollowup (φ : Type) where
  query : Query φ
  phase : Phase
  queryPeers : List PeerId
  followups : List (Followup φ)
  /-- The number of elements in `doneCh`. It has room for one of each goroutine. -/
  doneCh : Nat
  /-- `cancelFollowUp` was called. -/
  followUpDone : Bool
deriving DecidableEq

/-- Which step is taken. The answers of the stop function are part of it. -/
inductive LookupLabel (φ : Type) where
  /-- A step of the query. The caller can cancel the context at any time. -/
  | query (l : Label φ)
  /-- The query has returned. -/
  | result
  | followUp (stop : Bool)
  /-- The goroutine calls the query function. -/
  | call (i : Nat) (fn : φ)
  | work (i : Nat) (fn : φ)
  /-- The query function returns; the result is not used. -/
  | answer (i : Nat) (reply : Option (List (PeerId × Bool)))
  | send (i : Nat)
  | recv (stop : Bool)
  /-- The lookup finds its context cancelled. -/
  | done
  | drain
deriving DecidableEq

namespace LookupWithFollowup

def new (seedPeers : List PeerId) : LookupWithFollowup φ where
  query := .new cfg seedPeers
  phase := if seedPeers = [] then .failed else .query
  queryPeers := []
  followups := []
  doneCh := 0
  followUpDone := false

/-- The lookup returns, or waits for the remaining goroutines first. -/
def settle (res : LookupResult) (followupsCompleted : Nat) (lookup : LookupWithFollowup φ) :
    LookupWithFollowup φ :=
  if ¬ res.completed ∧ followupsCompleted < lookup.queryPeers.length then
    { lookup with phase := .drain res followupsCompleted }
  else
    -- `cancelFollowUp` is deferred
    { lookup with phase := .returned res, followUpDone := true }

def setStage (i : Nat) (p : PeerId) (stage : FollowupStage φ) (lookup : LookupWithFollowup φ) :
    LookupWithFollowup φ :=
  { lookup with followups := lookup.followups.set i ⟨p, stage⟩ }

def step : LookupLabel φ → LookupWithFollowup φ → Option (LookupWithFollowup φ)
  | .query .cancel, lookup => some { lookup with query := { lookup.query with ctxDone := true } }
  | .query l, lookup =>
    match lookup.phase with
    | .query => (Query.step cfg l lookup.query).map fun q => { lookup with query := q }
    | _ => none
  | .result, lookup =>
    match lookup.phase, lookup.query.loop with
    | .query, .returned =>
      match constructLookupResult cfg lookup.query.queryPeers with
      | .error e => some { lookup with phase := .panicked e }
      | .ok res =>
        if res.queryPeers = [] then some { lookup with phase := .returned res }
        else some { lookup with phase := .followUp res, queryPeers := res.queryPeers }
    | _, _ => none
  | .followUp stop, lookup =>
    match lookup.phase with
    | .followUp res =>
      if lookup.query.ctxDone ∨ stop then
        some { lookup with phase := .returned { res with completed := false } }
      else
        some { lookup with
          phase := .wait res 0
          followups := lookup.queryPeers.map (⟨·, .start⟩) }
    | _ => none
  | .call i fn, lookup =>
    match lookup.followups[i]? with
    | some ⟨p, .start⟩ => some (lookup.setStage i p (.query fn))
    | _ => none
  | .work i fn, lookup =>
    match lookup.followups[i]? with
    | some ⟨p, .query _⟩ => some (lookup.setStage i p (.query fn))
    | _ => none
  | .answer i _, lookup =>
    match lookup.followups[i]? with
    | some ⟨p, .query _⟩ => some (lookup.setStage i p .send)
    | _ => none
  | .send i, lookup =>
    match lookup.followups[i]? with
    | some ⟨_, .send⟩ =>
      if lookup.doneCh < lookup.queryPeers.length then
        some { lookup with
          followups := lookup.followups.eraseIdx i
          doneCh := lookup.doneCh + 1 }
      else none
    | _ => none
  | .recv stop, lookup =>
    match lookup.phase, lookup.doneCh with
    | .wait res i, doneCh + 1 =>
      let lookup := { lookup with doneCh := doneCh }
      if stop then
        let res := if i + 1 < lookup.queryPeers.length then { res with completed := false } else res
        some ({ lookup with followUpDone := true }.settle res (i + 1))
      else if i + 1 < lookup.queryPeers.length then
        some { lookup with phase := .wait res (i + 1) }
      else some (lookup.settle res (i + 1))
    | _, _ => none
  | .done, lookup =>
    match lookup.phase with
    | .wait res i =>
      if lookup.query.ctxDone then
        some ({ lookup with followUpDone := true }.settle { res with completed := false } i)
      else none
    | _ => none
  | .drain, lookup =>
    match lookup.phase, lookup.doneCh with
    | .drain res i, doneCh + 1 => some ({ lookup with doneCh := doneCh }.settle res (i + 1))
    | _, _ => none

/-! ## What a step does -/

variable (lookup : LookupWithFollowup φ)

inductive Move : LookupLabel φ → LookupWithFollowup φ → Prop where
  | cancel : Move (.query .cancel) { lookup with query := { lookup.query with ctxDone := true } }
  | query {l : Label φ} {q : Query φ} (hphase : lookup.phase = .query)
    (hstep : Query.step cfg l lookup.query = some q) : Move (.query l) { lookup with query := q }
  | panics {e : Panic} (hphase : lookup.phase = .query) (hloop : lookup.query.loop = .returned)
    (hres : constructLookupResult cfg lookup.query.queryPeers = .error e) :
    Move .result { lookup with phase := .panicked e }
  | complete {res : LookupResult} (hphase : lookup.phase = .query)
    (hloop : lookup.query.loop = .returned)
    (hres : constructLookupResult cfg lookup.query.queryPeers = .ok res)
    (hpeers : res.queryPeers = []) : Move .result { lookup with phase := .returned res }
  | result {res : LookupResult} (hphase : lookup.phase = .query)
    (hloop : lookup.query.loop = .returned)
    (hres : constructLookupResult cfg lookup.query.queryPeers = .ok res)
    (hpeers : res.queryPeers ≠ []) :
    Move .result { lookup with phase := .followUp res, queryPeers := res.queryPeers }
  | skip {res : LookupResult} {stop : Bool} (hphase : lookup.phase = .followUp res)
    (hstop : lookup.query.ctxDone = true ∨ stop = true) :
    Move (.followUp stop) { lookup with phase := .returned { res with completed := false } }
  | followUp {res : LookupResult}
    (hphase : lookup.phase = .followUp res) (hdone : lookup.query.ctxDone = false) :
    Move (.followUp false)
      { lookup with phase := .wait res 0, followups := lookup.queryPeers.map (⟨·, .start⟩) }
  | call {i : Nat} {p : PeerId} (fn : φ) (hi : lookup.followups[i]? = some ⟨p, .start⟩) :
    Move (.call i fn) (lookup.setStage i p (.query fn))
  | work {i : Nat} {p : PeerId} {f : φ} (fn : φ) (hi : lookup.followups[i]? = some ⟨p, .query f⟩) :
    Move (.work i fn) (lookup.setStage i p (.query fn))
  | answer {i : Nat} {p : PeerId} {f : φ}
    (reply : Option (List (PeerId × Bool))) (hi : lookup.followups[i]? = some ⟨p, .query f⟩) :
    Move (.answer i reply) (lookup.setStage i p .send)
  | send {i : Nat} {p : PeerId} (hi : lookup.followups[i]? = some ⟨p, .send⟩)
    (hroom : lookup.doneCh < lookup.queryPeers.length) :
    Move (.send i)
      { lookup with followups := lookup.followups.eraseIdx i, doneCh := lookup.doneCh + 1 }
  | recvStop {res : LookupResult} {i doneCh : Nat}
    (hphase : lookup.phase = .wait res i) (hdone : lookup.doneCh = doneCh + 1) :
    Move (.recv true)
      ({ lookup with doneCh := doneCh, followUpDone := true }.settle
        (if i + 1 < lookup.queryPeers.length then { res with completed := false } else res) (i + 1))
  | recv {res : LookupResult} {i doneCh : Nat} (hphase : lookup.phase = .wait res i)
    (hdone : lookup.doneCh = doneCh + 1) (hlt : i + 1 < lookup.queryPeers.length) :
    Move (.recv false) { lookup with doneCh := doneCh, phase := .wait res (i + 1) }
  | recvLast {res : LookupResult} {i doneCh : Nat} (hphase : lookup.phase = .wait res i)
    (hdone : lookup.doneCh = doneCh + 1) (hlast : ¬ i + 1 < lookup.queryPeers.length) :
    Move (.recv false) ({ lookup with doneCh := doneCh }.settle res (i + 1))
  | done {res : LookupResult} {i : Nat} (hphase : lookup.phase = .wait res i)
    (hdone : lookup.query.ctxDone = true) :
    Move .done ({ lookup with followUpDone := true }.settle { res with completed := false } i)
  | drain {res : LookupResult} {i doneCh : Nat}
    (hphase : lookup.phase = .drain res i) (hdone : lookup.doneCh = doneCh + 1) :
    Move .drain ({ lookup with doneCh := doneCh }.settle res (i + 1))

variable {cfg lookup} {lookup' : LookupWithFollowup φ}

/-- **Everything a step can do.** -/
theorem move_of_step {l : LookupLabel φ} (h : step cfg l lookup = some lookup') :
    Move cfg lookup l lookup' := by
  cases l with
  | query l =>
    cases l with
    | cancel =>
      cases h
      exact .cancel
    | recv | done | check | spawn | dial | work | answer | write | wait =>
      rw [step] at h
      · split at h
        · next hphase =>
          obtain ⟨q, hstep, rfl⟩ := Option.map_eq_some_iff.mp h
          exact .query hphase hstep
        · cases h
      · exact nofun
  | result =>
    rw [step] at h
    split at h
    · split at h
      · cases h
        constructor <;> assumption
      · split at h <;> cases h <;> constructor <;> assumption
    · cases h
  | followUp stop =>
    rw [step] at h
    split at h
    · next res hphase =>
      split at h
      · next hstop =>
        cases h
        exact .skip hphase hstop
      · next hstop =>
        cases h
        obtain ⟨hdone, hfalse⟩ := not_or.mp hstop
        rw [Bool.not_eq_true] at hdone hfalse
        subst hfalse
        exact .followUp hphase hdone
    · cases h
  | recv stop =>
    rw [step] at h
    split at h
    · next res i doneCh hphase hdone =>
      cases stop with
      | true =>
        cases h
        exact .recvStop hphase hdone
      | false =>
        dsimp only at h
        rw [if_neg Bool.false_ne_true] at h
        split at h <;> cases h <;> constructor <;> assumption
    · cases h
  | call i fn | work i fn | answer i reply | drain =>
    rw [step] at h
    split at h
    · cases h
      constructor <;> assumption
    · cases h
  | send i | done =>
    rw [step] at h
    split at h
    · obtain ⟨hif, ⟨⟩⟩ := Option.ite_none_right_eq_some.mp h
      constructor <;> assumption
    · cases h

end LookupWithFollowup

/-! ## The result -/

section Result

variable {cfg}

theorem constructLookupResult_eq_error (hbeta : cfg.beta < 0) (qp : QueryPeerset) :
    constructLookupResult cfg qp = .error .sliceBounds := by
  have hlookup : isLookupTermination cfg qp = .error .sliceBounds :=
    isLookupTermination_eq_error_iff.mpr ⟨rfl, hbeta⟩
  rw [constructLookupResult, hlookup]
  rfl

theorem exists_isLookupTermination (hbeta : 0 ≤ cfg.beta) (qp : QueryPeerset) :
    ∃ completed, isLookupTermination cfg qp = .ok completed := by
  cases hlookup : isLookupTermination cfg qp with
  | error e =>
    have hneg := (isLookupTermination_eq_error_iff.mp hlookup).2
    omega
  | ok completed => exact ⟨completed, rfl⟩

theorem constructLookupResult_eq_ok {qp : QueryPeerset} {completed : Bool}
    (hlookup : isLookupTermination cfg qp = .ok completed) :
    constructLookupResult cfg qp = .ok
      ⟨(qp.inStates [.heard, .waiting, .queried]).take cfg.bucketSize,
        ((qp.inStates [.heard, .waiting, .queried]).take cfg.bucketSize).filterMap qp.getState,
        completed || isStarvationTermination qp,
        (qp.inStates [.heard, .waiting, .queried, .unreachable]).take cfg.bucketSize⟩ := by
  have hclosest (states : List PeerState) : qp.getClosestNInStates cfg.bucketSize states =
      some ((qp.inStates states).take cfg.bucketSize) := by
    cases h : qp.getClosestNInStates cfg.bucketSize states with
    | none =>
      have hneg := QueryPeerset.closest_eq_none_iff.mp h
      omega
    | some ps => rw [(QueryPeerset.closest_spec h).2, Int.toNat_natCast]
  rw [constructLookupResult, hlookup]
  rw [hclosest, hclosest]
  rfl

end Result

/-! ## No goroutine is left -/

/-- How many goroutines have been read from `doneCh`, while they are waited for. -/
def Phase.followupsCompleted : Phase → Option Nat
  | .wait _ i => some i
  | .drain _ i => some i
  | _ => none

/-- The steps that a goroutine has left, apart from those of its query function. -/
def FollowupStage.rank : FollowupStage φ → Nat
  | .start => 3
  | .query _ => 2
  | .send => 1

def Phase.Over : Phase → Prop
  | .returned _ => True
  | .failed => True
  | _ => False

namespace LookupWithFollowup

variable {cfg} {lookup lookup' : LookupWithFollowup φ}

/-- Every goroutine of the follow-up is running, or it can be read from `doneCh`, or it has been
read; those of the query have ended before. -/
structure Counted (lookup : LookupWithFollowup φ) : Prop where
  sum : ∀ i, lookup.phase.followupsCompleted = some i →
    lookup.followups.length + lookup.doneCh + i = lookup.queryPeers.length ∧
      i < lookup.queryPeers.length
  none : lookup.phase.followupsCompleted = none → lookup.followups = [] ∧ lookup.doneCh = 0
  queryPeers : ∀ res, lookup.phase = .followUp res → lookup.queryPeers ≠ []
  drain : ∀ res i, lookup.phase = .drain res i →
    res.completed = false ∧ lookup.followUpDone = true
  returned : lookup.query.loop = .returned → lookup.query.running = []
  running : lookup.phase ≠ .query → lookup.query.running = []

theorem counted_new (seedPeers : List PeerId) :
    Counted (new cfg seedPeers : LookupWithFollowup φ) := by
  have hphase : (new cfg seedPeers : LookupWithFollowup φ).phase = .failed ∨
      (new cfg seedPeers : LookupWithFollowup φ).phase = .query := by
    unfold new
    split
    · exact .inl rfl
    · exact .inr rfl
  refine ⟨fun i hi => ?_, fun _ => ⟨rfl, rfl⟩, fun res hres => ?_, fun res i hi => ?_,
    fun _ => rfl, fun _ => rfl⟩
  · rcases hphase with hphase | hphase <;> rw [hphase] at hi <;> cases hi
  · rcases hphase with hphase | hphase <;> rw [hphase] at hres <;> cases hres
  · rcases hphase with hphase | hphase <;> rw [hphase] at hi <;> cases hi

theorem Counted.atRest (hcount : lookup.phase.followupsCompleted = .none)
    (hpeers : ∀ res, lookup.phase = .followUp res → lookup.queryPeers ≠ [])
    (hnone : lookup.followups = [] ∧ lookup.doneCh = 0) (hrunning : lookup.query.running = []) :
    Counted lookup where
  sum := fun i hi => nomatch hcount.symm.trans hi
  none := fun _ => hnone
  queryPeers := hpeers
  drain := fun res i hi => by
    rw [hi] at hcount
    cases hcount
  returned := fun _ => hrunning
  running := fun _ => hrunning

variable {i : Nat} {p : PeerId} {l : LookupLabel φ}

theorem Counted.settle {res : LookupResult}
    (hsum : lookup.followups.length + lookup.doneCh + i = lookup.queryPeers.length)
    (hall : res.completed = true → i = lookup.queryPeers.length)
    (hdone : i < lookup.queryPeers.length → lookup.followUpDone = true)
    (hrunning : lookup.query.running = []) : Counted (lookup.settle res i) := by
  unfold LookupWithFollowup.settle
  split
  · next hdrain =>
    refine ⟨fun j hj => ?_, nofun, nofun, fun res' j hj => ?_, fun _ => hrunning, fun _ => hrunning⟩
    · cases hj
      exact ⟨hsum, hdrain.2⟩
    · cases hj
      exact ⟨eq_false_of_ne_true hdrain.1, hdone hdrain.2⟩
  · next hreturn =>
    have hi : lookup.queryPeers.length ≤ i := by
      rcases Classical.em (res.completed = true) with hcompleted | hcompleted
      · exact (hall hcompleted).ge
      · exact Nat.le_of_not_lt fun hlt => hreturn ⟨hcompleted, hlt⟩
    have hlength : lookup.followups.length = 0 := by omega
    refine ⟨nofun, fun _ => ⟨List.length_eq_zero_iff.mp hlength, ?_⟩,
      nofun, nofun, fun _ => hrunning,
      fun _ => hrunning⟩
    show lookup.doneCh = 0
    omega

theorem Counted.setStage (h : Counted lookup) {stage stage' : FollowupStage φ}
    (hi : lookup.followups[i]? = some ⟨p, stage'⟩) :
    Counted (lookup.setStage i p stage) where
  __ := h
  sum := fun j hj => by
    show (lookup.followups.set i ⟨p, stage⟩).length + _ + _ = _ ∧ _
    rw [List.length_set]
    exact h.sum j hj
  none := fun hnone => by
    rw [(h.none hnone).1] at hi
    cases hi

/-- **Every step** keeps the count. -/
theorem counted_step (h : Counted lookup) (hstep : step cfg l lookup = some lookup') :
    Counted lookup' := by
  have hwait {res : LookupResult} {i : Nat} (hphase : lookup.phase = .wait res i) :
      lookup.followups.length + lookup.doneCh + i = lookup.queryPeers.length ∧
        i < lookup.queryPeers.length ∧ lookup.query.running = [] := by
    have hsum := h.sum i (by rw [hphase]; rfl)
    exact ⟨hsum.1, hsum.2, h.running (by rw [hphase]; exact Phase.noConfusion)⟩
  have hquery (hphase : lookup.phase = .query) : lookup.followups = [] ∧ lookup.doneCh = 0 :=
    h.none (by rw [hphase]; rfl)
  cases move_of_step hstep with
  | cancel => exact { h with }
  | query hphase hquery =>
    exact ⟨h.sum, h.none, h.queryPeers, h.drain, Query.returned_step h.returned hquery,
      fun hne => (hne hphase).elim⟩
  | panics hphase hloop hres | complete hphase hloop hres hpeers =>
    exact .atRest rfl nofun (hquery hphase) (h.returned hloop)
  | @result res hphase hloop hres hpeers =>
    exact .atRest rfl (fun res hres => hpeers) (hquery hphase) (h.returned hloop)
  | skip hphase hstop =>
    exact .atRest rfl nofun (h.none (by rw [hphase]; rfl))
      (h.running (by rw [hphase]; exact Phase.noConfusion))
  | followUp hphase hdone =>
    have hnone := h.none (by rw [hphase]; rfl)
    refine ⟨fun i hi => ?_, nofun, nofun, nofun, h.returned,
      fun _ => h.running (by rw [hphase]; exact Phase.noConfusion)⟩
    cases hi
    refine ⟨?_, List.length_pos_iff.mpr (h.queryPeers _ hphase)⟩
    show (lookup.queryPeers.map _).length + lookup.doneCh + 0 = lookup.queryPeers.length
    rw [List.length_map, hnone.2, Nat.add_zero]
  | call fn hi | work fn hi | answer reply hi => exact h.setStage hi
  | @send i p hi hroom =>
    refine { h with sum := fun j hj => ?_, none := fun hnone => ?_ }
    · have hsum := h.sum j hj
      have hlt := (List.getElem?_eq_some_iff.mp hi).1
      refine ⟨?_, hsum.2⟩
      show (lookup.followups.eraseIdx i).length + (lookup.doneCh + 1) + j =
        lookup.queryPeers.length
      rw [List.length_eraseIdx_of_lt hlt]
      omega
    · rw [(h.none hnone).1] at hi
      cases hi
  | @recvStop res i doneCh hphase hdone =>
    obtain ⟨hsum, hlt, hrunning⟩ := hwait hphase
    refine .settle ?_ (fun hcompleted => ?_) (fun _ => rfl) hrunning
    · show lookup.followups.length + doneCh + (i + 1) = lookup.queryPeers.length
      omega
    · show i + 1 = lookup.queryPeers.length
      split at hcompleted
      · cases hcompleted
      · omega
  | @recv res i doneCh hphase hdone hlt =>
    obtain ⟨hsum, -, hrunning⟩ := hwait hphase
    refine ⟨fun j hj => ?_, nofun, nofun, nofun, h.returned, fun _ => hrunning⟩
    cases hj
    refine ⟨?_, hlt⟩
    show lookup.followups.length + doneCh + (i + 1) = lookup.queryPeers.length
    omega
  | @recvLast res i doneCh hphase hdone hlast =>
    obtain ⟨hsum, hlt, hrunning⟩ := hwait hphase
    have hi : i + 1 = lookup.queryPeers.length := by omega
    refine .settle ?_ (fun _ => hi) (fun hlt' => ?_) hrunning
    · show lookup.followups.length + doneCh + (i + 1) = lookup.queryPeers.length
      omega
    · exact (hlast hlt').elim
  | done hphase hdone =>
    obtain ⟨hsum, hlt, hrunning⟩ := hwait hphase
    exact .settle hsum nofun (fun _ => rfl) hrunning
  | @drain res i doneCh hphase hdone =>
    obtain ⟨hsum, hlt⟩ := h.sum i (by rw [hphase]; rfl)
    obtain ⟨hcompleted, hcancelled⟩ := h.drain _ _ hphase
    refine .settle ?_ (fun htrue => ?_) (fun _ => hcancelled)
      (h.running (by rw [hphase]; exact Phase.noConfusion))
    · show lookup.followups.length + doneCh + (i + 1) = lookup.queryPeers.length
      omega
    · cases hcompleted.symm.trans htrue

theorem Counted.over (h : Counted lookup) (hover : lookup.phase.Over) :
    lookup.query.running = [] ∧ lookup.followups = [] := by
  cases hphase : lookup.phase with
  | returned res | failed =>
    exact ⟨h.running (by rw [hphase]; exact Phase.noConfusion), (h.none (by rw [hphase]; rfl)).1⟩
  | query | followUp | wait | drain | panicked =>
    rw [hphase] at hover
    exact hover.elim

/-- A lookup that is over stays so. -/
theorem over_step (hover : lookup.phase.Over) (hstep : step cfg l lookup = some lookup') :
    lookup'.phase.Over := by
  cases move_of_step hstep with
  | cancel | query | call | work | answer | send => exact hover
  | panics hphase | complete hphase | result hphase | skip hphase | followUp hphase
  | recvStop hphase | recv hphase | recvLast hphase | done hphase | drain hphase =>
    rw [hphase] at hover
    exact hover.elim

def Settled (lookup : LookupWithFollowup φ) : Prop :=
  (∃ res, lookup.phase = .returned res) ∨ ∃ res i, lookup.phase = .drain res i

theorem settle_phase (res : LookupResult) (i : Nat) (lookup : LookupWithFollowup φ) :
    (lookup.settle res i).phase = .returned res ∨ (lookup.settle res i).phase = .drain res i := by
  unfold settle
  split
  · exact .inr rfl
  · exact .inl rfl

theorem phase_of_settled (h : Settled lookup) (hstep : step cfg l lookup = some lookup') :
    lookup'.phase = lookup.phase ∨ ∃ res i, lookup.phase = .drain res i ∧
      (lookup'.phase = .returned res ∨ lookup'.phase = .drain res (i + 1)) := by
  have hno {phase : Phase} (hphase : lookup.phase = phase) :
      (∃ res, phase = .returned res) ∨ ∃ res i, phase = .drain res i := hphase ▸ h
  cases move_of_step hstep with
  | cancel | query | call | work | answer | send => exact .inl rfl
  | panics hphase | complete hphase | result hphase | skip hphase | followUp hphase
  | recvStop hphase | recv hphase | recvLast hphase | done hphase => simpa using hno hphase
  | drain hphase hdone => exact .inr ⟨_, _, hphase, settle_phase _ _ _⟩

theorem settled_step (h : Settled lookup) (hstep : step cfg l lookup = some lookup') :
    Settled lookup' := by
  rcases phase_of_settled h hstep with hphase | ⟨res, i, -, hphase | hphase⟩
  · unfold Settled
    rw [hphase]
    exact h
  · exact .inl ⟨res, hphase⟩
  · exact .inr ⟨res, i + 1, hphase⟩

/-- A step of the query is a step of the lookup. -/
theorem step_query {l : Label φ} {q : Query φ} (hphase : lookup.phase = .query)
    (hstep : Query.step cfg l lookup.query = some q) :
    step cfg (.query l) lookup = some { lookup with query := q } := by
  cases l with
  | cancel =>
    cases hstep
    rfl
  | recv | done | check | spawn | dial | work | answer | write | wait =>
    rw [step, hphase]
    · rw [hstep]
      rfl
    · exact nofun

/-- The query has returned. -/
theorem step_result {res : LookupResult} (hphase : lookup.phase = .query)
    (hloop : lookup.query.loop = .returned)
    (hres : constructLookupResult cfg lookup.query.queryPeers = .ok res) :
    step cfg .result lookup =
      if res.queryPeers = [] then some { lookup with phase := .returned res }
      else some { lookup with phase := .followUp res, queryPeers := res.queryPeers } := by
  rw [step, hphase, hloop]
  rw [hres]

@[simp] theorem settle_query (res : LookupResult) (i : Nat) (lookup : LookupWithFollowup φ) :
    (lookup.settle res i).query = lookup.query := by
  unfold settle
  split
  · rfl
  · rfl

/-! ## The end of the follow-up -/

/-- The steps that are left, apart from those of the query functions: each goroutine calls the query
function, comes back, writes to `doneCh`, and is read. -/
def followUpRank (lookup : LookupWithFollowup φ) : Nat :=
  weight (fun f => f.stage.rank + 1) lookup.followups + lookup.doneCh

theorem followUpRank_setStage {stage' : FollowupStage φ}
    (hi : lookup.followups[i]? = some ⟨p, stage'⟩) (stage : FollowupStage φ) :
    (lookup.setStage i p stage).followUpRank + stage'.rank =
      lookup.followUpRank + stage.rank := by
  have hset := weight_set (fun f : Followup φ => f.stage.rank + 1) hi ⟨p, stage⟩
  show weight _ (lookup.followups.set i ⟨p, stage⟩) + lookup.doneCh + _ = _
  unfold followUpRank
  dsimp only at hset
  omega

theorem Counted.step_send (h : Counted lookup) (hi : lookup.followups[i]? = some ⟨p, .send⟩) :
    step cfg (.send i) lookup =
      some { lookup with
        followups := lookup.followups.eraseIdx i
        doneCh := lookup.doneCh + 1 } := by
  have hlt := (List.getElem?_eq_some_iff.mp hi).1
  have hroom : lookup.doneCh < lookup.queryPeers.length := by
    cases hcount : lookup.phase.followupsCompleted with
    | none =>
      rw [(h.none hcount).1] at hlt
      exact (Nat.not_lt_zero _ hlt).elim
    | some j =>
      have hsum := h.sum j hcount
      omega
  rw [step, hi]
  rw [if_pos hroom]

theorem counted_run {seedPeers : List PeerId} {ls : List (LookupLabel φ)}
    (hrun : Trace.run (step cfg) ls (new cfg seedPeers) = some lookup) : Counted lookup :=
  Trace.invariant (fun _ _ _ _ h hstep => counted_step h hstep) (counted_new seedPeers) hrun

end LookupWithFollowup

/-! ## The functions of a lookup -/

/-- A query function and a stop function, with a state that they share. What they do depends on it,
and it changes. -/
structure QueryFunc (φ χ : Type) where
  /-- Where a call of the query function starts. -/
  start : φ
  /-- The call for a peer goes on. -/
  work : PeerId → φ → φ → χ → Option χ
  /-- The call for a peer returns. The fourth argument is whether its context is cancelled. -/
  answer : PeerId → φ → Option (List (PeerId × Bool)) → Bool → χ → Option χ
  stop : χ → Bool

def LookupLabel.silent : LookupLabel φ → Bool
  | .query (.check _) => false
  | .query (.dial _ (some _)) => false
  | .query (.work _ _) => false
  | .query (.answer _ _) => false
  | .followUp _ => false
  | .call _ _ => false
  | .work _ _ => false
  | .answer _ _ => false
  | .recv _ => false
  | _ => true

namespace QueryFunc

variable [DecidableEq φ] (F : QueryFunc φ χ)

/-- What the functions do in a step of the lookup. The query function runs with the context of the
caller, and with one of its own in the follow-up. -/
def effect : LookupLabel φ → LookupWithFollowup φ → χ → Option χ
  | .query (.check stop), _, c => if stop = F.stop c then some c else none
  | .query (.dial _ (some fn)), _, c => if fn = F.start then some c else none
  | .query (.work i fn), lookup, c =>
    match lookup.query.running[i]? with
    | some ⟨p, .query f⟩ => F.work p f fn c
    | _ => none
  | .query (.answer i reply), lookup, c =>
    match lookup.query.running[i]? with
    | some ⟨p, .query f⟩ => F.answer p f reply lookup.query.ctxDone c
    | _ => none
  | .followUp stop, _, c => if stop = F.stop c then some c else none
  | .call _ fn, _, c => if fn = F.start then some c else none
  | .work i fn, lookup, c =>
    match lookup.followups[i]? with
    | some ⟨p, .query f⟩ => F.work p f fn c
    | _ => none
  | .answer i reply, lookup, c =>
    match lookup.followups[i]? with
    | some ⟨p, .query f⟩ => F.answer p f reply (lookup.query.ctxDone || lookup.followUpDone) c
    | _ => none
  | .recv stop, _, c => if stop = F.stop c then some c else none
  | _, _, c => some c

/-- The step that a label names, of a lookup with these functions. -/
def step (l : LookupLabel φ) (lookup : LookupWithFollowup φ) (c : χ) :
    Option (LookupWithFollowup φ × χ) :=
  match F.effect l lookup c, LookupWithFollowup.step cfg l lookup with
  | some c, some lookup => some (lookup, c)
  | _, _ => none

variable {F} {cfg} {l : LookupLabel φ} {lookup lookup' : LookupWithFollowup φ} {c c' : χ}

theorem step_eq_some_iff : F.step cfg l lookup c = some (lookup', c') ↔
    F.effect l lookup c = some c' ∧ LookupWithFollowup.step cfg l lookup = some lookup' := by
  unfold step
  cases F.effect l lookup c with
  | none => simp
  | some c =>
    cases LookupWithFollowup.step cfg l lookup with
    | none => simp
    | some lookup => simp [and_comm]

variable (F : QueryFunc φ χ) (lookup : LookupWithFollowup φ) (c : χ) in
inductive Acts : LookupLabel φ → χ → Prop where
  | check : Acts (.query (.check (F.stop c))) c
  | dial (i : Nat) : Acts (.query (.dial i (some F.start))) c
  | work {i : Nat} {p : PeerId} {f fn : φ} {c' : χ}
    (hi : lookup.query.running[i]? = some ⟨p, .query f⟩) (hwork : F.work p f fn c = some c') :
    Acts (.query (.work i fn)) c'
  | answer {i : Nat} {p : PeerId} {f : φ} {reply : Option (List (PeerId × Bool))} {c' : χ}
    (hi : lookup.query.running[i]? = some ⟨p, .query f⟩)
    (hanswer : F.answer p f reply lookup.query.ctxDone c = some c') :
    Acts (.query (.answer i reply)) c'
  | followUp : Acts (.followUp (F.stop c)) c
  | call (i : Nat) : Acts (.call i F.start) c
  | followupWork {i : Nat} {p : PeerId} {f fn : φ} {c' : χ}
    (hi : lookup.followups[i]? = some ⟨p, .query f⟩) (hwork : F.work p f fn c = some c') :
    Acts (.work i fn) c'
  | followupAnswer {i : Nat} {p : PeerId} {f : φ} {reply : Option (List (PeerId × Bool))}
    {c' : χ} (hi : lookup.followups[i]? = some ⟨p, .query f⟩)
    (hanswer : F.answer p f reply (lookup.query.ctxDone || lookup.followUpDone) c = some c') :
    Acts (.answer i reply) c'
  | recv : Acts (.recv (F.stop c)) c
  /-- None of them takes part. -/
  | silent {l : LookupLabel φ} (hl : l.silent = true) : Acts l c

/-- **Everything the functions can do.** -/
theorem acts_of_effect (h : F.effect l lookup c = some c') : Acts F lookup c l c' := by
  unfold effect at h
  split at h
  · obtain ⟨rfl, ⟨⟩⟩ := Option.ite_none_right_eq_some.mp h
    exact .check
  · obtain ⟨rfl, ⟨⟩⟩ := Option.ite_none_right_eq_some.mp h
    exact .dial _
  · split at h
    · next hi => exact .work hi h
    · cases h
  · split at h
    · next hi => exact .answer hi h
    · cases h
  · obtain ⟨rfl, ⟨⟩⟩ := Option.ite_none_right_eq_some.mp h
    exact .followUp
  · obtain ⟨rfl, ⟨⟩⟩ := Option.ite_none_right_eq_some.mp h
    exact .call _
  · split at h
    · next hi => exact .followupWork hi h
    · cases h
  · split at h
    · next hi => exact .followupAnswer hi h
    · cases h
  · obtain ⟨rfl, ⟨⟩⟩ := Option.ite_none_right_eq_some.mp h
    exact .recv
  · cases h
    refine .silent ?_
    unfold LookupLabel.silent
    split <;> simp_all

end QueryFunc

end KadDht.Lookup
