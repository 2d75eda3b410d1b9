import KadDht.Lookup.Followup
import KadDht.Lookup.Progress

/-!
# Lookup — what `completed` says (`query.go`)

The result of a lookup says whether it was completed. This is not taken from the reason for which
the query was terminated, but computed again from its peers. So a query that was cancelled or
stopped may be reported as completed, if its peers look as if it were.

* **`truthful_iff`** — the runs of a lookup are truthful exactly if nobody interrupts its query.
-/

namespace KadDht.Lookup

open List LookupWithFollowup Trace

open LookupWithFollowup (Settled settled_step phase_of_settled settle_phase)

variable {φ : Type} {cfg : Config}

/-! ## What is promised -/

def LookupLabel.interrupts : LookupLabel φ → Bool
  | .query .cancel => true
  | .query (.check stop) => stop
  | .followUp stop => stop
  | .recv stop => stop
  | _ => false

/-- The query came to its end by itself, and every follow-up query returned before any
interruption. -/
structure Truthful (ls : List (LookupLabel φ)) (lookup : LookupWithFollowup φ) : Prop where
  reason : lookup.query.reason = some .starvation ∨ lookup.query.reason = some .completed
  followups : lookup.followups = []
  uninterrupted : ∀ before i reply after, ls = before ++ .answer i reply :: after →
    ∀ l ∈ before, l.interrupts = false

/-- Whether the caller may cancel, and whether the stop function may end the query. -/
structure Interruptions where
  cancels : Bool
  stops : Bool

/-- The steps that are possible then. The answers of the stop function after the query do not
matter. -/
def Interruptions.Allows (env : Interruptions) : LookupLabel φ → Prop
  | .query .cancel => env.cancels = true
  | .query (.check true) => env.stops = true
  | _ => True

def AlwaysTruthful (φ : Type) (cfg : Config) (seedPeers : List PeerId) (env : Interruptions) :
    Prop :=
  ∀ (ls : List (LookupLabel φ)) lookup res, (∀ l ∈ ls, env.Allows l) →
    Trace.run (LookupWithFollowup.step cfg) ls (.new cfg seedPeers) = some lookup →
    lookup.phase = .returned res → res.completed = true → Truthful ls lookup

/-! ## Queries that are not interrupted -/

structure Calm (q : Query φ) : Prop where
  ctxDone : q.ctxDone = false
  reason : q.terminated = true → q.reason = some .starvation ∨ q.reason = some .completed
  ended : q.Ended → q.terminated = true

theorem calm_step {q q' : Query φ} {l : Label φ} (h : Calm q) (hl : l.calm = true)
    (hstep : Query.step cfg l q = some q') : Calm q' := by
  have hdone : q'.ctxDone = false :=
    (ctxDone_step (Label.ne_cancel_of_calm hl) hstep).trans h.ctxDone
  refine ⟨hdone, ?_, ?_⟩
  · cases Query.move_of_step hstep with
    | done hloop hcancelled => cases h.ctxDone.symm.trans hcancelled
    | check hloop hround =>
      cases hround with
      | panics | cancelled | queries => exact h.reason
      | ends hready =>
        intro _
        split
        · next hterminated => exact h.reason hterminated
        · cases hready with
          | starved => exact .inl rfl
          | completed => exact .inr rfl
          | stopped hstop => simp [Label.calm, hstop] at hl
    | cancel | recv | recvPanics | spawn | spawnPanics | spawned | dial | dialFails | work | answer
    | write | wait => exact h.reason
  · cases Query.move_of_step hstep with
    | done hloop hcancelled => cases h.ctxDone.symm.trans hcancelled
    | check hloop hround =>
      cases hround with
      | panics | queries => exact fun hended => by simp [Query.Ended] at hended
      | cancelled hterminated => exact fun _ => hterminated
      | ends => exact fun _ => rfl
    | recv | recvPanics | spawn | spawnPanics | spawned =>
      exact fun hended => by simp [Query.Ended] at hended
    | cancel | dial | dialFails | work | answer | write => exact h.ended
    | wait hloop => exact fun _ => h.ended (.inl hloop)

/-! ## Lookups whose query is not interrupted -/

section Calm

variable {lookup lookup' : LookupWithFollowup φ} {l : LookupLabel φ} {env : Interruptions}
  {seedPeers : List PeerId}

theorem calm_of_allows {l : Label φ} (hcancels : env.cancels = false) (hstops : env.stops = false)
    (hl : env.Allows (.query l)) : l.calm = true := by
  cases l with
  | cancel => cases hcancels.symm.trans hl
  | check stop =>
    cases stop with
    | false => rfl
    | true => cases hstops.symm.trans hl
  | recv | done | spawn | dial | work | answer | write | wait => rfl

structure CalmLookup (lookup : LookupWithFollowup φ) : Prop where
  counted : lookup.Counted
  calm : Calm lookup.query
  returned : lookup.phase ≠ .query → lookup.phase ≠ .failed → lookup.query.loop = .returned

theorem calmLookup_new (seedPeers : List PeerId) :
    CalmLookup (.new cfg seedPeers : LookupWithFollowup φ) where
  counted := counted_new seedPeers
  calm := by
    refine ⟨rfl, nofun, ?_⟩
    rintro (h | h)
    · cases h
    · cases h
  returned := fun hquery hfailed => by
    by_cases hseeds : seedPeers = []
    · exact (hfailed (if_pos hseeds)).elim
    · exact (hquery (if_neg hseeds)).elim

theorem calmLookup_step (hcancels : env.cancels = false) (hstops : env.stops = false)
    (h : CalmLookup lookup) (hl : env.Allows l)
    (hstep : step cfg l lookup = some lookup') : CalmLookup lookup' := by
  have hcounted := counted_step h.counted hstep
  cases move_of_step hstep with
  | cancel => cases hcancels.symm.trans hl
  | query hphase hquery =>
    exact ⟨hcounted, calm_step h.calm (calm_of_allows hcancels hstops hl) hquery,
      fun hne => (hne hphase).elim⟩
  | panics hphase hloop | complete hphase hloop | result hphase hloop =>
    exact ⟨hcounted, h.calm, fun _ _ => hloop⟩
  | call | work | answer | send => exact ⟨hcounted, h.calm, h.returned⟩
  | skip hphase | followUp hphase | recv hphase =>
    refine ⟨hcounted, h.calm, fun _ _ => h.returned ?_ ?_⟩
    · rw [hphase]
      exact Phase.noConfusion
    · rw [hphase]
      exact Phase.noConfusion
  | recvStop hphase | recvLast hphase | done hphase | drain hphase =>
    refine ⟨hcounted, ?_, fun _ _ => ?_⟩
    · rw [settle_query]
      exact h.calm
    · rw [settle_query]
      refine h.returned ?_ ?_
      · rw [hphase]
        exact Phase.noConfusion
      · rw [hphase]
        exact Phase.noConfusion

/-- It will be reported as not completed. -/
def Incomplete (lookup : LookupWithFollowup φ) : Prop :=
  ∃ res, res.completed = false ∧ (lookup.phase = .returned res ∨ ∃ i, lookup.phase = .drain res i)

theorem incomplete_step (h : Incomplete lookup)
    (hstep : step cfg l lookup = some lookup') : Incomplete lookup' := by
  obtain ⟨res, hcompleted, hphase⟩ := h
  have hsettled : Settled lookup := by
    rcases hphase with hphase | ⟨i, hphase⟩
    · exact .inl ⟨res, hphase⟩
    · exact .inr ⟨res, i, hphase⟩
  rcases phase_of_settled hsettled hstep with hsame | ⟨res', i, hdrain, hphase'⟩
  · refine ⟨res, hcompleted, ?_⟩
    rw [hsame]
    exact hphase
  · obtain rfl : res' = res := by
      rcases hphase with hphase | ⟨j, hphase⟩
      · cases hdrain.symm.trans hphase
      · exact (Phase.drain.inj (hdrain.symm.trans hphase)).1
    exact ⟨res', hcompleted, hphase'.imp_right fun hphase' => ⟨i + 1, hphase'⟩⟩

theorem settled_of_interrupts (hcancels : env.cancels = false) (hstops : env.stops = false)
    (hl : env.Allows l) (hinterrupts : l.interrupts = true)
    (hstep : step cfg l lookup = some lookup') : Settled lookup' := by
  cases move_of_step hstep with
  | cancel => cases hcancels.symm.trans hl
  | @query l q hphase hquery =>
    have hcalm := calm_of_allows hcancels hstops hl
    cases l with
    | cancel => cases hcalm
    | check stop =>
      obtain rfl : stop = true := hinterrupts
      cases hcalm
    | recv | done | spawn | dial | work | answer | write | wait => cases hinterrupts
  | skip => exact .inl ⟨_, rfl⟩
  | recvStop =>
    exact (settle_phase _ _ _).imp (fun h => ⟨_, h⟩) fun h => ⟨_, _, h⟩
  | panics | complete | result | followUp | call | work | answer | send | recv | recvLast | done
  | drain => cases hinterrupts

/-- **A lookup whose query is not interrupted is truthful.** -/
theorem truthful_of_calm (hcancels : env.cancels = false)
    (hstops : env.stops = false) : AlwaysTruthful φ cfg seedPeers env := by
  intro ls lookup res hallows hrun hphase hcompleted
  have hcalm {before : List (LookupLabel φ)} {s : LookupWithFollowup φ}
      (hallows : ∀ l ∈ before, env.Allows l)
      (hrun : run (step cfg) before (.new cfg seedPeers) = some s) :
      CalmLookup s :=
    invariant (fun l hl _ _ h hstep => calmLookup_step hcancels hstops h (hallows l hl) hstep)
      (calmLookup_new seedPeers) hrun
  have hend := hcalm hallows hrun
  have hreturned := hend.returned (by rw [hphase]; exact Phase.noConfusion)
    (by rw [hphase]; exact Phase.noConfusion)
  refine ⟨hend.calm.reason (hend.calm.ended (.inr hreturned)),
    (hend.counted.over (by rw [hphase]; trivial)).2, ?_⟩
  rintro before i reply after rfl l hl
  rw [← Bool.not_eq_true]
  intro hinterrupts
  -- the interruption settles the lookup, so the goroutine answers while the rest is waited for
  obtain ⟨b1, b2, rfl⟩ := append_of_mem hl
  obtain ⟨s3, hbefore, hrest⟩ := run_append.mp hrun
  obtain ⟨s1, hb1, hb2⟩ := run_append.mp hbefore
  obtain ⟨s2, hinterrupt, hb2⟩ := run_cons.mp hb2
  obtain ⟨s4, hanswer, hafter⟩ := run_cons.mp hrest
  have hsettled : Settled s3 :=
    invariant (fun _ _ _ _ h hstep => settled_step h hstep)
      (settled_of_interrupts hcancels hstops
        (hallows l (mem_append_left _ (mem_append_right _ mem_cons_self)))
        hinterrupts hinterrupt) hb2
  have hcounted := (hcalm (fun l hl => hallows l (mem_append_left _ hl)) hbefore).counted
  have hincomplete : Incomplete s3 := by
    rcases hsettled with ⟨res', hphase'⟩ | ⟨res', j, hphase'⟩
    · -- no goroutine is left to answer
      cases move_of_step hanswer with
      | answer _ hi =>
        rw [(hcounted.over (by rw [hphase']; trivial)).2] at hi
        cases hi
    · exact ⟨res', (hcounted.drain res' j hphase').1, .inr ⟨j, hphase'⟩⟩
  obtain ⟨res', hfalse, hend'⟩ : Incomplete lookup :=
    invariant (fun _ _ _ _ h hstep => incomplete_step h hstep)
      (incomplete_step hincomplete hanswer) hafter
  rw [hphase] at hend'
  rcases hend' with heq | ⟨j, heq⟩
  · rw [← Phase.returned.inj heq, hcompleted] at hfalse
    cases hfalse
  · cases heq

end Calm

/-! ## Lookups without a result -/

/-- The lookup does not get to a result. -/
def NoResult (cfg : Config) (lookup : LookupWithFollowup φ) : Prop :=
  (lookup.phase = .query ∧ cfg.beta < 0) ∨ lookup.phase = .failed ∨
    ∃ e, lookup.phase = .panicked e

theorem noResult_step {lookup lookup' : LookupWithFollowup φ} {l : LookupLabel φ}
    (h : NoResult cfg lookup) (hstep : step cfg l lookup = some lookup') :
    NoResult cfg lookup' := by
  cases move_of_step hstep with
  | cancel | query | call | work | answer | send => exact h
  | panics => exact .inr (.inr ⟨_, rfl⟩)
  | complete hphase hloop hres | result hphase hloop hres =>
    rcases h with ⟨-, hbeta⟩ | hfailed | ⟨e, hpanicked⟩
    · cases hres.symm.trans (constructLookupResult_eq_error hbeta _)
    · cases hphase.symm.trans hfailed
    · cases hphase.symm.trans hpanicked
  | skip hphase | followUp hphase | recvStop hphase | recv hphase | recvLast hphase
  | done hphase | drain hphase => simp [NoResult, hphase] at h

theorem not_returned (hnone : seedPeers = [] ∨ cfg.beta < 0)
    {ls : List (LookupLabel φ)} {lookup : LookupWithFollowup φ}
    (hrun : Trace.run (step cfg) ls (.new cfg seedPeers) = some lookup)
    (res : LookupResult) : lookup.phase ≠ .returned res := by
  have hnew : NoResult cfg (.new cfg seedPeers : LookupWithFollowup φ) := by
    by_cases hseeds : seedPeers = []
    · exact .inr (.inl (if_pos hseeds))
    · exact .inl ⟨if_neg hseeds, hnone.resolve_left hseeds⟩
  have hend : NoResult cfg lookup :=
    invariant (fun _ _ _ _ h hstep => noResult_step h hstep) hnew hrun
  intro hphase
  simp [NoResult, hphase] at hend

/-! ## Lookups that are interrupted -/

section Interrupted

variable {lookup : LookupWithFollowup φ}

/-- The steps of the query are steps of the lookup. -/
theorem run_query {ls : List (Label φ)} {q : Query φ} (hphase : lookup.phase = .query)
    (hrun : Trace.run (Query.step cfg) ls lookup.query = some q) :
    Trace.run (step cfg) (ls.map .query) lookup =
      some { lookup with query := q } := by
  have hstep (l : Label φ) (_ : l ∈ ls) (q q' : Query φ) (hq : Query.step cfg l q = some q') :
      step cfg (.query l) { lookup with query := q } =
        some { lookup with query := q' } :=
    step_query hphase hq
  exact run_map hstep hrun

theorem completed_of_end (hbeta : 0 ≤ cfg.beta) {qp : QueryPeerset}
    (hend : isStarvationTermination qp = true ∨ isLookupTermination cfg qp = .ok true) :
    ∃ res, constructLookupResult cfg qp = .ok res ∧ res.completed = true := by
  obtain ⟨completed, hlookup⟩ := exists_isLookupTermination hbeta qp
  refine ⟨_, constructLookupResult_eq_ok hlookup, ?_⟩
  rcases hend with hstarved | hcompleted
  · show (completed || isStarvationTermination qp) = true
    rw [hstarved, Bool.or_true]
  · cases hlookup.symm.trans hcompleted
    rfl

def FollowsUp (q : Query φ) (res : LookupResult) (lookup : LookupWithFollowup φ) : Prop :=
  lookup.Counted ∧ lookup.query = q ∧
    ((∃ i, lookup.phase = .wait res i) ∨ lookup.phase = .returned res)

open LookupWithFollowup in
/-- A follow-up that is not interrupted goes on to its end: some goroutine or the reader of `doneCh`
can take a step, which lowers the rank. -/
theorem followsUp_progress [Inhabited φ] {q : Query φ} {res : LookupResult}
    (h : FollowsUp q res lookup) (hend : ¬ lookup.phase = .returned res) :
    ∃ l lookup', (∀ env : Interruptions, env.Allows l) ∧ step cfg l lookup = some lookup' ∧
      FollowsUp q res lookup' ∧ lookup'.followUpRank < lookup.followUpRank := by
  obtain ⟨hcounted, hquery, hphase⟩ := h
  obtain ⟨i, hwait⟩ := hphase.resolve_right hend
  obtain ⟨hsum, hlt⟩ := hcounted.sum i (by rw [hwait]; rfl)
  -- a goroutine goes on
  have hgoes (l : LookupLabel φ) {p : PeerId} {stage' : FollowupStage φ}
      (stage : FollowupStage φ) (hi : lookup.followups[0]? = some ⟨p, stage'⟩)
      (hl : ∀ env : Interruptions, env.Allows l)
      (hstep : step cfg l lookup = some (lookup.setStage 0 p stage))
      (hrank : stage.rank < stage'.rank) :
      ∃ l lookup', (∀ env : Interruptions, env.Allows l) ∧ step cfg l lookup = some lookup' ∧
        FollowsUp q res lookup' ∧ lookup'.followUpRank < lookup.followUpRank := by
    have hset := followUpRank_setStage hi stage
    exact ⟨l, _, hl, hstep, ⟨counted_step hcounted hstep, hquery, hphase⟩, by omega⟩
  cases hdone : lookup.doneCh with
  | zero =>
    -- there is nothing to read, so some goroutine has not written yet
    obtain ⟨⟨p, stage⟩, rest, hcons⟩ :=
      exists_cons_of_length_pos (show 0 < lookup.followups.length by omega)
    have hi : lookup.followups[0]? = some ⟨p, stage⟩ := by rw [hcons]; rfl
    cases stage with
    | start =>
      exact hgoes (.call 0 default) (.query default) hi (fun _ => trivial) (by rw [step, hi])
        (Nat.lt_succ_self 2)
    | query fn =>
      exact hgoes (.answer 0 none) .send hi (fun _ => trivial) (by rw [step, hi])
        (Nat.lt_succ_self 1)
    | send =>
      have hstep : step cfg (.send 0) lookup = some _ := hcounted.step_send hi
      refine ⟨.send 0, _, fun _ => trivial, hstep,
        ⟨counted_step hcounted hstep, hquery, hphase⟩, ?_⟩
      have herase : weight (fun f : Followup φ => f.stage.rank + 1) (lookup.followups.eraseIdx 0) +
          2 = weight (fun f => f.stage.rank + 1) lookup.followups := weight_eraseIdx _ hi
      show weight _ (lookup.followups.eraseIdx 0) + (lookup.doneCh + 1) < _
      unfold followUpRank
      omega
  | succ doneCh =>
    have hrank : weight (fun f : Followup φ => f.stage.rank + 1) lookup.followups + doneCh <
        lookup.followUpRank := by
      unfold followUpRank
      omega
    by_cases hlast : i + 1 < lookup.queryPeers.length
    · have hstep : step cfg (.recv false) lookup =
          some { lookup with doneCh := doneCh, phase := .wait res (i + 1) } := by
        rw [step, hwait, hdone]
        dsimp only
        rw [if_neg Bool.false_ne_true, if_pos hlast]
      exact ⟨.recv false, _, fun _ => trivial, hstep,
        ⟨counted_step hcounted hstep, hquery, .inl ⟨_, rfl⟩⟩, hrank⟩
    · have hstep : step cfg (.recv false) lookup = some
          { lookup with doneCh := doneCh, phase := .returned res, followUpDone := true } := by
        rw [step, hwait, hdone]
        dsimp only
        rw [if_neg Bool.false_ne_true, if_neg hlast, settle, if_neg fun hdrain => hlast hdrain.2]
      exact ⟨.recv false, _, fun _ => trivial, hstep,
        ⟨counted_step hcounted hstep, hquery, .inr rfl⟩, hrank⟩

open LookupWithFollowup in
/-- A lookup whose query has returned comes to its end, and is reported as completed if its peers
say so. -/
theorem exists_run_completed [Inhabited φ] (hbeta : 0 ≤ cfg.beta) (hcounted : lookup.Counted)
    (hphase : lookup.phase = .query) (hloop : lookup.query.loop = .returned)
    (hdone : lookup.query.ctxDone = false)
    (hend : isStarvationTermination lookup.query.queryPeers = true ∨
      isLookupTermination cfg lookup.query.queryPeers = .ok true) :
    ∃ ls lookup' res, (∀ l ∈ ls, ∀ env : Interruptions, env.Allows l) ∧
      Trace.run (step cfg) ls lookup = some lookup' ∧ lookup'.phase = .returned res ∧
      res.completed = true ∧ lookup'.query = lookup.query := by
  obtain ⟨res, hres, hcompleted⟩ := completed_of_end hbeta hend
  by_cases hpeers : res.queryPeers = []
  · have hstep : step cfg .result lookup = some { lookup with phase := .returned res } := by
      rw [step_result hphase hloop hres, if_pos hpeers]
    refine ⟨[.result], _, res, fun l hl _ => ?_, run_singleton.trans hstep, rfl, hcompleted, rfl⟩
    rw [mem_singleton.mp hl]
    trivial
  · have hresult : step cfg .result lookup =
        some { lookup with phase := .followUp res, queryPeers := res.queryPeers } := by
      rw [step_result hphase hloop hres, if_neg hpeers]
    have hfollow : step cfg (.followUp false)
        { lookup with phase := .followUp res, queryPeers := res.queryPeers } =
        some { lookup with
          phase := .wait res 0
          queryPeers := res.queryPeers
          followups := res.queryPeers.map (⟨·, .start⟩) } := by
      rw [step]
      dsimp only
      rw [if_neg (by rw [hdone]; simp)]
    obtain ⟨ls, lookup', hls, hrun, ⟨-, hquery, -⟩, hreturned⟩ :=
      exists_run followUpRank (fun s h hend => followsUp_progress h hend)
        (show FollowsUp lookup.query res _ from
          ⟨counted_step (counted_step hcounted hresult) hfollow, rfl, .inl ⟨0, rfl⟩⟩)
    refine ⟨.result :: .followUp false :: ls, lookup', res, fun l hl => ?_,
      run_cons.mpr ⟨_, hresult, run_cons.mpr ⟨_, hfollow, hrun⟩⟩, hreturned,
      hcompleted, hquery⟩
    rcases mem_cons.mp hl with rfl | hl
    · exact fun _ => trivial
    · rcases mem_cons.mp hl with rfl | hl
      · exact fun _ => trivial
      · exact hls l hl

/-- The caller cancels before the first update is read: the lookup has no peers, and is reported as
completed. -/
theorem exists_run_cancelled (hbeta : 0 ≤ cfg.beta) (hseeds : seedPeers ≠ []) :
    ∃ lookup : LookupWithFollowup φ, Trace.run (step cfg)
        [.query .cancel, .query .done, .query (.check false), .query .wait, .result]
        (.new cfg seedPeers) = some lookup ∧
      lookup.phase = .returned ⟨[], [], true, []⟩ ∧ lookup.query.reason = some .cancelled := by
  obtain ⟨q, hq, hloop, hpeers, hreason⟩ :
      ∃ q : Query φ, run (Query.step cfg) [.cancel, .done, .check false, .wait]
        (.new cfg seedPeers) = some q ∧ q.loop = .returned ∧ q.queryPeers = .new cfg.key ∧
        q.reason = some .cancelled := ⟨_, rfl, rfl, rfl, rfl⟩
  have hphase : (.new cfg seedPeers : LookupWithFollowup φ).phase = .query := if_neg hseeds
  obtain ⟨lookup, hrun, hquery, hphase⟩ : ∃ lookup : LookupWithFollowup φ,
      run (step cfg) [.query .cancel, .query .done, .query (.check false), .query .wait]
        (.new cfg seedPeers) = some lookup ∧ lookup.query = q ∧ lookup.phase = .query :=
    ⟨_, run_query hphase hq, rfl, hphase⟩
  subst hquery
  obtain ⟨completed, hlookup⟩ := exists_isLookupTermination hbeta (.new cfg.key)
  have hres : constructLookupResult cfg lookup.query.queryPeers = .ok ⟨[], [], true, []⟩ := by
    rw [hpeers, constructLookupResult_eq_ok hlookup]
    show Except.ok (LookupResult.mk (take _ []) (filterMap _ (take _ []))
      (completed || true) (take _ [])) = _
    rw [take_nil, Bool.or_true]
    rfl
  have hresult := step_result hphase hloop hres
  exact ⟨_, run_append.mpr ⟨lookup, hrun, run_singleton.trans hresult⟩, rfl, hreason⟩

theorem allows_of_calm {env : Interruptions} {l : Label φ} (hl : l.calm = true) :
    env.Allows (.query l) := by
  cases l with
  | cancel => cases hl
  | check stop =>
    cases stop with
    | false => trivial
    | true => cases hl
  | recv | done | spawn | dial | work | answer | write | wait => trivial

/-- A query in which all peers fail comes to its end. There the stop function returns true, and the
lookup is reported as completed. -/
theorem exists_run_stopped [Inhabited φ] (hbeta : 0 ≤ cfg.beta)
    (hseeds : seedPeers ≠ []) {env : Interruptions} (hstops : env.stops = true) :
    ∃ (ls : List (LookupLabel φ)) (lookup : LookupWithFollowup φ) (res : LookupResult),
      (∀ l ∈ ls, env.Allows l) ∧
      Trace.run (step cfg) ls (.new cfg seedPeers) = some lookup ∧
      lookup.phase = .returned res ∧ res.completed = true ∧
      lookup.query.reason = some .stopped := by
  obtain ⟨ls1, q1, hcalm1, hrun1, hfailing, ⟨cause, hloop⟩, hend⟩ :=
    exists_run_atEnd (φ := φ) hbeta seedPeers
  have hopen {q q' : Query φ} {ls : List (Label φ)} (hcalm : ∀ l ∈ ls, Label.calm l = true)
      (hrun : run (Query.step cfg) ls q = some q') (h : q.ctxDone = false) :
      q'.ctxDone = false :=
    invariant (P := fun q => q.ctxDone = false)
      (fun l hl _ _ h hstep =>
        (ctxDone_step (Label.ne_cancel_of_calm (hcalm l hl)) hstep).trans h) h hrun
  have hstop : Query.step cfg (.check true) q1 = some { q1 with
      terminated := true
      reason := some .stopped
      loop := .wait } := by
    rw [Query.step, hloop]
    have hround := Query.round cfg true cause q1
    dsimp only
    generalize q1.finishRound cfg true cause = q' at hround ⊢
    cases hround with
    | panics hstop => cases hstop
    | queries _ hstop => cases hstop
    | cancelled hterminated => cases hfailing.terminated.symm.trans hterminated
    | ends hready =>
      cases hready with
      | stopped => rw [hfailing.terminated, if_neg Bool.false_ne_true]
      | starved hstop => cases hstop
      | completed hstop => cases hstop
  obtain ⟨ls2, q2, hcalm2, hrun2, hreturned, hpeers, hreason⟩ :=
    exists_run_returned (inv_step hfailing.inv hstop).1 (.inl rfl)
  have hphase : (.new cfg seedPeers : LookupWithFollowup φ).phase = .query := if_neg hseeds
  have hquery : run (Query.step cfg) (ls1 ++ .check true :: ls2) (.new cfg seedPeers) =
      some q2 := run_append.mpr ⟨q1, hrun1, run_cons.mpr ⟨_, hstop, hrun2⟩⟩
  have hlookup := run_query hphase hquery
  have hopen1 : q1.ctxDone = false := hopen hcalm1 hrun1 rfl
  rw [← hpeers] at hend
  obtain ⟨ls3, lookup, res, hls3, hrun3, hres, hcompleted, hsame⟩ :=
    exists_run_completed hbeta (counted_run hlookup) hphase hreturned
      (hopen hcalm2 hrun2 hopen1) hend
  refine ⟨_, lookup, res, fun l hl => ?_, run_append.mpr ⟨_, hlookup, hrun3⟩, hres,
    hcompleted, by rw [hsame]; exact hreason⟩
  rcases mem_append.mp hl with hl | hl
  · obtain ⟨l, hmem, rfl⟩ := mem_map.mp hl
    rcases mem_append.mp hmem with hmem | hmem
    · exact allows_of_calm (hcalm1 l hmem)
    · rcases mem_cons.mp hmem with rfl | hmem
      · exact hstops
      · exact allows_of_calm (hcalm2 l hmem)
  · exact hls3 l hl env

end Interrupted

/-! ## What `completed` says -/

theorem Truthful.not_interrupted {ls : List (LookupLabel φ)} {lookup : LookupWithFollowup φ}
    (h : Truthful ls lookup) :
    lookup.query.reason ≠ some .cancelled ∧ lookup.query.reason ≠ some .stopped := by
  rcases h.reason with hreason | hreason
  · rw [hreason]
    exact ⟨nofun, nofun⟩
  · rw [hreason]
    exact ⟨nofun, nofun⟩

/-- **`completed` is truthful** in all runs of a lookup exactly if its query is not interrupted: the
caller does not cancel, and the stop function does not end the query. (Without peers to start with,
and with a negative `beta`, there is no result.) -/
theorem truthful_iff [Inhabited φ] (cfg : Config) (seedPeers : List PeerId)
    (env : Interruptions) :
    AlwaysTruthful φ cfg seedPeers env ↔
      seedPeers = [] ∨ cfg.beta < 0 ∨ env.cancels = false ∧ env.stops = false := by
  constructor
  · intro htruthful
    by_contra hnot
    simp only [not_or, not_and_or, Bool.not_eq_false] at hnot
    obtain ⟨hseeds, hbeta, hinterrupts⟩ := hnot
    rcases hinterrupts with hcancels | hstops
    · obtain ⟨lookup, hrun, hphase, hreason⟩ :=
        exists_run_cancelled (φ := φ) (Int.not_lt.mp hbeta) hseeds
      refine (htruthful _ lookup _ (fun l hl => ?_) hrun hphase rfl).not_interrupted.1 hreason
      simp only [mem_cons, not_mem_nil, or_false] at hl
      rcases hl with rfl | rfl | rfl | rfl | rfl
      · exact hcancels
      · trivial
      · trivial
      · trivial
      · trivial
    · obtain ⟨ls, lookup, res, hls, hrun, hphase, hcompleted, hreason⟩ :=
        exists_run_stopped (φ := φ) (Int.not_lt.mp hbeta) hseeds hstops
      exact (htruthful ls lookup res hls hrun hphase hcompleted).not_interrupted.2 hreason
  · intro hcases ls lookup res hls hrun hphase hcompleted
    rcases hcases with hseeds | hbeta | ⟨hcancels, hstops⟩
    · exact (not_returned (.inl hseeds) hrun res hphase).elim
    · exact (not_returned (.inr hbeta) hrun res hphase).elim
    · exact truthful_of_calm hcancels hstops ls lookup res hls hrun hphase hcompleted

/-- The context is cancelled at once. -/
theorem not_truthful_oneByOne : ¬ AlwaysTruthful Unit oneByOne [[2]] ⟨true, false⟩ := by
  intro htruthful
  obtain ⟨lookup, hrun, hphase, hreason⟩ :
      ∃ lookup : LookupWithFollowup Unit, run (step oneByOne)
          [.query .cancel, .query .done, .query (.check false), .query .wait, .result]
          (.new oneByOne [[2]]) = some lookup ∧
        lookup.phase = .returned ⟨[], [], true, []⟩ ∧ lookup.query.reason = some .cancelled :=
    ⟨_, rfl, rfl, rfl⟩
  refine (htruthful _ lookup _ (fun l hl => ?_) hrun hphase rfl).not_interrupted.1 hreason
  simp only [mem_cons, not_mem_nil, or_false] at hl
  rcases hl with rfl | rfl | rfl | rfl | rfl
  · rfl
  · trivial
  · trivial
  · trivial
  · trivial

end KadDht.Lookup
