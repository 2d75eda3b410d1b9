import KadDht.Lookup.Safety

/-!
# Lookup — the query loop goes on (`query.go`)

A loop that reads updates is never alone: some goroutine is running, or an update can be read.
`stepsLeft` bounds the steps to the end of a query in which only so many more peers are queried.

* **`goesOn_run`** — there is no deadlock.
-/

namespace KadDht.Lookup

open QueryPeerset List Query

variable {φ : Type} {cfg : Config} {q q' : Query φ} {l : Label φ}

/-! ## Something to wait for -/

/-- A loop that reads updates or starts queries has something to wait for. -/
def Live (q : Query φ) : Prop :=
  (q.loop = .select ∨ ∃ cause qPeers, q.loop = .spawn cause qPeers) →
    q.running ≠ [] ∨ q.ch ≠ [] ∨ toSpawn q.loop ≠ []

theorem live_new (seedPeers : List PeerId) : Live (new cfg seedPeers : Query φ) :=
  fun _ => .inr (.inl (cons_ne_nil _ _))

/-- The loop is in none of the states in which it waits. -/
theorem live_of_not {loop : Loop} (hloop : q.loop = loop) (hselect : loop ≠ .select)
    (hspawn : ∀ cause qPeers, loop ≠ .spawn cause qPeers) : Live q := by
  rintro (h | ⟨cause, qPeers, h⟩)
  · exact (hselect (hloop.symm.trans h)).elim
  · exact (hspawn cause qPeers (hloop.symm.trans h)).elim

theorem live_of_round (h : Inv cfg q) {stop : Bool} {cause : Option PeerId}
    (hloop : q.loop = .check cause) (hround : Round cfg stop cause q q') : Live q' := by
  cases hround with
  | panics | ends | cancelled =>
    exact live_of_not rfl Loop.noConfusion fun _ _ => Loop.noConfusion
  | queries hterm hstop hstarved hcompleted hn =>
    intro _
    rcases h.link with hunread | hlinked
    · rcases hunread.live with hselect | htrue
      · cases hloop.symm.trans hselect
      · cases hterm.symm.trans htrue
    · by_contra hnone
      simp only [not_or, ne_eq, Decidable.not_not] at hnone
      obtain ⟨hrunning, hch, hspawn⟩ := hnone
      have hwaiting : q.queryPeers.numWaiting = 0 := by
        rw [hlinked.numWaiting, hrunning, hch]
        rfl
      have halpha := cfg.alpha_pos
      rcases take_eq_nil_iff.mp hspawn with hzero | hheard
      · unfold maxNumQueriesToSpawn at hzero
        omega
      · have hstarved' : isStarvationTermination q.queryPeers = true := by
          rw [isStarvationTermination, numHeard_eq, hheard, hwaiting]
          rfl
        cases hstarved.symm.trans hstarved'

theorem live_step (hinv : Inv cfg q) (h : Live q) (hstep : step cfg l q = some q') :
    Live q' := by
  have hset {i : Nat} {p : PeerId} {stage stage' : Stage φ}
      (hi : q.running[i]? = some ⟨p, stage'⟩) : Live (q.setStage i p stage) := by
    intro _
    refine .inl fun hnil => ?_
    have hlt := (List.getElem?_eq_some_iff.mp hi).1
    have hlen : (q.running.set i ⟨p, stage⟩).length = q.running.length := List.length_set
    rw [show q.running.set i ⟨p, stage⟩ = [] from hnil, List.length_nil] at hlen
    omega
  cases move_of_step hstep with
  | cancel => exact h
  | recv | recvPanics | wait | spawnPanics =>
    exact live_of_not rfl Loop.noConfusion fun _ _ => Loop.noConfusion
  | done =>
    exact live_of_not rfl Loop.noConfusion fun _ _ => Loop.noConfusion
  | check hloop hround => exact live_of_round hinv hloop hround
  | spawn hloop =>
    exact fun _ => .inl (List.append_ne_nil_of_right_ne_nil _ (List.cons_ne_nil _ _))
  | spawned hloop =>
    intro _
    have hlive := h (.inr ⟨_, _, hloop⟩)
    rw [hloop] at hlive
    exact hlive
  | dial fn hi | dialFails hi | work fn hi | answer reply hi => exact hset hi
  | write hi hroom =>
    exact fun _ => .inr (.inl (List.append_ne_nil_of_right_ne_nil _ (List.cons_ne_nil _ _)))

/-! ## No deadlock -/

/-- A goroutine is never held up. -/
theorem running_goesOn (h : Inv cfg q) {g : Running φ} (hi : q.running[0]? = some g) :
    ∃ l q', Label.calm l = true ∧ step cfg l q = some q' := by
  obtain ⟨p, stage⟩ := g
  cases stage with
  | dial => exact ⟨.dial 0 none, _, rfl, by rw [step, hi]⟩
  | query fn => exact ⟨.answer 0 none, _, rfl, by rw [step, hi]⟩
  | write update => exact ⟨.write 0, _, rfl, h.step_write hi⟩

/-- The loop goes on, or waits for a goroutine. -/
theorem loop_goesOn (stop : Bool) (h : Inv cfg q) (hlive : Live q) (hreturned : q.loop ≠ .returned)
    (hpanicked : ∀ e, q.loop ≠ .panicked e) :
    q.running ≠ [] ∨ ∃ l q', (l = .recv ∨ l = .check stop ∨ l = .spawn ∨ l = .wait) ∧
      step cfg l q = some q' := by
  cases hloop : q.loop with
  | returned => exact (hreturned hloop).elim
  | panicked e => exact (hpanicked e hloop).elim
  | wait =>
    by_cases hrunning : q.running = []
    · exact .inr ⟨.wait, { q with loop := .returned }, by simp, by rw [step, hloop, hrunning]⟩
    · exact .inl hrunning
  | check cause => exact .inr ⟨.check stop, _, by simp, by rw [step, hloop]⟩
  | spawn cause qPeers =>
    cases qPeers with
    | nil => exact .inr ⟨.spawn, _, by simp, by rw [step, hloop]⟩
    | cons p qPeers => exact .inr ⟨.spawn, _, by simp, h.step_spawn hloop⟩
  | select =>
    cases hch : q.ch with
    | cons up ch =>
      have hstep : (step cfg .recv q).isSome = true := by
        rw [step, hloop, hch]
        dsimp only
        split <;> rfl
      obtain ⟨q', hq'⟩ := Option.isSome_iff_exists.mp hstep
      exact .inr ⟨.recv, q', .inl rfl, hq'⟩
    | nil =>
      -- nothing is left to read, so that a goroutine is running
      exact .inl (by simpa [hloop, hch, toSpawn] using hlive (.inl hloop))

/-- **The query loop has no deadlock.** In every state of every run it has returned or panicked, or
somebody can take a step without the caller and the stop function. -/
theorem goesOn_run {seedPeers : List PeerId} {ls : List (Label φ)}
    (hrun : Trace.run (Query.step cfg) ls (.new cfg seedPeers) = some q) :
    q.loop = .returned ∨ (∃ e, q.loop = .panicked e) ∨
      ∃ l q', Label.calm l = true ∧ Query.step cfg l q = some q' := by
  obtain ⟨hinv, hlive⟩ := Trace.invariant (P := fun q => Inv cfg q ∧ Live q)
    (fun _ _ _ _ h hstep => ⟨(inv_step h.1 hstep).1, live_step h.1 h.2 hstep⟩)
    ⟨inv_new seedPeers, live_new seedPeers⟩ hrun
  by_cases hreturned : q.loop = .returned
  · exact .inl hreturned
  by_cases hpanicked : ∃ e, q.loop = .panicked e
  · exact .inr (.inl hpanicked)
  refine .inr (.inr ?_)
  rcases loop_goesOn false hinv hlive hreturned (not_exists.mp hpanicked) with
    hrunning | ⟨l, q', hl, hstep⟩
  · obtain ⟨g, rest, hcons⟩ := exists_cons_of_ne_nil hrunning
    exact running_goesOn hinv (by rw [hcons]; rfl)
  · refine ⟨l, q', ?_, hstep⟩
    rcases hl with rfl | rfl | rfl | rfl <;> rfl

theorem goesOn_run_oneByOne : ∃ q : Query Unit,
    Trace.run (Query.step oneByOne) [.recv, .check false] (.new oneByOne [[2]]) = some q ∧
      (q.loop = .returned ∨ (∃ e, q.loop = .panicked e) ∨
        ∃ l q', Label.calm l = true ∧ Query.step oneByOne l q = some q') :=
  Trace.exists_observed (fun _ => ()) () (by decide +kernel) fun _ hrun _ => goesOn_run hrun

/-! ## A query that has ended returns -/

/-- A step after the end of the loop changes neither the peers nor the reason. -/
theorem ended_keeps (h : q.Ended) (hstep : step cfg l q = some q') :
    q'.queryPeers = q.queryPeers ∧ q'.reason = q.reason := by
  cases move_of_step hstep with
  | recv hloop | recvPanics hloop | done hloop | check hloop | spawn hloop
  | spawnPanics hloop | spawned hloop => simp [Query.Ended, hloop] at h
  | cancel | dial | dialFails | work | answer | write | wait => exact ⟨rfl, rfl⟩

theorem ctxDone_step (hl : l ≠ .cancel) (hstep : step cfg l q = some q') :
    q'.ctxDone = q.ctxDone := by
  cases move_of_step hstep with
  | cancel => exact (hl rfl).elim
  | done => rw [terminate_eq]
  | check hloop hround =>
    cases hround with
    | panics | ends | cancelled | queries => rfl
  | recv | recvPanics | spawn | spawnPanics | spawned | dial | dialFails | work | answer | write
  | wait => rfl

/-- **A query that has ended returns**, without the caller and the stop function. -/
theorem exists_run_returned (h : Inv cfg q) (hended : q.Ended) :
    ∃ ls q', (∀ l ∈ ls, Label.calm l = true) ∧ Trace.run (step cfg) ls q = some q' ∧
      q'.loop = .returned ∧ q'.queryPeers = q.queryPeers ∧ q'.reason = q.reason := by
  have hprogress (s : Query φ)
      (hs : Inv cfg s ∧ s.Ended ∧ s.queryPeers = q.queryPeers ∧ s.reason = q.reason)
      (hfinal : ¬ s.loop = .returned) :
      ∃ l s', Label.calm l = true ∧ step cfg l s = some s' ∧
        (Inv cfg s' ∧ s'.Ended ∧ s'.queryPeers = q.queryPeers ∧ s'.reason = q.reason) ∧
        s'.rank < s.rank := by
    obtain ⟨hinv, hends, hpeers, hreason⟩ := hs
    obtain ⟨l, s', hl, hcalm, hstep⟩ := ended_goesOn hinv (hends.resolve_right hfinal)
    obtain ⟨hends', hrank⟩ := ended_step hends hstep
    obtain ⟨hpeers', hreason'⟩ := ended_keeps hends hstep
    rw [hl, if_pos rfl] at hrank
    exact ⟨l, s', hcalm, hstep,
      ⟨(inv_step hinv hstep).1, hends', hpeers'.trans hpeers, hreason'.trans hreason⟩, hrank⟩
  obtain ⟨ls, q', hls, hrun, ⟨-, -, hkeeps⟩, hreturned⟩ :=
    Trace.exists_run rank hprogress ⟨h, hended, rfl, rfl⟩
  exact ⟨ls, q', hls, hrun, hreturned, hkeeps⟩

/-! ## The steps that are left -/

def Loop.rank : Loop → Nat
  | .check _ => 6
  | .spawn _ _ => 5
  | .select => 4
  | .wait => 2
  | .returned => 1
  | .panicked _ => 0

/-- The number of steps to the end, if `n` more peers are queried: each one is dialed and answers,
and its update is written and read. -/
def stepsLeft (n : Nat) (running : List (Running φ)) (ch : List QueryUpdate) (loop : Loop) : Nat :=
  8 * n + weight (fun g => g.stage.rank + 4) running + 4 * ch.length + loop.rank

def Label.goroutine : Label φ → Bool
  | .dial _ _ => true
  | .answer _ _ => true
  | .write _ => true
  | _ => false

/-- A goroutine takes a step. -/
theorem stepsLeft_goroutine (n : Nat) (hl : l.goroutine = true)
    (hstep : step cfg l q = some q') :
    stepsLeft n q'.running q'.ch q'.loop < stepsLeft n q.running q.ch q.loop ∧
      q'.queryPeers = q.queryPeers ∧ q'.loop = q.loop := by
  have hset {i : Nat} {p : PeerId} {stage stage' : Stage φ}
      (hi : q.running[i]? = some ⟨p, stage⟩) (hless : stage'.rank < stage.rank) :
      stepsLeft n (q.running.set i ⟨p, stage'⟩) q.ch q.loop
        < stepsLeft n q.running q.ch q.loop := by
    have hweight := weight_set (fun g : Running φ => g.stage.rank + 4) hi ⟨p, stage'⟩
    unfold stepsLeft
    dsimp only at hweight
    omega
  cases move_of_step hstep with
  | dial fn hi => exact ⟨hset hi (by decide : 2 < 3), rfl, rfl⟩
  | dialFails hi => exact ⟨hset hi (by decide : 1 < 3), rfl, rfl⟩
  | answer reply hi => exact ⟨hset hi (by decide : 1 < 2), rfl, rfl⟩
  | @write i p update hi hroom =>
    have hweight : weight (fun g : Running φ => g.stage.rank + 4) (q.running.eraseIdx i) + 5 =
        weight (fun g => g.stage.rank + 4) q.running := weight_eraseIdx _ hi
    refine ⟨?_, rfl, rfl⟩
    show stepsLeft n (q.running.eraseIdx i) (q.ch ++ [update]) q.loop < _
    unfold stepsLeft
    rw [length_append, length_singleton]
    omega
  | cancel | recv | recvPanics | done | check | spawn | spawnPanics | spawned | work | wait =>
    cases hl

/-! ## A query in which every peer fails -/

/-- No peer was or will be reached. -/
structure Failing (cfg : Config) (q : Query φ) : Prop where
  inv : Inv cfg q
  live : Live q
  terminated : q.terminated = false
  loop : q.loop = .select ∨ (∃ cause, q.loop = .check cause) ∨
    ∃ cause qPeers, q.loop = .spawn cause qPeers
  running : ∀ g ∈ q.running, g.stage = .dial ∨ g.stage = .write (unreachableUpdate g.peer)
  ch : ∀ u ∈ q.ch, ∃ p, u = unreachableUpdate p

def AtEnd (cfg : Config) (q : Query φ) : Prop :=
  (∃ cause, q.loop = .check cause) ∧
    (isStarvationTermination q.queryPeers = true ∨ isLookupTermination cfg q.queryPeers = .ok true)

/-- The steps that are left when every peer fails: no other is heard of. -/
def Query.failRank (q : Query φ) : Nat :=
  stepsLeft (q.queryPeers.inStates [.heard]).length q.running q.ch q.loop

/-- A calm step brings the query closer to its end. -/
def FailsOn (cfg : Config) (q : Query φ) : Prop :=
  ∃ l q', Label.calm l = true ∧ Query.step cfg l q = some q' ∧ Failing cfg q' ∧
    q'.failRank < q.failRank

namespace Failing

variable (h : Failing cfg q)
include h

theorem linked : Linked q.queryPeers q.running q.ch := by
  refine h.inv.link.resolve_left fun hunread => ?_
  obtain ⟨seedPeers, hch⟩ := hunread.ch
  obtain ⟨p, ⟨⟩⟩ := h.ch _ (by rw [hch]; exact mem_singleton_self _)

/-- A calm step of a query in which every peer fails. -/
theorem next (hstep : step cfg l q = some q')
    (hterminated : q'.terminated = false)
    (hloop : q'.loop = .select ∨ (∃ cause, q'.loop = .check cause) ∨
      ∃ cause qPeers, q'.loop = .spawn cause qPeers)
    (hrunning : ∀ g ∈ q'.running, g.stage = .dial ∨ g.stage = .write (unreachableUpdate g.peer))
    (hch : ∀ u ∈ q'.ch, ∃ p, u = unreachableUpdate p) : Failing cfg q' :=
  ⟨(inv_step h.inv hstep).1, live_step h.inv h.live hstep, hterminated, hloop, hrunning, hch⟩

/-- A goroutine takes its next step. -/
theorem goroutine (hrunning : q.running ≠ []) : FailsOn cfg q := by
  obtain ⟨⟨p, stage⟩, rest, hcons⟩ := exists_cons_of_ne_nil hrunning
  have hi : q.running[0]? = some ⟨p, stage⟩ := by rw [hcons]; rfl
  have hmem : ⟨p, stage⟩ ∈ q.running := mem_of_getElem? hi
  rcases h.running _ hmem with hdial | hwrite
  · obtain rfl : stage = .dial := hdial
    have hstep : step cfg (.dial 0 none) q =
        some (q.setStage 0 p (.write (unreachableUpdate p))) := by
      rw [step, hi]
    refine ⟨_, _, rfl, hstep, h.next hstep h.terminated h.loop (fun g hg => ?_) h.ch,
      (stepsLeft_goroutine _ rfl hstep).1⟩
    rcases mem_or_eq_of_mem_set hg with hg | rfl
    · exact h.running g hg
    · exact .inr rfl
  · obtain rfl : stage = .write (unreachableUpdate p) := hwrite
    have hstep := h.inv.step_write hi
    refine ⟨_, _, rfl, hstep, h.next hstep h.terminated h.loop
      (fun g hg => h.running g (mem_of_mem_eraseIdx hg)) (fun u hu => ?_),
      (stepsLeft_goroutine _ rfl hstep).1⟩
    rcases mem_append.mp hu with hu | hu
    · exact h.ch u hu
    · exact ⟨p, mem_singleton.mp hu⟩

/-- An update is read: its peer is settled, and no other is heard of. -/
theorem recv (hloop : q.loop = .select) {up : QueryUpdate} {ch : List QueryUpdate}
    (hch : q.ch = up :: ch) : FailsOn cfg q := by
  have hmem : up ∈ q.ch := by
    rw [hch]
    exact mem_cons_self
  obtain ⟨p, rfl⟩ := h.ch up hmem
  have hwaiting : q.queryPeers.getState p = some .waiting :=
    (h.linked.mem_iff p).mp (mem_append_right _ (mem_map.mpr ⟨_, hmem, rfl⟩))
  have hself : p ≠ cfg.self := by
    rintro rfl
    cases h.inv.self_absent.symm.trans hwaiting
  obtain ⟨s, qp, hs, hok, hstates⟩ := updateState_of_reports (h.linked.ch _ hmem) hself hwaiting
  have hstep : step cfg .recv q =
      some { q with queryPeers := qp, ch := ch, loop := .check (some p) } := by
    rw [step, hloop, hch]
    dsimp only
    rw [h.terminated, hok]
    rfl
  refine ⟨_, _, rfl, hstep, h.next hstep h.terminated (.inr (.inl ⟨_, rfl⟩)) h.running
    (fun u hu => h.ch u (by rw [hch]; exact mem_cons_of_mem _ hu)), ?_⟩
  have hheard : (qp.inStates [.heard]).length = (q.queryPeers.inStates [.heard]).length := by
    refine length_inStates_congr fun r => ?_
    rw [hstates]
    split
    · next hr =>
      rw [show r = p from hr, hwaiting]
      refine iff_of_false (fun heq => ?_) fun heq => ?_
      · rcases hs with rfl | rfl
        · cases heq
        · cases heq
      · cases heq
    · rw [if_neg fun hr => not_mem_nil hr.1, Option.or_none]
  show stepsLeft _ q.running ch (.check (some p)) < stepsLeft _ q.running q.ch q.loop
  unfold stepsLeft
  rw [hheard, hch, hloop, length_cons]
  dsimp only [Loop.rank]
  omega

/-- The check goes on, or the query is at its end. -/
theorem check (hbeta : 0 ≤ cfg.beta) {cause : Option PeerId} (hloop : q.loop = .check cause)
    (hend : ¬ AtEnd cfg q) : FailsOn cfg q := by
  have hstep : step cfg (.check false) q = some (q.finishRound cfg false cause) := by
    rw [step, hloop]
  refine ⟨_, _, rfl, hstep, ?_⟩
  have hmax : 0 ≤ q.maxNumQueriesToSpawn cfg := h.inv.safe.maxNumQueriesToSpawn
  have hround := round cfg false cause q
  generalize q.finishRound cfg false cause = q' at hround hstep ⊢
  cases hround with
  | panics hstop hneg => omega
  | ends hready =>
    cases hready with
    | starved hstop hstarved => exact (hend ⟨⟨cause, hloop⟩, .inl hstarved⟩).elim
    | completed hstop hstarved hcompleted => exact (hend ⟨⟨cause, hloop⟩, .inr hcompleted⟩).elim
    | stopped hstop => cases hstop
  | cancelled hterminated => cases h.terminated.symm.trans hterminated
  | queries =>
    refine ⟨h.next hstep h.terminated (.inr (.inr ⟨_, _, rfl⟩)) h.running h.ch, ?_⟩
    show stepsLeft _ q.running q.ch (.spawn cause _) < stepsLeft _ q.running q.ch q.loop
    unfold stepsLeft
    rw [hloop]
    dsimp only [Loop.rank]
    omega

/-- A query is started, or all are. -/
theorem spawn {cause : Option PeerId} {qPeers : List PeerId}
    (hloop : q.loop = .spawn cause qPeers) : FailsOn cfg q := by
  cases qPeers with
  | nil =>
    have hstep : step cfg .spawn q = some { q with loop := .select } := by
      rw [step, hloop]
    refine ⟨_, _, rfl, hstep, h.next hstep h.terminated (.inl rfl) h.running h.ch, ?_⟩
    show stepsLeft _ q.running q.ch .select < stepsLeft _ q.running q.ch q.loop
    unfold stepsLeft
    rw [hloop]
    dsimp only [Loop.rank]
    omega
  | cons p qPeers =>
    have hheard : q.queryPeers.getState p = some .heard :=
      h.inv.spawn_heard p (by rw [hloop]; exact mem_cons_self)
    have hstep := h.inv.step_spawn hloop
    refine ⟨_, _, rfl, hstep, h.next hstep h.terminated (.inr (.inr ⟨_, _, rfl⟩))
      (fun g hg => ?_) h.ch, ?_⟩
    · rcases mem_append.mp hg with hg | hg
      · exact h.running g hg
      · exact .inl (by rw [mem_singleton.mp hg])
    · have hfewer := length_inStates_withState (t := .waiting) hheard PeerState.noConfusion
      show stepsLeft _ (q.running ++ [⟨p, .dial⟩]) q.ch (.spawn cause qPeers) <
        stepsLeft _ q.running q.ch q.loop
      unfold stepsLeft
      rw [weight_append, weight_cons, weight_nil, hloop]
      dsimp only [Loop.rank, Stage.rank]
      omega

/-- The query gets closer to its end. -/
theorem progress (hbeta : 0 ≤ cfg.beta) (hend : ¬ AtEnd cfg q) : FailsOn cfg q := by
  rcases h.loop with hloop | ⟨cause, hloop⟩ | ⟨cause, qPeers, hloop⟩
  · cases hch : q.ch with
    | cons up ch => exact h.recv hloop hch
    | nil =>
      refine h.goroutine ?_
      have hlive := h.live (.inl hloop)
      rw [hch, hloop] at hlive
      simpa [toSpawn] using hlive
  · exact h.check hbeta hloop hend
  · exact h.spawn hloop

end Failing

theorem failing_recv (seedPeers : List PeerId) :
    ∃ q : Query φ, step cfg .recv (.new cfg seedPeers) = some q ∧ Failing cfg q := by
  have hstep : step cfg .recv (.new cfg seedPeers : Query φ) = some
      { (new cfg seedPeers : Query φ) with
        queryPeers := hearPeers cfg cfg.self seedPeers (.new cfg.key)
        ch := []
        loop := .check (some cfg.self) } := rfl
  exact ⟨_, hstep, (inv_step (inv_new seedPeers) hstep).1,
    live_step (inv_new seedPeers) (live_new seedPeers) hstep, rfl, .inr (.inl ⟨_, rfl⟩),
    nofun, nofun⟩

/-- **A query can come to its end** without the caller and the stop function. -/
theorem exists_run_atEnd (hbeta : 0 ≤ cfg.beta) (seedPeers : List PeerId) :
    ∃ (ls : List (Label φ)) (q : Query φ), (∀ l ∈ ls, l.calm = true) ∧
      Trace.run (step cfg) ls (.new cfg seedPeers) = some q ∧ Failing cfg q ∧
      AtEnd cfg q := by
  obtain ⟨q0, hfirst, hfailing⟩ : ∃ q : Query φ,
      step cfg .recv (.new cfg seedPeers) = some q ∧ Failing cfg q := failing_recv seedPeers
  obtain ⟨ls, q, hcalm, hrun, hend⟩ := Trace.exists_run failRank
    (fun q h hend => Failing.progress h hbeta hend) hfailing
  refine ⟨.recv :: ls, q, fun l hl => ?_, Trace.run_cons.mpr ⟨q0, hfirst, hrun⟩, hend⟩
  rcases mem_cons.mp hl with rfl | hl
  · rfl
  · exact hcalm l hl

end KadDht.Lookup
