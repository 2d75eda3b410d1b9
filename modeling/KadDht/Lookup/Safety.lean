import KadDht.Lib.Weight
import KadDht.Lookup.Run

/-!
# Lookup — the query loop is safe (`query.go`)

The peers in state `PeerWaiting` are those whose goroutine is running or whose update has not been
read. From this it follows that the loop finds the states that it expects, and that the channel
always has room for the updates that are still to come.

* **`Safe`**, **`safe_run`** — what holds in every state of every run.
-/

namespace KadDht.Lookup

open QueryPeerset List Query

variable {φ : Type} {cfg : Config} {qp : QueryPeerset}

/-! ## Hearing of peers, and settling them -/

theorem getState_hearPeers (cause : PeerId) (heard : List PeerId) (qp : QueryPeerset) (p : PeerId) :
    (hearPeers cfg cause heard qp).getState p =
      (qp.getState p).or (if p ∈ heard ∧ p ≠ cfg.self then some .heard else none) := by
  unfold hearPeers
  induction heard generalizing qp with
  | nil => simp
  | cons h heard ih =>
    rw [foldl_cons, ih]
    by_cases hself : h = cfg.self
    · rw [if_pos hself]
      by_cases hp : p = h
      · subst hp
        simp [hself]
      · simp [hp]
    · rw [if_neg hself, getState_tryAdd]
      by_cases hp : p = h
      · subst hp
        cases hs : qp.getState p with
        | none => simp [hself]
        | some s => simp
      · simp [hp]

theorem settlePeers_singleton {next : PeerState} {err : PeerState → Panic} {p : PeerId}
    (hself : p ≠ cfg.self) (hp : qp.getState p = some .waiting) :
    settlePeers cfg next err [p] qp = .ok (qp.withState p next) := by
  have hset : qp.setState p next = some (qp.withState p next) :=
    setState_eq_some_iff.mpr ⟨by rw [hp]; exact Option.some_ne_none _, rfl⟩
  rw [settlePeers, if_neg hself, hp]
  rw [hset]
  rfl

inductive Advances : Option PeerState → Option PeerState → Prop where
  | refl (s : Option PeerState) : Advances s s
  | hear : Advances none (some .heard)
  | query : Advances (some .heard) (some .waiting)
  | answer : Advances (some .waiting) (some .queried)
  | fail : Advances (some .waiting) (some .unreachable)

/-- What a goroutine writes about its peer: it was queried, or it was not reached. -/
def Reports (p : PeerId) (u : QueryUpdate) : Prop :=
  u.cause = p ∧ (u.queried = [p] ∧ u.unreachable = [] ∨
    u.queried = [] ∧ u.unreachable = [p])

variable (cfg) in
theorem reports_report (p : PeerId) (reply : Option (List (PeerId × Bool))) :
    Reports p (report cfg p reply) := by
  cases reply with
  | none => exact ⟨rfl, .inr ⟨rfl, rfl⟩⟩
  | some newPeers => exact ⟨rfl, .inl ⟨rfl, rfl⟩⟩

theorem updateState_of_reports {p : PeerId} {u : QueryUpdate}
    (hu : Reports p u) (hself : p ≠ cfg.self) (hp : qp.getState p = some .waiting) :
    ∃ s qp', (s = .queried ∨ s = .unreachable) ∧ updateState cfg false u qp = .ok qp' ∧
      ∀ r, qp'.getState r = if r = p then some s
        else (qp.getState r).or (if r ∈ u.heard ∧ r ≠ cfg.self then some .heard else none) := by
  have hheard : (hearPeers cfg u.cause u.heard qp).getState p = some .waiting := by
    rw [getState_hearPeers, hp]
    rfl
  have hstates (s : PeerState) (r : PeerId) :
      ((hearPeers cfg u.cause u.heard qp).withState p s).getState r = if r = p then some s
        else (qp.getState r).or (if r ∈ u.heard ∧ r ≠ cfg.self then some .heard else none) := by
    rw [getState_withState (by rw [hheard]; exact Option.some_ne_none _), getState_hearPeers]
  obtain ⟨-, ⟨hqueried, hunreachable⟩ | ⟨hqueried, hunreachable⟩⟩ := hu
  · refine ⟨.queried, _, .inl rfl, ?_, hstates .queried⟩
    unfold updateState
    rw [hqueried, hunreachable, settlePeers_singleton hself hheard]
    rfl
  · refine ⟨.unreachable, _, .inr rfl, ?_, hstates .unreachable⟩
    unfold updateState
    rw [hqueried, hunreachable]
    exact settlePeers_singleton hself hheard

/-! ## The waiting peers -/

/-- The peers that an update is still expected from: their goroutine is running, or the update has
not been read. -/
def pending (running : List (Running φ)) (ch : List QueryUpdate) : List PeerId :=
  running.map Running.peer ++ ch.map QueryUpdate.cause

/-- The waiting peers are those that an update is expected from. -/
structure Linked (qp : QueryPeerset) (running : List (Running φ)) (ch : List QueryUpdate) :
    Prop where
  nodup : (pending running ch).Nodup
  mem_iff : ∀ p, p ∈ pending running ch ↔ qp.getState p = some .waiting
  running : ∀ g ∈ running, ∀ u, g.stage = .write u → Reports g.peer u
  ch : ∀ u ∈ ch, Reports u.cause u

section Linked

variable {qp qp' : QueryPeerset} {running : List (Running φ)} {ch : List QueryUpdate} {p : PeerId}

theorem length_pending (running : List (Running φ)) (ch : List QueryUpdate) :
    (pending running ch).length = running.length + ch.length := by
  simp [pending]

theorem Linked.numWaiting (h : Linked qp running ch) :
    qp.numWaiting = running.length + ch.length := by
  have hperm : (qp.inStates [.waiting]).Perm (pending running ch) := by
    rw [perm_ext_iff_of_nodup (nodup_inStates _ _) h.nodup]
    intro p
    rw [mem_inStates, h.mem_iff]
    simp
  rw [numWaiting_eq, hperm.length_eq, length_pending]

/-- A query is started for a peer that is not waiting. -/
theorem Linked.spawn (h : Linked qp running ch) (hp : qp.getState p = some .heard) :
    Linked (qp.withState p .waiting) (running ++ [⟨p, .dial⟩]) ch := by
  have hperm : (pending (running ++ [⟨p, .dial⟩]) ch).Perm (p :: pending running ch) := by
    simp only [pending, map_append, map_cons, map_nil, append_assoc]
    exact perm_middle
  have hnew : p ∉ pending running ch := by
    rw [h.mem_iff, hp]
    exact nofun
  refine ⟨hperm.nodup_iff.mpr (nodup_cons.mpr ⟨hnew, h.nodup⟩), fun r => ?_,
    fun g hg u hu => ?_, h.ch⟩
  · rw [hperm.mem_iff, mem_cons, h.mem_iff,
      getState_withState (by rw [hp]; exact Option.some_ne_none _)]
    by_cases hr : r = p
    · simp [hr]
    · simp [hr]
  · rcases mem_append.mp hg with hg | hg
    · exact h.running g hg u hu
    · rw [mem_singleton.mp hg] at hu
      cases hu

/-- A goroutine gets to a stage; what it is to write is about its peer. -/
theorem Linked.setStage (h : Linked qp running ch) {i : Nat} {stage stage' : Stage φ}
    (hi : running[i]? = some ⟨p, stage'⟩) (hstage : ∀ u, stage = .write u → Reports p u) :
    Linked qp (running.set i ⟨p, stage⟩) ch := by
  have hmap : (running.set i ⟨p, stage⟩).map Running.peer = running.map Running.peer := by
    have hpeer : (running.map Running.peer)[i]? = some p := by
      rw [getElem?_map, hi]
      rfl
    obtain ⟨hlt, hget⟩ := List.getElem?_eq_some_iff.mp hpeer
    have hsame := set_getElem_self hlt
    rw [hget] at hsame
    rw [map_set, hsame]
  have hpending : pending (running.set i ⟨p, stage⟩) ch = pending running ch := by
    rw [pending, hmap, pending]
  refine ⟨hpending ▸ h.nodup, fun r => hpending ▸ h.mem_iff r, fun g' hg' u hu => ?_, h.ch⟩
  rcases mem_or_eq_of_mem_set hg' with hg' | rfl
  · exact h.running g' hg' u hu
  · exact hstage u hu

/-- An update is written. -/
theorem Linked.write (h : Linked qp running ch) {i : Nat} {u : QueryUpdate}
    (hi : running[i]? = some ⟨p, .write u⟩) :
    Linked qp (running.eraseIdx i) (ch ++ [u]) := by
  have hu := h.running _ (mem_of_getElem? hi) u rfl
  have hperm : (pending (running.eraseIdx i) (ch ++ [u])).Perm (pending running ch) := by
    have hrunning : running.Perm (⟨p, .write u⟩ :: running.eraseIdx i) := by
      obtain ⟨hlt, hget⟩ := List.getElem?_eq_some_iff.mp hi
      have hsplit := getElem_cons_eraseIdx_perm hlt
      rw [hget] at hsplit
      exact hsplit.symm
    refine List.Perm.trans ?_ ((hrunning.map Running.peer).append_right _).symm
    simp only [pending, map_append, map_cons, map_nil, hu.1, cons_append]
    rw [← append_assoc]
    exact perm_append_singleton _ _
  refine ⟨hperm.nodup_iff.mpr h.nodup, fun r => hperm.mem_iff.trans (h.mem_iff r),
    fun g hg => h.running g (mem_of_mem_eraseIdx hg), fun u' hu' => ?_⟩
  rcases mem_append.mp hu' with hu' | hu'
  · exact h.ch u' hu'
  · rw [mem_singleton.mp hu', hu.1]
    exact hu

theorem Linked.read {u : QueryUpdate} {s : PeerState} (h : Linked qp running (u :: ch))
    (hs : s = .queried ∨ s = .unreachable) {heard : PeerId → Prop} [DecidablePred heard]
    (hqp : ∀ r, qp'.getState r = if r = u.cause then some s
      else (qp.getState r).or (if heard r then some .heard else none)) :
    Linked qp' running ch := by
  have hperm : (pending running (u :: ch)).Perm (u.cause :: pending running ch) := perm_middle
  obtain ⟨hnot, hnodup⟩ := nodup_cons.mp (hperm.nodup_iff.mp h.nodup)
  refine ⟨hnodup, fun r => ?_, h.running, fun u' hu' => h.ch u' (mem_cons_of_mem u hu')⟩
  rw [hqp]
  by_cases hr : r = u.cause
  · subst hr
    rw [if_pos rfl]
    refine iff_of_false hnot fun heq => ?_
    rcases hs with rfl | rfl
    · cases heq
    · cases heq
  · have hmem : r ∈ pending running ch ↔ qp.getState r = some .waiting := by
      rw [← h.mem_iff, hperm.mem_iff, mem_cons]
      exact ⟨.inr, fun h => h.resolve_left hr⟩
    rw [if_neg hr, hmem]
    cases qp.getState r with
    | some t => rfl
    | none =>
      refine iff_of_false nofun fun heq => ?_
      split at heq
      · cases heq
      · cases heq

end Linked

/-! ## The invariant -/

def toSpawn : Loop → List PeerId
  | .spawn _ qPeers => qPeers
  | _ => []

/-- The first update has not been read. -/
structure Unread (cfg : Config) (q : Query φ) : Prop where
  queryPeers : q.queryPeers = .new cfg.key
  running : q.running = []
  ch : ∃ seedPeers, q.ch = [⟨cfg.self, [], seedPeers, []⟩]
  live : q.loop = .select ∨ q.terminated = true

structure Inv (cfg : Config) (q : Query φ) : Prop where
  self_absent : q.queryPeers.getState cfg.self = none
  link : Unread cfg q ∨ Linked q.queryPeers q.running q.ch
  /-- The channel has room for the updates of all goroutines, also of those that start next. -/
  room : q.running.length + q.ch.length + (toSpawn q.loop).length ≤ cfg.alpha
  spawn_nodup : (toSpawn q.loop).Nodup
  spawn_heard : ∀ p ∈ toSpawn q.loop, q.queryPeers.getState p = some .heard
  spawned_nodup : q.spawned.Nodup
  spawned_started : ∀ p ∈ q.spawned,
    q.queryPeers.getState p ≠ none ∧ q.queryPeers.getState p ≠ some .heard
  /-- Only a loop that is about to end is terminated. -/
  live : q.terminated = true → q.loop ≠ .select ∧ ∀ cause qPeers, q.loop ≠ .spawn cause qPeers
  panic : ∀ e, q.loop = .panicked e → e = .sliceBounds ∧ cfg.beta < 0

variable {q : Query φ}

theorem numWaiting_le (h : Inv cfg q) : q.queryPeers.numWaiting ≤ cfg.alpha := by
  rcases h.link with hunread | hlinked
  · rw [hunread.queryPeers]
    exact Nat.zero_le _
  · have hroom := h.room
    rw [hlinked.numWaiting]
    omega

theorem inv_new (seedPeers : List PeerId) : Inv cfg (new cfg seedPeers : Query φ) where
  self_absent := rfl
  link := .inl ⟨rfl, rfl, ⟨seedPeers, rfl⟩, .inl rfl⟩
  room := cfg.alpha_pos
  spawn_nodup := nodup_nil
  spawn_heard := nofun
  spawned_nodup := nodup_nil
  spawned_started := nofun
  live := nofun
  panic := nofun

namespace Inv

variable {q : Query φ} {qPeers : List PeerId}

theorem not_terminated (h : Inv cfg q)
    (hloop : q.loop = .select ∨ ∃ cause qPeers, q.loop = .spawn cause qPeers) :
    q.terminated = false := by
  rw [← Bool.not_eq_true]
  intro hterm
  obtain ⟨hselect, hspawn⟩ := h.live hterm
  rcases hloop with hloop | ⟨cause, qPeers, hloop⟩
  · exact hselect hloop
  · exact hspawn cause qPeers hloop

theorem linked_of_spawn (h : Inv cfg q) {cause : Option PeerId}
    (hloop : q.loop = .spawn cause qPeers) : Linked q.queryPeers q.running q.ch := by
  refine h.link.resolve_left fun hunread => ?_
  have hterm := h.not_terminated (.inr ⟨cause, qPeers, hloop⟩)
  rcases hunread.live with hselect | htrue
  · cases hloop.symm.trans hselect
  · cases hterm.symm.trans htrue

/-! ### Reading an update -/

/-- No update panics: the peer that it reports on is waiting, as it has been since its goroutine was
started. -/
theorem updateState_ok (h : Inv cfg q) {up : QueryUpdate} {ch : List QueryUpdate}
    (hloop : q.loop = .select) (hch : q.ch = up :: ch) :
    ∃ qp, updateState cfg q.terminated up q.queryPeers = .ok qp ∧
      Linked qp q.running ch ∧ qp.getState cfg.self = none ∧
      ∀ p, Advances (q.queryPeers.getState p) (qp.getState p) := by
  rw [h.not_terminated (.inl hloop)]
  rcases h.link with hunread | hlinked
  · -- the peers of the routing table
    obtain ⟨seedPeers, hseed⟩ := hunread.ch
    cases hch.symm.trans hseed
    have hstate (p : PeerId) :
        (hearPeers cfg cfg.self seedPeers (.new cfg.key)).getState p =
          if p ∈ seedPeers ∧ p ≠ cfg.self then some .heard else none := by
      rw [getState_hearPeers, getState_new, Option.none_or]
    rw [hunread.queryPeers, hunread.running]
    refine ⟨_, rfl, ⟨nodup_nil, fun p => ?_, nofun, nofun⟩, ?_, fun p => ?_⟩
    · rw [hstate]
      refine iff_of_false nofun fun heq => ?_
      split at heq
      · cases heq
      · cases heq
    · rw [hstate, if_neg fun hself => hself.2 rfl]
    · rw [hstate, getState_new]
      split
      · exact .hear
      · exact .refl none
  · rw [hch] at hlinked
    have hwaiting : q.queryPeers.getState up.cause = some .waiting :=
      (hlinked.mem_iff _).mp (mem_append_right _ mem_cons_self)
    have hself : up.cause ≠ cfg.self := by
      intro heq
      rw [heq, h.self_absent] at hwaiting
      cases hwaiting
    obtain ⟨s, qp, hs, hok, hstates⟩ :=
      updateState_of_reports (hlinked.ch up mem_cons_self) hself hwaiting
    refine ⟨qp, hok, hlinked.read hs hstates, ?_, fun p => ?_⟩
    · rw [hstates, if_neg hself.symm, h.self_absent, if_neg fun heard => heard.2 rfl]
      rfl
    · rw [hstates]
      split
      · next hp =>
        rw [hp, hwaiting]
        rcases hs with rfl | rfl
        · exact .answer
        · exact .fail
      · cases hp : q.queryPeers.getState p with
        | some t => exact .refl _
        | none =>
          split
          · exact .hear
          · exact .refl none

end Inv

theorem started_of_advances {s s' : Option PeerState} (h : Advances s s')
    (hs : s ≠ none ∧ s ≠ some .heard) : s' ≠ none ∧ s' ≠ some .heard := by
  cases h with
  | refl => exact hs
  | hear => exact (hs.1 rfl).elim
  | query => exact (hs.2 rfl).elim
  | answer | fail => exact ⟨nofun, nofun⟩

theorem toSpawn_eq_nil {loop : Loop} (h : ∀ cause qPeers, loop ≠ .spawn cause qPeers) :
    toSpawn loop = [] := by
  cases loop with
  | spawn cause qPeers => exact (h cause qPeers rfl).elim
  | _ => rfl

/-! ### The steps -/

namespace Inv

variable {q q' : Query φ}

variable (h : Inv cfg q)
include h

/-- The loop goes on to something else than starting queries. -/
theorem goOn (terminated : Bool) (reason : Option Reason) (ctxDone : Bool) {loop : Loop}
    (hspawn : ∀ cause qPeers, loop ≠ .spawn cause qPeers)
    (hunread : Unread cfg q → loop = .select ∨ terminated = true)
    (hlive : terminated = true → loop ≠ .select)
    (hpanic : ∀ e, loop = .panicked e → e = .sliceBounds ∧ cfg.beta < 0) :
    Inv cfg { q with
      terminated := terminated, reason := reason, ctxDone := ctxDone, loop := loop } where
  __ := h
  link := h.link.imp_left fun hu => { hu with live := hunread hu }
  room := by
    have hroom := h.room
    show q.running.length + q.ch.length + (toSpawn loop).length ≤ cfg.alpha
    rw [toSpawn_eq_nil hspawn, length_nil]
    omega
  spawn_nodup := by
    show (toSpawn loop).Nodup
    rw [toSpawn_eq_nil hspawn]
    exact nodup_nil
  spawn_heard := by
    show ∀ p ∈ toSpawn loop, _
    rw [toSpawn_eq_nil hspawn]
    exact nofun
  live := fun hterm => ⟨hlive hterm, hspawn⟩
  panic := hpanic

variable {i : Nat} {p : PeerId} {cause : Option PeerId}

/-- A goroutine goes on. -/
theorem setStage {stage stage' : Stage φ} (hi : q.running[i]? = some ⟨p, stage'⟩)
    (hstage : ∀ u, stage = .write u → Reports p u) : Inv cfg (q.setStage i p stage) where
  __ := h
  link := by
    refine .inr ((h.link.resolve_left fun hu => ?_).setStage hi hstage)
    rw [hu.running] at hi
    cases hi
  room := by
    show (q.running.set i ⟨p, stage⟩).length + _ + _ ≤ _
    rw [length_set]
    exact h.room

/-- An update is written. -/
theorem write {update : QueryUpdate} (hi : q.running[i]? = some ⟨p, .write update⟩) :
    Inv cfg { q with running := q.running.eraseIdx i, ch := q.ch ++ [update] } where
  __ := h
  link := by
    refine .inr ((h.link.resolve_left fun hu => ?_).write hi)
    rw [hu.running] at hi
    cases hi
  room := by
    have hroom := h.room
    have hlt := (List.getElem?_eq_some_iff.mp hi).1
    show (q.running.eraseIdx i).length + (q.ch ++ [update]).length + (toSpawn q.loop).length ≤ _
    rw [List.length_eraseIdx_of_lt hlt, List.length_append, List.length_singleton]
    omega

/-- There is room for it. -/
theorem step_write {update : QueryUpdate} (hi : q.running[i]? = some ⟨p, .write update⟩) :
    step cfg (.write i) q =
      some { q with running := q.running.eraseIdx i, ch := q.ch ++ [update] } := by
  have hroom := h.room
  have hlt := (List.getElem?_eq_some_iff.mp hi).1
  rw [step, hi]
  dsimp only
  rw [if_pos (by omega)]

/-- An update is read. -/
theorem recv {up : QueryUpdate} {ch : List QueryUpdate}
    (hloop : q.loop = .select) (hch : q.ch = up :: ch)
    (hupdate : updateState cfg q.terminated up q.queryPeers = .ok qp) :
    Inv cfg { q with queryPeers := qp, ch := ch, loop := .check (some up.cause) } := by
  obtain ⟨qp', hok, hlinked, hself, hadvances⟩ := h.updateState_ok hloop hch
  cases hupdate.symm.trans hok
  refine ⟨hself, .inr hlinked, ?_, nodup_nil, nofun, h.spawned_nodup,
    fun p hp => started_of_advances (hadvances p) (h.spawned_started p hp), fun _ => ?_,
    nofun⟩
  · have hroom := h.room
    rw [hch, hloop, length_cons] at hroom
    show q.running.length + ch.length + 0 ≤ _
    omega
  · exact ⟨nofun, nofun⟩

/-- The next query can be started. -/
theorem step_spawn (hloop : q.loop = .spawn cause (p :: qPeers)) :
    step cfg .spawn q = some { q with
      queryPeers := q.queryPeers.withState p .waiting
      running := q.running ++ [⟨p, .dial⟩]
      spawned := q.spawned ++ [p]
      loop := .spawn cause qPeers } := by
  have hheard : q.queryPeers.getState p = some .heard :=
    h.spawn_heard p (by rw [hloop]; exact mem_cons_self)
  rw [step, hloop]
  dsimp only
  rcases spawnQuery_cases p q with ⟨hnone, -⟩ | ⟨qp, hset, hspawn⟩
  · cases hnone.symm.trans hheard
  · obtain ⟨-, rfl⟩ := setState_eq_some_iff.mp hset
    rw [hspawn]

/-- A query is started. -/
theorem spawn (hloop : q.loop = .spawn cause (p :: qPeers)) :
    Inv cfg { q with
      queryPeers := q.queryPeers.withState p .waiting
      running := q.running ++ [⟨p, .dial⟩]
      spawned := q.spawned ++ [p]
      loop := .spawn cause qPeers } := by
  have htodo : toSpawn q.loop = p :: qPeers := by
    rw [hloop]
    rfl
  have hheard := h.spawn_heard
  have hnodup := h.spawn_nodup
  have hroom := h.room
  rw [htodo] at hheard hnodup hroom
  have hp : q.queryPeers.getState p = some .heard := hheard p mem_cons_self
  have hstate (r : PeerId) : (q.queryPeers.withState p .waiting).getState r =
      if r = p then some .waiting else q.queryPeers.getState r :=
    getState_withState (by rw [hp]; exact Option.some_ne_none _)
  refine ⟨?_, .inr ((h.linked_of_spawn hloop).spawn hp), ?_, (nodup_cons.mp hnodup).2,
    fun r hr => ?_, ?_, fun r hr => ?_, fun hterm => ?_, nofun⟩
  · have hself : cfg.self ≠ p := by
      rintro heq
      rw [← heq, h.self_absent] at hp
      cases hp
    show (q.queryPeers.withState p .waiting).getState cfg.self = none
    rw [hstate, if_neg hself]
    exact h.self_absent
  · show (q.running ++ [(⟨p, .dial⟩ : Running φ)]).length + q.ch.length + qPeers.length ≤ cfg.alpha
    rw [length_cons] at hroom
    rw [length_append, length_singleton]
    omega
  · have hne : r ≠ p := by
      rintro rfl
      exact (nodup_cons.mp hnodup).1 hr
    show (q.queryPeers.withState p .waiting).getState r = some .heard
    rw [hstate, if_neg hne]
    exact hheard r (mem_cons_of_mem p hr)
  · refine h.spawned_nodup.append (nodup_singleton p) (disjoint_singleton.mpr ?_)
    exact fun hmem => (h.spawned_started p hmem).2 hp
  · show (q.queryPeers.withState p .waiting).getState r ≠ none ∧ _
    rw [hstate]
    split
    · exact ⟨nofun, nofun⟩
    · next hne =>
      refine h.spawned_started r ?_
      exact (mem_append.mp hr).resolve_right fun hr => hne (mem_singleton.mp hr)
  · exact ((h.live hterm).2 _ _ hloop).elim

/-- The check for termination. -/
theorem of_round {stop : Bool} (hloop : q.loop = .check cause)
    (hround : Round cfg stop cause q q') : Inv cfg q' := by
  have hmax : 0 ≤ q.maxNumQueriesToSpawn cfg := by
    have hle := numWaiting_le h
    unfold maxNumQueriesToSpawn
    omega
  have hunread (hu : Unread cfg q) : q.terminated = true :=
    hu.live.resolve_left fun hselect => nomatch hloop.symm.trans hselect
  -- the loop ends, with a reason or because it was cancelled
  have hend (reason : Option Reason) : Inv cfg { q with
      terminated := true, reason := reason, loop := .wait } :=
    h.goOn true reason q.ctxDone nofun (fun _ => .inr rfl) nofun nofun
  cases hround with
  | panics hstop hneg =>
    refine h.goOn q.terminated q.reason q.ctxDone nofun
      (fun hu => .inr (hunread hu)) nofun fun e he => ?_
    exact ⟨(Loop.panicked.inj he).symm, hneg.resolve_right (by omega)⟩
  | ends hready => exact hend _
  | cancelled hterm =>
    have hwait := hend q.reason
    rw [← hterm] at hwait
    exact hwait
  | queries hterm hstop hstarved hcompleted hn =>
    have hlinked := h.link.resolve_left fun hu => nomatch hterm.symm.trans (hunread hu)
    refine ⟨h.self_absent, .inr hlinked, ?_, ?_, fun p hp => ?_, h.spawned_nodup,
      h.spawned_started, fun htrue => (nomatch hterm.symm.trans htrue), nofun⟩
    · have hlen : ((q.queryPeers.inStates [.heard]).take
          (q.maxNumQueriesToSpawn cfg).toNat).length ≤
          (q.maxNumQueriesToSpawn cfg).toNat := length_take_le _ _
      have hwaiting := hlinked.numWaiting
      unfold maxNumQueriesToSpawn at hlen hn
      show q.running.length + q.ch.length + length (take _ _) ≤ cfg.alpha
      unfold maxNumQueriesToSpawn
      omega
    · exact (nodup_inStates _ _).sublist (take_sublist _ _)
    · obtain ⟨s, hs, hstate⟩ := mem_inStates.mp (mem_of_mem_take hp)
      rw [hstate, mem_singleton.mp hs]

end Inv

/-- **Every step** keeps the invariant, and peers only advance. -/
theorem inv_step {q' : Query φ} {l : Label φ} (h : Inv cfg q)
    (hstep : step cfg l q = some q') :
    Inv cfg q' ∧ ∀ p, Advances (q.queryPeers.getState p) (q'.queryPeers.getState p) := by
  have hsame : ∀ p, Advances (q.queryPeers.getState p) (q.queryPeers.getState p) := fun p => .refl _
  cases move_of_step hstep with
  | cancel =>
    exact ⟨{ h with link := h.link.imp_left fun hu => ⟨hu.queryPeers, hu.running, hu.ch, hu.live⟩ },
      hsame⟩
  | recv hloop hch hupdate =>
    obtain ⟨qp', hok, -, -, hadvances⟩ := h.updateState_ok hloop hch
    cases hupdate.symm.trans hok
    exact ⟨h.recv hloop hch hupdate, hadvances⟩
  | recvPanics hloop hch hupdate =>
    obtain ⟨qp', hok, -⟩ := h.updateState_ok hloop hch
    cases hupdate.symm.trans hok
  | done hloop hdone =>
    rw [terminate_eq]
    exact ⟨h.goOn true _ q.ctxDone nofun (fun _ => .inr rfl) nofun nofun, hsame⟩
  | check hloop hround =>
    refine ⟨h.of_round hloop hround, ?_⟩
    rw [hround.queryPeers]
    exact hsame
  | @spawn _ p qPeers qp hloop hset =>
    obtain ⟨-, rfl⟩ := setState_eq_some_iff.mp hset
    have hp : q.queryPeers.getState p = some .heard :=
      h.spawn_heard p (by rw [hloop]; exact mem_cons_self)
    refine ⟨h.spawn hloop, fun r => ?_⟩
    show Advances _ ((q.queryPeers.withState p .waiting).getState r)
    rw [getState_withState (by rw [hp]; exact Option.some_ne_none _)]
    split
    · next hr =>
      rw [hr, hp]
      exact .query
    · exact .refl _
  | @spawnPanics _ p qPeers hloop hnone =>
    have hp : q.queryPeers.getState p = some .heard :=
      h.spawn_heard p (by rw [hloop]; exact mem_cons_self)
    cases hnone.symm.trans hp
  | spawned hloop =>
    have hterm := h.not_terminated (.inr ⟨_, _, hloop⟩)
    refine ⟨h.goOn q.terminated q.reason q.ctxDone nofun
      (fun _ => .inl rfl) (fun htrue => ?_) nofun, hsame⟩
    cases hterm.symm.trans htrue
  | dial fn hi | work fn hi => exact ⟨h.setStage hi nofun, hsame⟩
  | dialFails hi =>
    refine ⟨h.setStage hi fun u hu => ?_, hsame⟩
    cases hu
    exact reports_report cfg _ none
  | answer reply hi =>
    refine ⟨h.setStage hi fun u hu => ?_, hsame⟩
    cases hu
    exact reports_report cfg _ reply
  | write hi hroom => exact ⟨h.write hi, hsame⟩
  | wait hloop hrunning =>
    refine ⟨h.goOn q.terminated q.reason q.ctxDone nofun (fun hu => ?_) nofun nofun, hsame⟩
    exact .inr (hu.live.resolve_left fun hselect => nomatch hloop.symm.trans hselect)

/-! ## The end of a query -/

/-- The steps that a goroutine has left, apart from those of its query function. -/
def Stage.rank : Stage φ → Nat
  | .dial => 3
  | .query _ => 2
  | .write _ => 1

theorem Stage.rank_le (stage : Stage φ) : stage.rank ≤ 3 := by
  cases stage with
  | dial => exact Nat.le_refl 3
  | query fn => exact Nat.le_succ 2
  | write update => exact Nat.le_add_left 1 2

/-- The steps that are left once the loop has ended, apart from those of the query functions. -/
def Query.rank (q : Query φ) : Nat :=
  weight (fun g => g.stage.rank) q.running + if q.loop = .returned then 0 else 1

def Label.progresses : Label φ → Bool
  | .cancel => false
  | .work _ _ => false
  | _ => true

/-- Neither the caller nor the stop function ends the query in the step. -/
def Label.calm : Label φ → Bool
  | .cancel => false
  | .check stop => !stop
  | _ => true

theorem Label.ne_cancel_of_calm {l : Label φ} (h : l.calm = true) : l ≠ .cancel := by
  rintro rfl
  cases h

def Query.Ended (q : Query φ) : Prop := q.loop = .wait ∨ q.loop = .returned

section Ended

variable {q q' : Query φ} {l : Label φ}

theorem Query.rank_setStage {i : Nat} {p : PeerId} (stage : Stage φ) {stage' : Stage φ}
    (hi : q.running[i]? = some ⟨p, stage'⟩) :
    (q.setStage i p stage).rank + stage'.rank = q.rank + stage.rank := by
  have hset := weight_set (fun g : Running φ => g.stage.rank) hi ⟨p, stage⟩
  show weight _ (q.running.set i ⟨p, stage⟩) + (if q.loop = .returned then 0 else 1) + _ = _
  unfold rank
  dsimp only at hset
  omega

/-- **A step after the end of the loop**: the loop stays ended, and fewer steps are left. -/
theorem ended_step (h : q.Ended) (hstep : step cfg l q = some q') :
    q'.Ended ∧ q'.rank + (if l.progresses then 1 else 0) ≤ q.rank := by
  cases move_of_step hstep with
  | cancel => exact ⟨h, Nat.le_refl _⟩
  | recv hloop | recvPanics hloop | done hloop | check hloop | spawn hloop
  | spawnPanics hloop | spawned hloop => simp [Query.Ended, hloop] at h
  | @dial i p fn hi =>
    have hrank : (q.setStage i p (.query fn)).rank + 3 = q.rank + 2 := rank_setStage _ hi
    refine ⟨h, ?_⟩
    show (q.setStage i p (.query fn)).rank + 1 ≤ q.rank
    omega
  | @dialFails i p hi =>
    have hrank : (q.setStage i p (.write (unreachableUpdate p))).rank + 3 = q.rank + 1 :=
      rank_setStage _ hi
    refine ⟨h, ?_⟩
    show (q.setStage i p (.write (unreachableUpdate p))).rank + 1 ≤ q.rank
    omega
  | @work i p f fn hi =>
    have hrank : (q.setStage i p (.query fn)).rank + 2 = q.rank + 2 := rank_setStage _ hi
    exact ⟨h, Nat.le_of_eq (Nat.add_right_cancel hrank)⟩
  | @answer i p f reply hi =>
    have hrank : (q.setStage i p (.write (report cfg p reply))).rank + 2 = q.rank + 1 :=
      rank_setStage _ hi
    refine ⟨h, ?_⟩
    show (q.setStage i p (.write (report cfg p reply))).rank + 1 ≤ q.rank
    omega
  | @write i p update hi hroom =>
    have herase : weight (fun g : Running φ => g.stage.rank) (q.running.eraseIdx i) + 1 =
        weight (fun g => g.stage.rank) q.running := weight_eraseIdx _ hi
    refine ⟨h, ?_⟩
    unfold rank
    show weight _ (q.running.eraseIdx i) + (if q.loop = .returned then 0 else 1) + 1 ≤ _
    omega
  | wait hloop hrunning =>
    refine ⟨.inr rfl, ?_⟩
    unfold rank
    simp [hloop, hrunning, Label.progresses]

theorem ended_goesOn (h : Inv cfg q) (hloop : q.loop = .wait) :
    ∃ l q', l.progresses = true ∧ l.calm = true ∧ step cfg l q = some q' := by
  cases hrunning : q.running with
  | nil =>
    refine ⟨.wait, { q with loop := .returned }, rfl, rfl, ?_⟩
    rw [step, hloop, hrunning]
  | cons g rest =>
    have hi : q.running[0]? = some g := by rw [hrunning]; rfl
    obtain ⟨p, stage⟩ := g
    cases stage with
    | dial =>
      refine ⟨.dial 0 none, q.setStage 0 p (.write (unreachableUpdate p)), rfl, rfl, ?_⟩
      rw [step, hi]
    | query fn =>
      refine ⟨.answer 0 none, q.setStage 0 p (.write (report cfg p none)), rfl, rfl, ?_⟩
      rw [step, hi]
    | write update => exact ⟨.write 0, _, rfl, rfl, h.step_write hi⟩

end Ended

/-! ## Safety -/

/-- **What holds in every state.** -/
structure Safe (cfg : Config) (q : Query φ) : Prop where
  /-- Peers only change from heard to waiting, and then to queried or unreachable. -/
  moves : ∀ l q', Query.step cfg l q = some q' →
    ∀ p, Advances (q.queryPeers.getState p) (q'.queryPeers.getState p)
  /-- No peer is queried twice. -/
  once : q.spawned.Nodup
  self_absent : q.queryPeers.getState cfg.self = none ∧ cfg.self ∉ q.spawned
  waiting : q.queryPeers.numWaiting ≤ cfg.alpha
  maxNumQueriesToSpawn : 0 ≤ q.maxNumQueriesToSpawn cfg
  /-- None of the panics of `updateState` and `SetState`. -/
  panic : ∀ e, q.loop = .panicked e → e = .sliceBounds ∧ cfg.beta < 0
  room : q.ch.length + q.running.length ≤ cfg.alpha
  /-- Updates can be written as soon as they are there. -/
  writes : ∀ i p update, q.running[i]? = some ⟨p, .write update⟩ →
    ∃ q', Query.step cfg (.write i) q = some q'
  /-- Once the loop has ended, every goroutine comes to its end: some step can be taken until the
  query has returned, and there are not many of them. -/
  returns : q.Ended → q.loop = .returned ∨
    ∃ l q', l.progresses = true ∧ Query.step cfg l q = some q'
  ends : q.Ended → ∀ ls q', Trace.run (Query.step cfg) ls q = some q' →
    ls.countP Label.progresses ≤ 3 * cfg.alpha + 1

theorem Inv.safe (h : Inv cfg q) : Safe cfg q where
  moves := fun l q' hstep => (inv_step h hstep).2
  once := h.spawned_nodup
  self_absent := ⟨h.self_absent, fun hself => (h.spawned_started _ hself).1 h.self_absent⟩
  waiting := numWaiting_le h
  maxNumQueriesToSpawn := by
    have hle := numWaiting_le h
    unfold maxNumQueriesToSpawn
    omega
  panic := h.panic
  room := by
    have hroom := h.room
    omega
  writes := fun i p update hi => ⟨_, h.step_write hi⟩
  returns := fun hended => hended.symm.imp_right fun hwait => by
    obtain ⟨l, q', hl, -, hstep⟩ := ended_goesOn h hwait
    exact ⟨l, q', hl, hstep⟩
  ends := fun hended ls q' hrun => by
    have hcount := Trace.countP_le rank (fun _ _ _ _ => ended_step) hended hrun
    have hle : weight (fun g : Running φ => g.stage.rank) q.running ≤ 3 * q.running.length :=
      weight_le_mul _ fun g _ => g.stage.rank_le
    have hroom := h.room
    have hrank : q.rank ≤ 3 * q.running.length + 1 := by
      unfold rank
      split <;> omega
    omega

/-- **The query loop is safe** in every state of every run, whatever the peers reply, whenever the
stop function says so and whenever the caller cancels. -/
theorem safe_run {seedPeers : List PeerId} {ls : List (Label φ)} {q : Query φ}
    (hrun : Trace.run (Query.step cfg) ls (.new cfg seedPeers) = some q) : Safe cfg q :=
  (Trace.invariant (fun _ _ _ _ h hstep => (inv_step h hstep).1) (inv_new seedPeers) hrun).safe

def oneByOne : Config where
  self := [0]
  key := [1]
  alpha := 1
  alpha_pos := Nat.le_refl 1
  beta := 3
  bucketSize := 20

/-- A peer that names the node and itself; then there is nothing left to query. -/
theorem safe_run_oneByOne :
    ∃ q : Query Unit, Trace.run (Query.step oneByOne)
        [.recv, .check false, .spawn, .spawn, .dial 0 (some ()),
          .answer 0 (some [([0], true), ([2], true)]), .write 0, .recv, .check false]
        (.new oneByOne [[2]]) = some q ∧ q.loop = .wait ∧ Safe oneByOne q := by
  exact Trace.exists_observed (fun q => q.loop) .wait (by decide +kernel) fun q hrun hwait =>
    ⟨hwait, safe_run hrun⟩

end KadDht.Lookup
