import KadDht.Values.GetValues

/-!
# Lookup — finding providers (`routing.go`)

`findProvidersAsyncRoutine` sends the providers that the node knows itself on `peerOut`, and then
those that the query function of a lookup finds, each of them once, until there are enough. When it
returns, `peerOut` is closed.

* **`no_query_outlives`** — what is over when a lookup has returned.
-/

namespace KadDht.Lookup

open LookupWithFollowup Trace

/-! ## Model -/

structure AddrInfo where
  id : PeerId
  addrs : List Bytes
deriving DecidableEq

structure Providers where
  ps : List AddrInfo
  /-- `peerOut` is closed. -/
  closed : Bool
  /-- A provider was sent after `peerOut` was closed. -/
  panicked : Bool
deriving DecidableEq

namespace Providers

variable (count : Int)

/-- A provider is not known, or not with an address. -/
def isNew (p : AddrInfo) (c : Providers) : Bool :=
  match c.ps.find? (·.id = p.id) with
  | none => true
  | some pi => pi.addrs = [] ∧ p.addrs ≠ []

def psTryAdd (p : AddrInfo) (c : Providers) : Option Providers :=
  if c.isNew p ∧ (c.ps.length < count ∨ count = 0) then
    some { c with ps := p :: c.ps.filter (·.id ≠ p.id) }
  else none

/-- There are as many providers as were asked for; with 0, all are to be found. -/
def enough (c : Providers) : Bool := count ≠ 0 ∧ count ≤ c.ps.length

/-- A provider is sent, which somebody reads at the same time. -/
def send (c : Providers) : Providers := if c.closed then { c with panicked := true } else c

variable {count} {p : AddrInfo} {c c' : Providers}

theorem psTryAdd_open (hopen : c.closed = false) (h : c.psTryAdd count p = some c') :
    c'.closed = false ∧ c'.panicked = c.panicked := by
  obtain ⟨-, ⟨⟩⟩ := Option.ite_none_right_eq_some.mp h
  exact ⟨hopen, rfl⟩

theorem send_open (hopen : c.closed = false) : c.send = c := by
  rw [send, hopen, if_neg Bool.false_ne_true]

end Providers

inductive FindProvidersFn where
  /-- `GetProviders`, the request to the peer. -/
  | request
  /-- The providers that the peer has sent, and the closer peers. -/
  | next (provs : List AddrInfo) (closest : List (PeerId × Bool))
  | send (provs : List AddrInfo) (closest : List (PeerId × Bool))
  /-- A provider was dealt with. -/
  | check (provs : List AddrInfo) (closest : List (PeerId × Bool))
deriving DecidableEq

def findProvidersFn (count : Int) : QueryFunc FindProvidersFn Providers where
  start := .request
  work := fun _ f f' c =>
    match f with
    | .request =>
      match f' with
      | .next _ _ => some c
      | _ => none
    | .next (prov :: provs) closest =>
      match c.psTryAdd count prov with
      | some c => if f' = .send provs closest then some c else none
      | none => if f' = .check provs closest then some c else none
    | .next [] _ => none
    | .send provs closest => if f' = .check provs closest then some c.send else none
    | .check provs closest =>
      if ¬ c.enough count ∧ f' = .next provs closest then some c else none
  answer := fun _ f reply cancelled c =>
    match f with
    -- the request failed
    | .request => if reply = none then some c else none
    | .next [] closest => if reply = some closest then some c else none
    | .next (_ :: _) _ => none
    | .send _ _ => if cancelled ∧ reply = none then some c else none
    | .check _ _ => if c.enough count ∧ reply = some [] then some c else none
  stop := fun c => c.enough count

inductive Routine where
  /-- `GetProviders`, the providers that the node knows itself. -/
  | store
  | next (provs : List AddrInfo)
  | send (provs : List AddrInfo)
  | check (provs : List AddrInfo)
  | lookup
  | returned
deriving DecidableEq

/-- `findProvidersAsyncRoutine`, with the lookup that it runs. -/
structure FindProviders where
  routine : Routine
  lookup : LookupWithFollowup FindProvidersFn
  providers : Providers
deriving DecidableEq

namespace FindProviders

inductive Label where
  /-- The answer of the provider store. -/
  | store (provs : Option (List AddrInfo))
  /-- The routine goes on with the providers of the store. -/
  | routine
  /-- The routine finds its context cancelled. -/
  | done
  | lookup (l : LookupLabel FindProvidersFn)
  /-- The lookup has returned. -/
  | finish
deriving DecidableEq

variable (cfg : Config) (count : Int)

def new (seedPeers : List PeerId) : FindProviders where
  routine := .store
  lookup := .new cfg seedPeers
  providers := ⟨[], false, false⟩

def closePeerOut (r : FindProviders) : FindProviders :=
  { r with routine := .returned, providers := { r.providers with closed := true } }

def step : Label → FindProviders → Option FindProviders
  | .store provs, r =>
    match r.routine, provs with
    | .store, some provs => some { r with routine := .next provs }
    | .store, none => some r.closePeerOut
    | _, _ => none
  | .routine, r =>
    match r.routine with
    | .next [] => some { r with routine := .lookup }
    | .next (prov :: provs) =>
      match r.providers.psTryAdd count prov with
      | some c => some { r with routine := .send provs, providers := c }
      | none => some { r with routine := .check provs }
    | .send provs => some { r with routine := .check provs, providers := r.providers.send }
    | .check provs =>
      if r.providers.enough count then some r.closePeerOut
      else some { r with routine := .next provs }
    | _ => none
  | .done, r =>
    match r.routine with
    | .send _ => if r.lookup.query.ctxDone then some r.closePeerOut else none
    | _ => none
  | .lookup (.query .cancel), r =>
    some { r with lookup := { r.lookup with query := { r.lookup.query with ctxDone := true } } }
  | .lookup l, r =>
    match r.routine with
    | .lookup =>
      ((findProvidersFn count).step cfg l r.lookup r.providers).map fun s =>
        { r with lookup := s.1, providers := s.2 }
    | _ => none
  | .finish, r =>
    match r.routine, r.lookup.phase with
    | .lookup, .returned _ => some r.closePeerOut
    | .lookup, .failed => some r.closePeerOut
    | _, _ => none

/-! ## Nothing is sent on a closed channel

`peerOut` is closed when the lookup has returned. By then no query function is left that could send.
-/

variable {cfg count} {r r' : FindProviders} {l : Label}

/-- The routine or a goroutine of its lookup is about to send a provider. -/
def Sends (r : FindProviders) : Prop :=
  (∃ provs, r.routine = .send provs) ∨
    (∃ p provs closest, ⟨p, .query (.send provs closest)⟩ ∈ r.lookup.query.running) ∨
    ∃ p provs closest, ⟨p, .query (.send provs closest)⟩ ∈ r.lookup.followups

structure Quiet (r : FindProviders) : Prop where
  counted : r.lookup.Counted
  returned : r.routine = .returned ↔ r.providers.closed = true
  panicked : r.providers.panicked = false
  /-- The lookup has not started, or the routine waits for it, or it is over. -/
  idle : r.routine = .lookup ∨ r.lookup.query.running = [] ∧ r.lookup.followups = []

theorem Quiet.not_sends (h : Quiet r) (hclosed : r.providers.closed = true) : ¬ r.Sends := by
  have hreturned := h.returned.mpr hclosed
  have hidle := h.idle.resolve_left fun hlookup => nomatch hreturned.symm.trans hlookup
  rintro (⟨provs, hsend⟩ | ⟨p, provs, closest, hmem⟩ | ⟨p, provs, closest, hmem⟩)
  · cases hreturned.symm.trans hsend
  · rw [hidle.1] at hmem
    cases hmem
  · rw [hidle.2] at hmem
    cases hmem

/-- A query function never closes the channel, and it panics only on a closed one. -/
theorem open_of_acts {c c' : Providers} {lookup : LookupWithFollowup FindProvidersFn}
    {l : LookupLabel FindProvidersFn} (hopen : c.closed = false)
    (h : QueryFunc.Acts (findProvidersFn count) lookup c l c') :
    c'.closed = false ∧ c'.panicked = c.panicked := by
  have hwork {p : PeerId} {f fn : FindProvidersFn}
      (hwork : (findProvidersFn count).work p f fn c = some c') :
      c'.closed = false ∧ c'.panicked = c.panicked := by
    dsimp only [findProvidersFn] at hwork
    split at hwork
    · split at hwork
      · cases hwork
        exact ⟨hopen, rfl⟩
      · cases hwork
    · split at hwork
      · next c1 hadd =>
        obtain ⟨-, ⟨⟩⟩ := Option.ite_none_right_eq_some.mp hwork
        exact Providers.psTryAdd_open hopen hadd
      · obtain ⟨-, ⟨⟩⟩ := Option.ite_none_right_eq_some.mp hwork
        exact ⟨hopen, rfl⟩
    · cases hwork
    · rw [Providers.send_open hopen] at hwork
      obtain ⟨-, ⟨⟩⟩ := Option.ite_none_right_eq_some.mp hwork
      exact ⟨hopen, rfl⟩
    · obtain ⟨-, ⟨⟩⟩ := Option.ite_none_right_eq_some.mp hwork
      exact ⟨hopen, rfl⟩
  have hanswer {p : PeerId} {f : FindProvidersFn} {reply : Option (List (PeerId × Bool))}
      {cancelled : Bool}
      (hanswer : (findProvidersFn count).answer p f reply cancelled c = some c') :
      c' = c := by
    dsimp only [findProvidersFn] at hanswer
    split at hanswer <;> simp_all
  cases h with
  | check | dial | followUp | call | recv | silent => exact ⟨hopen, rfl⟩
  | work hi h => exact hwork h
  | followupWork hi h => exact hwork h
  | answer hi h | followupAnswer hi h =>
    rw [hanswer h]
    exact ⟨hopen, rfl⟩

/-- The channel is closed by the routine alone, which does so when the lookup is over. -/
theorem quiet_step (h : Quiet r) (hstep : step cfg count l r = some r') : Quiet r' := by
  have hopen (hroutine : r.routine ≠ .returned) : r.providers.closed = false := by
    rw [← Bool.not_eq_true]
    exact fun hclosed => hroutine (h.returned.mpr hclosed)
  have hclosed {c : Providers} (hc : c.closed = false) : ¬ c.closed = true := by
    rw [hc]
    exact Bool.false_ne_true
  -- before the lookup the routine goes on or returns
  have hgoes {routine routine' : Routine} {c : Providers} (hroutine : r.routine = routine)
      (hne : routine ≠ .lookup ∧ routine ≠ .returned ∧ routine' ≠ .returned)
      (hkeeps : r.providers.closed = false →
        c.closed = false ∧ c.panicked = r.providers.panicked) :
      Quiet { r with routine := routine', providers := c } := by
    have hc := hkeeps (hopen (hroutine ▸ hne.2.1))
    exact ⟨h.counted, iff_of_false hne.2.2 (hclosed hc.1), hc.2.trans h.panicked,
      .inr (h.idle.resolve_left (hroutine ▸ hne.1))⟩
  have hearly {routine : Routine} (hroutine : r.routine = routine) (hne : routine ≠ .lookup) :
      Quiet r.closePeerOut :=
    ⟨h.counted, iff_of_true rfl rfl, h.panicked, .inr (h.idle.resolve_left (hroutine ▸ hne))⟩
  have hfinish (hover : r.lookup.phase.Over) : Quiet r.closePeerOut := by
    exact ⟨h.counted, iff_of_true rfl rfl, h.panicked, .inr (h.counted.over hover)⟩
  unfold step at hstep
  split at hstep
  · -- the store answers
    split at hstep
    · next hroutine =>
      cases hstep
      exact hgoes hroutine (by simp) fun hopen => ⟨hopen, rfl⟩
    · next hroutine =>
      cases hstep
      exact hearly hroutine Routine.noConfusion
    · cases hstep
  · -- the routine goes on with a provider of the store
    split at hstep
    · next hroutine =>
      cases hstep
      exact hgoes hroutine (by simp) fun hopen => ⟨hopen, rfl⟩
    · next hroutine =>
      split at hstep
      · next c hadd =>
        cases hstep
        exact hgoes hroutine (by simp) fun hopen => Providers.psTryAdd_open hopen hadd
      · cases hstep
        exact hgoes hroutine (by simp) fun hopen => ⟨hopen, rfl⟩
    · next hroutine =>
      cases hstep
      rw [Providers.send_open (hopen (by simp [hroutine]))]
      exact hgoes hroutine (by simp) fun hopen => ⟨hopen, rfl⟩
    · next hroutine =>
      split at hstep
      · cases hstep
        exact hearly hroutine Routine.noConfusion
      · cases hstep
        exact hgoes hroutine (by simp) fun hopen => ⟨hopen, rfl⟩
    · cases hstep
  · -- the context is cancelled while it sends
    split at hstep
    · next hroutine =>
      split at hstep
      · cases hstep
        exact hearly hroutine Routine.noConfusion
      · cases hstep
    · cases hstep
  · cases hstep
    exact { h with
      counted := counted_step h.counted
        (show LookupWithFollowup.step cfg (.query .cancel) r.lookup = some _ from rfl) }
  · -- the lookup takes a step, which may send
    split at hstep
    · next hroutine =>
      obtain ⟨⟨lookup, c⟩, hs, rfl⟩ := Option.map_eq_some_iff.mp hstep
      obtain ⟨heffect, hlookup⟩ := QueryFunc.step_eq_some_iff.mp hs
      have hne : r.routine ≠ .returned := by simp [hroutine]
      obtain ⟨hc, hpanicked⟩ := open_of_acts (hopen hne) (QueryFunc.acts_of_effect heffect)
      exact ⟨counted_step h.counted hlookup,
        iff_of_false hne (hclosed hc), hpanicked.trans h.panicked, .inl hroutine⟩
    · cases hstep
  · -- the lookup has returned
    split at hstep
    · next hphase =>
      cases hstep
      exact hfinish (by rw [hphase]; trivial)
    · next hphase =>
      cases hstep
      exact hfinish (by rw [hphase]; trivial)
    · cases hstep

theorem quiet_run {seedPeers : List PeerId} {ls : List Label}
    (hrun : run (step cfg count) ls (new cfg seedPeers) = some r) : Quiet r := by
  refine invariant (fun _ _ _ _ h hstep => quiet_step h hstep) ?_ hrun
  exact ⟨counted_new seedPeers,
    iff_of_false Routine.noConfusion Bool.false_ne_true, rfl, .inr ⟨rfl, rfl⟩⟩

end FindProviders

/-! ## No query function outlives its lookup -/

/-- **No query function outlives its lookup.** When a lookup has returned, none of its goroutines is
left. So neither `getValues` nor `findProvidersAsyncRoutine` sends on a channel that it has
closed. -/
theorem no_query_outlives {φ : Type} (cfg : Config) (seedPeers : List PeerId) :
    (∀ (ls : List (LookupLabel φ)) lookup,
      Trace.run (LookupWithFollowup.step cfg) ls (.new cfg seedPeers) = some lookup →
      lookup.phase.Over → lookup.query.running = [] ∧ lookup.followups = []) ∧
    (∀ localVal ls g,
      Trace.run (Values.GetValues.step cfg) ls (.new cfg seedPeers localVal) = some g →
      g.channels.panicked = false ∧ (g.channels.closed = true → ¬ g.Sends)) ∧
    (∀ count ls r, Trace.run (FindProviders.step cfg count) ls (.new cfg seedPeers) = some r →
      r.providers.panicked = false ∧ (r.providers.closed = true → ¬ r.Sends)) := by
  refine ⟨fun ls lookup hrun hover => ?_, fun localVal ls g hrun => ?_, fun count ls r hrun => ?_⟩
  · exact (counted_run hrun).over hover
  · have hquiet := Values.GetValues.quiet_run hrun
    exact ⟨hquiet.panicked, hquiet.not_sends⟩
  · have hquiet := FindProviders.quiet_run hrun
    exact ⟨hquiet.panicked, hquiet.not_sends⟩

/-- The query ends before a peer is queried. -/
def noBeta : Config := { oneByOne with beta := 0 }

/-- The peer is queried in the follow-up. -/
def followUpSteps {φ : Type} (calls : List (LookupLabel φ)) : List (LookupLabel φ) :=
  [.query .recv, .query (.check false), .query .wait, .result, .followUp false] ++ calls ++
    [.send 0, .recv false]

theorem no_query_outlives_followUp :
    (∃ lookup : LookupWithFollowup Unit,
      Trace.run (LookupWithFollowup.step noBeta) (followUpSteps [.call 0 (), .answer 0 none])
        (.new noBeta [[2]]) = some lookup ∧
      lookup.phase.Over ∧ lookup.query.running = [] ∧ lookup.followups = []) ∧
    (∃ g, Trace.run (Values.GetValues.step noBeta)
        ((followUpSteps [.call 0 .request, .work 0 (.send [7]), .answer 0 (some [])]).map .lookup ++
          [.close]) (.new noBeta [[2]] none) = some g ∧
      (g.channels.valCh.length, g.channels.closed) = (1, true) ∧ g.channels.panicked = false ∧
      ¬ g.Sends) ∧
    ∃ r, Trace.run (FindProviders.step noBeta 0)
        ([.store (some []), .routine] ++ (followUpSteps [.call 0 .request,
            .work 0 (.next [⟨[9], []⟩] []), .work 0 (.send [] []), .work 0 (.check [] []),
            .work 0 (.next [] []), .answer 0 (some [])]).map .lookup ++ [.finish])
        (.new noBeta [[2]]) = some r ∧
      (r.providers.ps.length, r.providers.closed) = (1, true) ∧ r.providers.panicked = false ∧
      ¬ r.Sends := by
  refine ⟨?_, ?_, ?_⟩
  · refine exists_observed (fun lookup => lookup.phase)
      (.returned ⟨[[2]], [.heard], true, [[2]]⟩) (by decide +kernel) fun lookup hrun hreturned => ?_
    have hover : lookup.phase.Over := by
      rw [hreturned]
      trivial
    exact ⟨hover, (no_query_outlives _ _).1 _ _ hrun hover⟩
  · refine exists_observed _ _ (by decide +kernel) fun g hrun hclosed => ⟨hclosed, ?_⟩
    obtain ⟨hpanicked, hsends⟩ := (no_query_outlives (φ := Unit) _ _).2.1 _ _ g hrun
    exact ⟨hpanicked, hsends (congrArg Prod.snd hclosed)⟩
  · refine exists_observed _ _ (by decide +kernel) fun r hrun hclosed => ⟨hclosed, ?_⟩
    obtain ⟨hpanicked, hsends⟩ := (no_query_outlives (φ := Unit) _ _).2.2 _ _ r hrun
    exact ⟨hpanicked, hsends (congrArg Prod.snd hclosed)⟩

end KadDht.Lookup
