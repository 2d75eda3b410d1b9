import KadDht.Lookup.Followup
import KadDht.Values.Select

/-!
# Values — the lookup that finds values (`routing.go`)

`getValues` runs a lookup whose query function asks a peer for the value and sends it on `valCh`,
which has room for one. When the lookup has returned, `valCh` is closed. Whoever reads `valCh` can
close `stopCh`, which the stop function looks at.

* **`GetValues.quiet_run`** — nothing is sent once `valCh` is closed.
-/

namespace KadDht.Values

open Lookup LookupWithFollowup

/-! ## Model -/

inductive GetValueFn where
  /-- `GetValue`, the request to the peer. -/
  | request
  /-- The peer has sent a valid value. -/
  | send (val : Bytes)
deriving DecidableEq

structure Channels where
  valCh : List RecvdVal
  /-- `valCh` is closed. -/
  closed : Bool
  /-- `stopCh` is closed. -/
  stopped : Bool
  /-- A value was sent after `valCh` was closed. -/
  panicked : Bool
deriving DecidableEq

namespace Channels

def send (v : RecvdVal) (c : Channels) : Option Channels :=
  if c.closed then some { c with panicked := true }
  else if c.valCh.length < 1 then some { c with valCh := c.valCh ++ [v] }
  else none

end Channels

def getValueFn : QueryFunc GetValueFn Channels where
  start := .request
  work := fun _ f f' c =>
    match f, f' with
    | .request, .send _ => some c
    | _, _ => none
  answer := fun p f reply cancelled c =>
    match f, reply with
    -- the request failed, or there is no valid value
    | .request, _ => some c
    | .send val, some _ => c.send ⟨some val, p⟩
    | .send _, none => if cancelled then some c else none
  stop := Channels.stopped

theorem getValueFn_work {p : PeerId} {f fn : GetValueFn} {c c' : Channels}
    (h : getValueFn.work p f fn c = some c') : f = .request ∧ c' = c := by
  dsimp only [getValueFn] at h
  split at h
  · exact ⟨rfl, (Option.some.inj h).symm⟩
  · cases h

theorem getValueFn_answer {p : PeerId} {f : GetValueFn} {reply : Option (List (PeerId × Bool))}
    {cancelled : Bool} {c c' : Channels} (h : getValueFn.answer p f reply cancelled c = some c') :
    (f = .request ∧ c' = c) ∨
    ∃ val, f = .send val ∧ (c.send ⟨some val, p⟩ = some c' ∨ cancelled = true ∧ c' = c) := by
  dsimp only [getValueFn] at h
  split at h
  · exact .inl ⟨rfl, (Option.some.inj h).symm⟩
  · next val _ => exact .inr ⟨val, rfl, .inl h⟩
  · next val =>
    split at h
    · next hcancelled =>
      exact .inr ⟨val, rfl, .inr ⟨hcancelled, (Option.some.inj h).symm⟩⟩
    · cases h

structure GetValues where
  lookup : LookupWithFollowup GetValueFn
  channels : Channels
deriving DecidableEq

namespace GetValues

inductive Label where
  | lookup (l : LookupLabel GetValueFn)
  /-- A value is read. -/
  | read
  /-- `stopCh` is closed. -/
  | stop
  /-- The lookup has returned, and `valCh` is closed. -/
  | close
deriving DecidableEq

/-- The lookup starts. A value that the node has itself is in `valCh`. -/
def new (cfg : Config) (seedPeers : List PeerId) (localVal : Option RecvdVal) : GetValues where
  lookup := .new cfg seedPeers
  channels := ⟨localVal.toList, false, false, false⟩

def step (cfg : Config) : Label → GetValues → Option GetValues
  | .lookup l, g =>
    (getValueFn.step cfg l g.lookup g.channels).map fun s => ⟨s.1, s.2⟩
  | .read, g =>
    match g.channels.valCh with
    | _ :: valCh => some { g with channels := { g.channels with valCh := valCh } }
    | [] => none
  | .stop, g => some { g with channels := { g.channels with stopped := true } }
  | .close, g =>
    match g.lookup.phase with
    | .returned _ | .failed => some { g with channels := { g.channels with closed := true } }
    | _ => none

/-! ## What a step does -/

inductive Move (cfg : Config) : Label → GetValues → GetValues → Prop where
  | lookup {g : GetValues} {l : LookupLabel GetValueFn} {lookup : LookupWithFollowup GetValueFn}
    {c : Channels} (heffect : getValueFn.effect l g.lookup g.channels = some c)
    (hstep : LookupWithFollowup.step cfg l g.lookup = some lookup) :
    Move cfg (.lookup l) g ⟨lookup, c⟩
  | read {g : GetValues} {v : RecvdVal} {valCh : List RecvdVal}
    (hval : g.channels.valCh = v :: valCh) :
    Move cfg .read g { g with channels := { g.channels with valCh := valCh } }
  | stop {g : GetValues} :
    Move cfg .stop g { g with channels := { g.channels with stopped := true } }
  | close {g : GetValues} (hover : g.lookup.phase.Over) :
    Move cfg .close g { g with channels := { g.channels with closed := true } }

variable {cfg : Config} {g g' : GetValues} {l : Label}

theorem move_of_step (h : step cfg l g = some g') : Move cfg l g g' := by
  cases l with
  | lookup l =>
    obtain ⟨⟨lookup, c⟩, hs, rfl⟩ := Option.map_eq_some_iff.mp h
    obtain ⟨heffect, hstep⟩ := QueryFunc.step_eq_some_iff.mp hs
    exact .lookup heffect hstep
  | read =>
    rw [step] at h
    split at h
    · next v valCh hval =>
      cases h
      exact .read hval
    · cases h
  | stop =>
    cases h
    exact .stop
  | close =>
    rw [step] at h
    split at h
    · next res hphase =>
      cases h
      exact .close (by rw [hphase]; trivial)
    · next hphase =>
      cases h
      exact .close (by rw [hphase]; trivial)
    · cases h

/-! ## Nothing is sent on a closed channel -/

def Sends (g : GetValues) : Prop :=
  (∃ p val, ⟨p, .query (.send val)⟩ ∈ g.lookup.query.running) ∨
    ∃ p val, ⟨p, .query (.send val)⟩ ∈ g.lookup.followups

structure Quiet (g : GetValues) : Prop where
  counted : g.lookup.Counted
  ended : g.channels.closed = true → g.lookup.phase.Over
  panicked : g.channels.panicked = false

theorem Quiet.not_sends (h : Quiet g) (hclosed : g.channels.closed = true) : ¬ g.Sends := by
  obtain ⟨hrunning, hfollowups⟩ := h.counted.over (h.ended hclosed)
  rintro (⟨p, val, hmem⟩ | ⟨p, val, hmem⟩)
  · rw [hrunning] at hmem
    cases hmem
  · rw [hfollowups] at hmem
    cases hmem

/-- What the functions do to the channels: nothing, or a value is sent by a goroutine that is about
to. -/
theorem channels_of_acts {c : Channels} {l : LookupLabel GetValueFn}
    (h : QueryFunc.Acts getValueFn g.lookup g.channels l c) :
    c = g.channels ∨ g.Sends ∧ ∃ v, g.channels.send v = some c := by
  have hanswer {p : PeerId} {f : GetValueFn} {reply : Option (List (PeerId × Bool))}
      {cancelled : Bool} (h : getValueFn.answer p f reply cancelled g.channels = some c) :
      c = g.channels ∨ ∃ val, f = .send val ∧ g.channels.send ⟨some val, p⟩ = some c := by
    rcases getValueFn_answer h with ⟨-, heq⟩ | ⟨val, rfl, hsend | ⟨-, heq⟩⟩
    · exact .inl heq
    · exact .inr ⟨val, rfl, hsend⟩
    · exact .inl heq
  cases h with
  | check | dial | followUp | call | recv | silent => exact .inl rfl
  | work hi h | followupWork hi h => exact .inl (getValueFn_work h).2
  | answer hi h =>
    rcases hanswer h with heq | ⟨val, rfl, hsend⟩
    · exact .inl heq
    · exact .inr ⟨.inl ⟨_, val, List.mem_of_getElem? hi⟩, _, hsend⟩
  | followupAnswer hi h =>
    rcases hanswer h with heq | ⟨val, rfl, hsend⟩
    · exact .inl heq
    · exact .inr ⟨.inr ⟨_, val, List.mem_of_getElem? hi⟩, _, hsend⟩

theorem quiet_step (h : Quiet g) (hstep : step cfg l g = some g') : Quiet g' := by
  cases move_of_step hstep with
  | lookup heffect hlookup =>
    have hcounted := counted_step h.counted hlookup
    rcases channels_of_acts (QueryFunc.acts_of_effect heffect) with rfl | ⟨hsends, v, hsend⟩
    · exact ⟨hcounted, fun hclosed => over_step (h.ended hclosed) hlookup, h.panicked⟩
    · -- somebody sends, so the channel is not closed
      have hopen : g.channels.closed = false := by
        rw [← Bool.not_eq_true]
        exact fun hclosed => h.not_sends hclosed hsends
      rw [Channels.send, hopen, if_neg Bool.false_ne_true] at hsend
      split at hsend
      · cases hsend
        exact ⟨hcounted, nofun, h.panicked⟩
      · cases hsend
  | read hval | stop => exact { h with }
  | close hover => exact { h with ended := fun _ => hover }

theorem quiet_run {seedPeers : List PeerId} {localVal : Option RecvdVal} {ls : List Label}
    (hrun : Trace.run (step cfg) ls (new cfg seedPeers localVal) = some g) : Quiet g := by
  refine Trace.invariant (fun _ _ _ _ h hstep => quiet_step h hstep) ?_ hrun
  exact ⟨counted_new seedPeers, nofun, rfl⟩

end GetValues

end KadDht.Values
