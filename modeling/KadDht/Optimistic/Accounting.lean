import KadDht.Optimistic.Provide

/-!
# Optimistic — the accounting of the completions

Every RPC sends one completion. In the first loop of `waitForRPCs` all of them are received there;
in the second loop there is one receiver for each completion that is still missing: an iteration
that is left, or a goroutine that holds a lease. The counter is behind by the completions that were
received and not yet counted, so it gets to their number only once.
-/

namespace KadDht.Optimistic

open List Provide Consumer

/-! ## Completions -/

def Put.completion (q : Put) : Option PeerId := if q.stage = .ended then some q.pid else none

def Provide.sent (p : Provide) : List PeerId := p.puts.filterMap Put.completion

/-- There is an RPC for every peer. What was received and what is in the queue was sent. -/
structure Delivers (p : Provide) : Prop where
  capacity_pos : 0 < p.capacity
  states : p.peerStates.map Prod.fst = p.puts.map Put.pid
  nodup : (p.puts.map Put.pid).Nodup
  sent : (p.received ++ p.doneChan).Perm p.sent
  room : p.doneChan.length ≤ p.capacity

namespace Delivers

variable {p : Provide} {j : Nat} {pid : PeerId} {queue : List PeerId}

theorem length_sent (h : Delivers p) : p.received.length + p.doneChan.length = p.sent.length := by
  rw [← length_append, h.sent.length_eq]

theorem length_sent_le (p : Provide) : p.sent.length ≤ p.puts.length := length_filterMap_le _ _

theorem received_le (h : Delivers p) : p.received.length ≤ p.puts.length := by
  have hsent := h.length_sent
  have hle := length_sent_le p
  omega

/-- Completions are still missing if some RPC has not sent its own. -/
theorem sent_lt (hj : p.puts[j]? = some ⟨pid, .sends⟩) : p.sent.length < p.puts.length := by
  have hperm : ((p.puts.set j ⟨pid, .ended⟩).filterMap Put.completion).Perm (pid :: p.sent) :=
    filterMap_set_perm hj rfl rfl
  have hle := length_filterMap_le Put.completion (p.puts.set j ⟨pid, .ended⟩)
  rw [hperm.length_eq, length_set, length_cons] at hle
  exact hle

theorem length_states (h : Delivers p) : p.peerStates.length = p.puts.length := by
  rw [← length_map (f := Prod.fst), h.states, length_map]

/-- The pids do not change. -/
theorem map_pid_set (hj : p.puts[j]? = some ⟨pid, .calls⟩ ∨ p.puts[j]? = some ⟨pid, .sends⟩)
    (stage : Stage) : (p.puts.set j ⟨pid, stage⟩).map Put.pid = p.puts.map Put.pid := by
  have hget : (p.puts.map Put.pid)[j]? = some pid := by
    rw [List.getElem?_map]
    rcases hj with hj | hj
    · rw [hj]; rfl
    · rw [hj]; rfl
  obtain ⟨hlt, heq⟩ := List.getElem?_eq_some_iff.mp hget
  rw [List.map_set, ← heq]
  exact List.set_getElem_self hlt

theorem schedule (h : Delivers p) (pid : PeerId) : Delivers (p.schedule pid) := by
  unfold Provide.schedule
  split
  · exact h
  · next hnew =>
    have hnot : pid ∉ p.puts.map Put.pid := by
      rw [← h.states]
      intro hmem
      obtain ⟨e, he, rfl⟩ := mem_map.mp hmem
      exact hnew (find?_isSome.mpr ⟨e, he, by simp⟩)
    refine ⟨h.capacity_pos, ?_, ?_, ?_, h.room⟩
    · rw [map_append, map_append, h.states]
      rfl
    · rw [map_append]
      exact h.nodup.append (nodup_singleton pid) (by simpa using hnot)
    · -- the new RPC has not sent anything
      show List.Perm _ (filterMap Put.completion (p.puts ++ [⟨pid, .calls⟩]))
      rw [filterMap_append]
      exact (append_nil p.sent).symm ▸ h.sent

theorem rpc (h : Delivers p) (hj : p.puts[j]? = some ⟨pid, .calls⟩) (state : RpcState) :
    Delivers { p with
      peerStates := p.peerStates.map fun e => if e.1 = pid then (pid, state) else e
      puts := p.puts.set j ⟨pid, .sends⟩ } := by
  have hstates : (p.peerStates.map fun e => if e.1 = pid then (pid, state) else e).map Prod.fst =
      p.peerStates.map Prod.fst := by
    rw [map_map]
    refine map_congr_left fun e _ => ?_
    show (if e.1 = pid then (pid, state) else e).1 = e.1
    split
    · next heq => exact heq.symm
    · rfl
  have hpids := map_pid_set (.inl hj) .sends
  refine ⟨h.capacity_pos, ?_, ?_, ?_, h.room⟩
  · exact hstates.trans (h.states.trans hpids.symm)
  · exact hpids ▸ h.nodup
  · have hsent : filterMap Put.completion (p.puts.set j ⟨pid, .sends⟩) = p.sent :=
      filterMap_set_eq hj rfl
    exact h.sent.trans (List.Perm.of_eq hsent.symm)

theorem send (h : Delivers p) (hj : p.puts[j]? = some ⟨pid, .sends⟩)
    (hroom : p.doneChan.length < p.capacity) :
    Delivers { p with doneChan := p.doneChan ++ [pid], puts := p.puts.set j ⟨pid, .ended⟩ } := by
  have hpids := map_pid_set (.inr hj) .ended
  refine ⟨h.capacity_pos, h.states.trans hpids.symm, hpids ▸ h.nodup, ?_, ?_⟩
  · have hsent : ((p.puts.set j ⟨pid, .ended⟩).filterMap Put.completion).Perm (pid :: p.sent) :=
      filterMap_set_perm hj rfl rfl
    show (p.received ++ (p.doneChan ++ [pid])).Perm _
    rw [← append_assoc]
    exact (perm_append_singleton pid _).trans ((h.sent.cons pid).trans hsent.symm)
  · show (p.doneChan ++ [pid]).length ≤ p.capacity
    rw [length_append, length_singleton]
    omega

/-- A completion is received. -/
theorem receive (h : Delivers p) (hqueue : p.doneChan = pid :: queue) :
    Delivers { p with doneChan := queue, received := p.received ++ [pid] } ∧
      p.received.length < p.puts.length := by
  have hsent := h.sent
  have hroom := h.room
  have hlength := h.length_sent
  have hle := length_sent_le p
  rw [hqueue] at hsent hroom hlength
  rw [length_cons] at hroom hlength
  refine ⟨{ h with sent := ?_, room := (Nat.le_succ _).trans hroom }, by omega⟩
  show (p.received ++ [pid] ++ queue).Perm p.sent
  rw [append_assoc]
  exact hsent

end Delivers

/-! ## The counter

The counter is what was received less what was not counted yet, as a 32-bit integer. -/

/-- `waitForRPCs` has received a completion and not yet counted it. -/
def Waiter.uncounted : Waiter → Nat
  | counts => 1
  | countsRest _ => 1
  | _ => 0

def Waiter.closing : Waiter → Nat
  | closes _ => 1
  | _ => 0

structure Waiter.Rests (waiter : Waiter) : Prop where
  uncounted : waiter.uncounted = 0
  closing : waiter.closing = 0

theorem Waiter.rests_next (left : Nat) : (Waiter.next left).Rests := by
  unfold Waiter.next
  split
  · exact ⟨rfl, rfl⟩
  · exact ⟨rfl, rfl⟩

namespace Consumer

def pending : Consumer → Nat
  | receives => 1
  | _ => 0

def leased : Consumer → Nat
  | receives => 1
  | releases => 1
  | _ => 0

def uncounted : Consumer → Nat
  | releases => 1
  | counts => 1
  | _ => 0

def closing : Consumer → Nat
  | closes => 1
  | _ => 0

end Consumer

/-- The completions that were received and not yet counted. -/
def uncounted (waiter : Waiter) (consumers : List Consumer) : Nat :=
  waiter.uncounted + weight Consumer.uncounted consumers

def closers (waiter : Waiter) (consumers : List Consumer) (closed : Bool) : Nat :=
  waiter.closing + weight Consumer.closing consumers + closed.toNat

theorem eq_of_toInt_ofNat {k n : Nat} (hle : k ≤ n) (h : (Int32.ofNat k).toInt = n) : k = n := by
  have hmax := (Int32.ofNat k).toInt_lt
  rw [Int32.toInt_ofNat_of_lt (by omega)] at h
  omega

/-- The counter is the number of completions received, but for those not yet counted. It is complete
when somebody closes the channel, and only one does. -/
structure Tally (waiter : Waiter) (consumers : List Consumer) (closed : Bool) (done : Int32)
    (received issued : Nat) : Prop where
  le : uncounted waiter consumers ≤ received
  eq : done = Int32.ofNat (received - uncounted waiter consumers)
  closers_le : closers waiter consumers closed ≤ 1
  complete : 0 < closers waiter consumers closed →
    received = issued ∧ uncounted waiter consumers = 0

namespace Tally

variable {waiter waiter' : Waiter} {consumers consumers' : List Consumer} {closed closed' : Bool}
  {done : Int32} {received issued : Nat}

variable (h : Tally waiter consumers closed done received issued)
include h

theorem keep (huncounted : uncounted waiter' consumers' = uncounted waiter consumers)
    (hclosers : closers waiter' consumers' closed' = closers waiter consumers closed) :
    Tally waiter' consumers' closed' done received issued := by
  constructor
  · exact huncounted ▸ h.le
  · exact huncounted ▸ h.eq
  · exact hclosers ▸ h.closers_le
  · rw [huncounted, hclosers]
    exact h.complete

theorem receive (hlt : received < issued)
    (huncounted : uncounted waiter' consumers' = uncounted waiter consumers + 1)
    (hclosers : closers waiter' consumers' closed = closers waiter consumers closed) :
    Tally waiter' consumers' closed done (received + 1) issued := by
  have hle := h.le
  constructor
  · omega
  · rw [huncounted, Nat.add_sub_add_right]
    exact h.eq
  · exact hclosers ▸ h.closers_le
  · -- nobody closes the channel while a completion is missing
    intro hpos
    have hall := (h.complete (hclosers ▸ hpos)).1
    omega

/-- The counter after a completion is counted. -/
theorem succ {n : Nat} (huncounted : n + 1 = uncounted waiter consumers) :
    done + 1 = Int32.ofNat (received - n) := by
  have hle := h.le
  have hnext : received - n = received - uncounted waiter consumers + 1 := by omega
  rw [hnext, Int32.ofNat_add, ← h.eq]
  rfl

theorem count (huncounted : uncounted waiter' consumers' + 1 = uncounted waiter consumers)
    (hclosers : closers waiter' consumers' closed = closers waiter consumers closed) :
    Tally waiter' consumers' closed (done + 1) received issued := by
  have hle := h.le
  refine ⟨by omega, h.succ huncounted, hclosers ▸ h.closers_le, fun hpos => ?_⟩
  have hzero := (h.complete (hclosers ▸ hpos)).2
  omega

/-- The last completion is counted. -/
theorem countLast (hissued : received ≤ issued) (hlast : (done + 1).toInt = issued)
    (huncounted : uncounted waiter' consumers' + 1 = uncounted waiter consumers)
    (hclosers : closers waiter' consumers' closed = closers waiter consumers closed + 1) :
    Tally waiter' consumers' closed (done + 1) received issued := by
  have hle := h.le
  -- the counter was not complete before, so nobody else closes the channel
  have hnone : closers waiter consumers closed = 0 := by
    by_contra hpos
    have hzero := (h.complete (Nat.pos_of_ne_zero hpos)).2
    omega
  rw [h.succ huncounted] at hlast
  have hall := eq_of_toInt_ofNat (by omega) hlast
  refine ⟨by omega, h.succ huncounted, by omega, fun _ => ⟨by omega, by omega⟩⟩

/-- `waitForRPCs` has counted a completion, which was not the last one. -/
theorem counted (hold : waiter.uncounted = 1 ∧ waiter.closing = 0) (hnew : waiter'.Rests) :
    Tally waiter' consumers closed (done + 1) received issued := by
  refine h.count ?_ ?_
  · unfold uncounted
    rw [hold.1, hnew.uncounted]
    omega
  · unfold closers
    rw [hold.2, hnew.closing]

theorem collected (hlt : received < issued) (hold : waiter.Rests)
    (hnew : waiter'.uncounted = 1 ∧ waiter'.closing = 0) :
    Tally waiter' consumers closed done (received + 1) issued := by
  refine h.receive hlt ?_ ?_
  · unfold uncounted
    rw [hold.uncounted, hnew.1]
    omega
  · unfold closers
    rw [hold.closing, hnew.2]

end Tally

/-! ## The receivers

The invariant follows the waiter: `Collects` in the first loop, `Leases` in the second one, in which
an iteration hands its completion to a goroutine or receives it itself. -/

/-- The first loop. The counter has not got to the threshold yet. -/
structure Collects (p : Provide) : Prop where
  issued : p.rpcCount = p.puts.length
  threshold : p.returnThreshold = min p.capacity p.puts.length
  alone : p.consumers = []
  unclosed : p.closed = false
  missed : ∀ k, 0 < k → k + p.waiter.uncounted ≤ p.received.length →
    (Int32.ofNat k).toInt ≠ p.returnThreshold

/-- The second loop. There is a receiver for every completion that is missing. -/
structure Leases (p : Provide) (left : Nat) : Prop where
  issued : p.rpcCount = p.puts.length
  threshold : p.returnThreshold = min p.capacity p.puts.length
  reached : 0 < p.returnThreshold ∧ p.returnThreshold < 2 ^ 31
  owed : weight Consumer.pending p.consumers + left + p.received.length = p.puts.length

inductive Phase (p : Provide) : Waiter → Prop where
  | lookup (hconsumers : p.consumers = []) (hreceived : p.received = [])
    (hthreshold : p.returnThreshold = p.capacity) (hclosed : p.closed = false) : Phase p .lookup
  | collects (h : Collects p) : Phase p .collects
  | counts (h : Collects p) : Phase p .counts
  | leases {left : Nat} (hleft : 0 < left) (h : Leases p left) : Phase p (.leases left)
  | countsRest {left : Nat} (h : Leases p left) : Phase p (.countsRest left)
  | closes {left : Nat} (h : Leases p left) : Phase p (.closes left)
  | returned (h : Leases p 0) : Phase p .returned

theorem Phase.next {p : Provide} {left : Nat} (h : Leases p left) : Phase p (.next left) := by
  unfold Waiter.next
  split
  · next hzero =>
    subst hzero
    exact .returned h
  · next hne => exact .leases (Nat.pos_of_ne_zero hne) h

theorem Phase.mono {p p' : Provide} {waiter : Waiter} (h : Phase p waiter)
    (hlookup : Phase p .lookup → Phase p' .lookup) (hcollects : Collects p → Collects p')
    (hleases : ∀ left, Leases p left → Leases p' left) : Phase p' waiter := by
  cases h with
  | lookup hconsumers hreceived hthreshold hclosed =>
    exact hlookup (.lookup hconsumers hreceived hthreshold hclosed)
  | collects h => exact .collects (hcollects h)
  | counts h => exact .counts (hcollects h)
  | leases hleft h => exact .leases hleft (hleases _ h)
  | countsRest h => exact .countsRest (hleases _ h)
  | closes h => exact .closes (hleases _ h)
  | returned h => exact .returned (hleases _ h)

structure Sound (p : Provide) : Prop where
  delivers : Delivers p
  tally : Tally p.waiter p.consumers p.closed p.putProvDone p.received.length p.puts.length
  phase : Phase p p.waiter
  intact : p.panicked = false

theorem Phase.alone_or_leases {p : Provide} {waiter : Waiter} (h : Phase p waiter) :
    p.consumers = [] ∨ ∃ left, Leases p left := by
  cases h with
  | lookup hconsumers => exact .inl hconsumers
  | collects h | counts h => exact .inl h.alone
  | leases _ h | countsRest h | closes h | returned h => exact .inr ⟨_, h⟩

theorem sound_new {returnThreshold : Nat} (hpos : 0 < returnThreshold) :
    Sound (.new returnThreshold) where
  delivers := ⟨hpos, rfl, nodup_nil, List.Perm.refl _, Nat.zero_le _⟩
  tally := ⟨Nat.le_refl _, rfl, Nat.zero_le _, fun h => absurd h (Nat.lt_irrefl 0)⟩
  phase := .lookup rfl rfl rfl rfl
  intact := rfl

section Step

variable {p p' : Provide} {poolSize jobs jobs' c left : Nat} {a : Act} {pid : PeerId}

theorem sound_schedule (h : Sound p) (hwaiter : p.waiter = .lookup) (pid : PeerId) :
    Sound (p.schedule pid) ∧ (p.schedule pid).waiter = .lookup := by
  have hphase := h.phase
  have htally := h.tally
  have hdelivers := h.delivers.schedule pid
  rw [hwaiter] at hphase htally
  unfold schedule at hdelivers ⊢
  split
  · exact ⟨h, hwaiter⟩
  · next hnew =>
    rw [if_neg hnew] at hdelivers
    cases hphase with
    | lookup hconsumers hreceived hthreshold hclosed =>
      refine ⟨⟨hdelivers, ?_, ?_, h.intact⟩, hwaiter⟩
      · -- nobody closes the channel during the lookup
        show Tally p.waiter p.consumers p.closed p.putProvDone p.received.length _
        rw [hwaiter]
        refine { htally with complete := fun hpos => ?_ }
        rw [hconsumers, hclosed] at hpos
        exact absurd hpos (by decide)
      · show Phase _ p.waiter
        rw [hwaiter]
        exact .lookup hconsumers hreceived hthreshold hclosed

theorem sound_schedules (peers : List PeerId) (h : Sound p) (hwaiter : p.waiter = .lookup) :
    Sound (peers.foldl .schedule p) ∧ (peers.foldl .schedule p).waiter = .lookup :=
  foldlRecOn peers _ (motive := fun p => Sound p ∧ p.waiter = .lookup) ⟨h, hwaiter⟩
    fun _ h pid _ => sound_schedule h.1 h.2 pid

theorem sound_waitForRPCs (h : Sound p) (hwaiter : p.waiter = .lookup) : Sound p.waitForRPCs := by
  have hphase := h.phase
  have htally := h.tally
  have hlength := h.delivers.length_states
  rw [hwaiter] at hphase htally
  cases hphase with
  | lookup hconsumers hreceived hthreshold hclosed =>
    refine ⟨{ h.delivers with }, htally.keep rfl rfl,
      .collects ⟨hlength, ?_, hconsumers, hclosed, ?_⟩, h.intact⟩
    · show (if p.returnThreshold > p.peerStates.length then p.peerStates.length
        else p.returnThreshold) = min p.capacity p.puts.length
      rw [hthreshold, hlength]
      split
      · omega
      · omega
    · intro k hpos hle
      have hnone : p.received.length = 0 := by rw [hreceived]; rfl
      have hle : k + 0 ≤ p.received.length := hle
      omega

theorem Sound.exchange (h : Sound p) {peerStates : List (PeerId × RpcState)}
    {doneChan : List PeerId} {puts : List Put} (hlength : puts.length = p.puts.length)
    (hdelivers : Delivers { p with peerStates := peerStates, doneChan := doneChan, puts := puts }) :
    Sound { p with peerStates := peerStates, doneChan := doneChan, puts := puts } := by
  refine ⟨hdelivers, ?_, ?_, h.intact⟩
  · show Tally p.waiter p.consumers p.closed p.putProvDone p.received.length puts.length
    exact hlength ▸ h.tally
  · refine h.phase.mono (fun hphase => ?_) (fun h => ?_) fun left h => ?_
    · cases hphase with
      | lookup hconsumers hreceived hthreshold hclosed =>
        exact .lookup hconsumers hreceived hthreshold hclosed
    · exact ⟨h.issued.trans hlength.symm, hlength ▸ h.threshold, h.alone, h.unclosed, h.missed⟩
    · exact ⟨h.issued.trans hlength.symm, hlength ▸ h.threshold, h.reached,
        h.owed.trans hlength.symm⟩

theorem Sound.complete (h : Sound p) (hclosed : p.closed = true) :
    p.received.length = p.puts.length := by
  have hpos : 0 < closers p.waiter p.consumers p.closed := by
    rw [hclosed]
    exact Nat.succ_pos _
  exact (h.tally.complete hpos).1

theorem Sound.unclosed_of_sends (h : Sound p) {j : Nat} (hj : p.puts[j]? = some ⟨pid, .sends⟩) :
    p.closed ≠ true := by
  intro hclosed
  have hall := h.complete hclosed
  have hsent := h.delivers.length_sent
  have hlt := Delivers.sent_lt hj
  omega

/-- From the first loop to the second one: nothing was handed to a goroutine yet, so the iterations
left are the completions that are missing. -/
theorem Leases.of_collects (h : Collects p) (hsound : Sound p) (hwaiter : p.waiter = .counts)
    (hlast : (p.putProvDone + 1).toInt = p.returnThreshold) :
    Leases { p with putProvDone := p.putProvDone + 1 }
      (p.rpcCount - (p.putProvDone + 1).toInt).toNat := by
  have htally := hsound.tally
  rw [hwaiter, h.alone] at htally
  have hcounted : p.putProvDone + 1 = Int32.ofNat p.received.length := htally.succ (n := 0) rfl
  have hmax := (p.putProvDone + 1).toInt_lt
  have hle := hsound.delivers.received_le
  have hthreshold := h.threshold
  have hcapacity := hsound.delivers.capacity_pos
  have hone : 1 ≤ p.received.length := htally.le
  have hsmall : p.received.length ≤ p.returnThreshold := by
    -- the counter was at the threshold before, otherwise
    by_contra hlarge
    refine h.missed p.returnThreshold (by omega) ?_ (Int32.toInt_ofNat_of_lt (by omega))
    rw [hwaiter]
    exact Nat.lt_of_not_le hlarge
  have hreached : p.received.length = p.returnThreshold :=
    eq_of_toInt_ofNat hsmall (hcounted ▸ hlast)
  refine ⟨h.issued, h.threshold, ⟨?_, ?_⟩, ?_⟩
  · show 0 < p.returnThreshold
    omega
  · show p.returnThreshold < 2 ^ 31
    omega
  · show weight pending p.consumers + _ + p.received.length = p.puts.length
    rw [h.alone, weight_nil, hlast, h.issued]
    omega

variable {old : Consumer} {waiter : Waiter}

theorem uncounted_set (hc : p.consumers[c]? = some old) (waiter : Waiter) (new : Consumer) :
    uncounted waiter (p.consumers.set c new) + old.uncounted =
      uncounted waiter p.consumers + new.uncounted := by
  have hset := weight_set Consumer.uncounted hc new
  unfold uncounted
  omega

theorem closers_set (hc : p.consumers[c]? = some old) (waiter : Waiter) (closed : Bool)
    (new : Consumer) :
    closers waiter (p.consumers.set c new) closed + old.closing =
      closers waiter p.consumers closed + new.closing := by
  have hset := weight_set closing hc new
  unfold closers
  omega

theorem ne_nil_of_consumer (hc : p.consumers[c]? = some old) : p.consumers ≠ [] :=
  ne_nil_of_mem (mem_of_getElem? hc)

theorem Phase.consumer (h : Phase p waiter) (hc : p.consumers[c]? = some old)
    (hleases : ∀ left, Leases p left → Leases p' left) : Phase p' waiter := by
  refine h.mono (fun hphase => ?_) (fun hcollects => ?_) hleases
  · cases hphase with
    | lookup hconsumers => exact absurd hconsumers (ne_nil_of_consumer hc)
  · exact absurd hcollects.alone (ne_nil_of_consumer hc)

theorem Phase.goesOn {new : Consumer} (h : Phase p waiter) (hc : p.consumers[c]? = some old)
    (hold : old.pending = 0) (hnew : new.pending = 0) (done : Int32) (closed : Bool) :
    Phase { p with putProvDone := done, closed := closed, consumers := p.consumers.set c new }
      waiter := by
  refine h.consumer hc fun left hleases =>
    { hleases with owed := ?_ }
  have howed := hleases.owed
  have hpending := weight_set pending hc new
  show weight pending (p.consumers.set c new) + left + p.received.length = p.puts.length
  omega

theorem Sound.pending_le (h : Sound p) :
    weight pending p.consumers + p.received.length ≤ p.puts.length := by
  have hle := h.delivers.received_le
  rcases h.phase.alone_or_leases with hnil | ⟨left, hleases⟩
  · rw [hnil, weight_nil]
    omega
  · have howed := hleases.owed
    omega

theorem Sound.unclosed_of_receives (h : Sound p) (hc : p.consumers[c]? = some .receives) :
    p.closed ≠ true := by
  intro hclosed
  have hall := h.complete hclosed
  have hpending := h.pending_le
  have hset : weight pending (p.consumers.set c .releases) + 1 =
      weight pending p.consumers + 0 := weight_set _ hc _
  omega

theorem Sound.close_eq (h : Sound p)
    (hcloses : 0 < p.waiter.closing + weight closing p.consumers) :
    p.close = { p with closed := true } ∧ p.closed = false := by
  have hle := h.tally.closers_le
  unfold closers at hle
  have hopen : p.closed = false := by
    cases hclosed : p.closed with
    | false => rfl
    | true =>
      rw [hclosed, Bool.toNat_true] at hle
      omega
  refine ⟨?_, hopen⟩
  unfold close
  rw [if_neg (by rw [hopen]; exact Bool.false_ne_true)]

theorem length_received (p : Provide) (pid : PeerId) :
    (p.received ++ [pid]).length = p.received.length + 1 := length_append

/-! ### One lemma for each move

The first loop is left when the counter gets to the threshold. From then on a receiver takes over
what an iteration of the second loop owes. -/

namespace Sound

variable (h : Sound p)
include h

theorem collecting (hwaiter : p.waiter = .collects ∨ p.waiter = .counts) : Collects p := by
  have hphase := h.phase
  rcases hwaiter with hwaiter | hwaiter <;> rw [hwaiter] at hphase
  · cases hphase with
    | collects hcollects => exact hcollects
  · cases hphase with
    | counts hcollects => exact hcollects

theorem leasing (hwaiter : p.waiter = .leases left) : 0 < left ∧ Leases p left := by
  have hphase := h.phase
  rw [hwaiter] at hphase
  cases hphase with
  | leases hleft hleases => exact ⟨hleft, hleases⟩

theorem countingRest (hwaiter : p.waiter = .countsRest left) : Leases p left := by
  have hphase := h.phase
  rw [hwaiter] at hphase
  cases hphase with
  | countsRest hleases => exact hleases

theorem collect (hwaiter : p.waiter = .collects) (hqueue : p.doneChan = pid :: queue) :
    Sound { p with doneChan := queue, received := p.received ++ [pid], waiter := .counts } := by
  obtain ⟨hdelivers, hlt⟩ := h.delivers.receive hqueue
  have htally := h.tally
  have hcollects := h.collecting (.inl hwaiter)
  rw [hwaiter] at htally
  refine ⟨{ hdelivers with }, ?_,
    .counts { hcollects with missed := fun k hpos hk => ?_ }, h.intact⟩
  · exact length_received p pid ▸ htally.collected hlt ⟨rfl, rfl⟩ ⟨rfl, rfl⟩
  · -- the new completion is not counted yet
    refine hcollects.missed k hpos ?_
    have hk : k + 1 ≤ p.received.length + 1 := length_received p pid ▸ hk
    rw [hwaiter]
    show k + 0 ≤ p.received.length
    omega

theorem countLast (hwaiter : p.waiter = .counts)
    (hlast : (p.putProvDone + 1).toInt = p.returnThreshold) :
    Sound { p with putProvDone := p.putProvDone + 1 }.rest := by
  have htally := h.tally
  have hleases := Leases.of_collects (h.collecting (.inr hwaiter)) h hwaiter hlast
  rw [hwaiter] at htally
  exact ⟨{ h.delivers with }, htally.counted ⟨rfl, rfl⟩ (Waiter.rests_next _),
    .next { hleases with }, h.intact⟩

theorem count (hwaiter : p.waiter = .counts)
    (hmore : (p.putProvDone + 1).toInt ≠ p.returnThreshold) :
    Sound { p with putProvDone := p.putProvDone + 1, waiter := .collects } := by
  have htally := h.tally
  have hcollects := h.collecting (.inr hwaiter)
  rw [hwaiter] at htally
  refine ⟨{ h.delivers with }, htally.counted ⟨rfl, rfl⟩ ⟨rfl, rfl⟩,
    .collects { hcollects with missed := fun k hpos hk => ?_ }, h.intact⟩
  have hk : k + 0 ≤ p.received.length := hk
  by_cases hnow : k = p.received.length
  · -- this is what the counter shows now
    have hcounted : p.putProvDone + 1 = Int32.ofNat p.received.length := by
      rw [hcollects.alone] at htally
      exact htally.succ (n := 0) rfl
    rw [hnow, ← hcounted]
    exact hmore
  · refine hcollects.missed k hpos ?_
    rw [hwaiter]
    show k + 1 ≤ p.received.length
    omega

theorem lease (hwaiter : p.waiter = .leases left) :
    Sound { p with
      waiter := .next (left - 1), consumers := p.consumers ++ [.receives] } := by
  have htally := h.tally
  obtain ⟨hleft, hleases⟩ := h.leasing hwaiter
  rw [hwaiter] at htally
  refine ⟨{ h.delivers with }, htally.keep ?_ ?_, .next { hleases with owed := ?_ }, h.intact⟩
  · unfold uncounted
    rw [(Waiter.rests_next _).uncounted, weight_append]
    rfl
  · unfold closers
    rw [(Waiter.rests_next _).closing, weight_append]
    rfl
  · -- the new consumer waits instead of an iteration
    have howed := hleases.owed
    show weight pending (p.consumers ++ [.receives]) + (left - 1) +
      p.received.length = p.puts.length
    rw [weight_append]
    show weight pending p.consumers + 1 + (left - 1) + p.received.length = _
    omega

theorem drain (hwaiter : p.waiter = .leases left) (hqueue : p.doneChan = pid :: queue) :
    Sound { p with
      doneChan := queue
      received := p.received ++ [pid]
      waiter := .countsRest (left - 1) } := by
  have htally := h.tally
  obtain ⟨hdelivers, hlt⟩ := h.delivers.receive hqueue
  obtain ⟨hleft, hleases⟩ := h.leasing hwaiter
  rw [hwaiter] at htally
  refine ⟨{ hdelivers with }, ?_, .countsRest { hleases with owed := ?_ }, h.intact⟩
  · exact length_received p pid ▸ htally.collected hlt ⟨rfl, rfl⟩ ⟨rfl, rfl⟩
  · have howed := hleases.owed
    show weight pending p.consumers + (left - 1) + (p.received ++ [pid]).length =
      p.puts.length
    rw [length_received]
    omega

theorem countRestLast (hwaiter : p.waiter = .countsRest left)
    (hlast : (p.putProvDone + 1).toInt = p.rpcCount) :
    Sound { p with putProvDone := p.putProvDone + 1, waiter := .closes left } := by
  have htally := h.tally
  have hleases := h.countingRest hwaiter
  rw [hwaiter] at htally
  refine ⟨{ h.delivers with },
    htally.countLast h.delivers.received_le (hleases.issued ▸ hlast) ?_ ?_,
    .closes { hleases with }, h.intact⟩
  · show 0 + weight Consumer.uncounted p.consumers + 1 = 1 + weight Consumer.uncounted p.consumers
    omega
  · show 1 + weight closing p.consumers + p.closed.toNat =
      0 + weight closing p.consumers + p.closed.toNat + 1
    omega

theorem countRest (hwaiter : p.waiter = .countsRest left) :
    Sound { p with putProvDone := p.putProvDone + 1, waiter := .next left } := by
  have htally := h.tally
  rw [hwaiter] at htally
  exact ⟨{ h.delivers with }, htally.counted ⟨rfl, rfl⟩ (Waiter.rests_next _),
    .next { h.countingRest hwaiter with }, h.intact⟩

theorem close (hwaiter : p.waiter = .closes left) :
    Sound { p.close with waiter := .next left } := by
  have htally := h.tally
  have hphase := h.phase
  obtain ⟨hclose, hopen⟩ := h.close_eq (Nat.lt_add_right _ (by rw [hwaiter]; exact Nat.one_pos))
  rw [hwaiter, hopen] at htally
  rw [hwaiter] at hphase
  cases hphase with
  | closes hleases =>
    rw [hclose]
    refine ⟨{ h.delivers with }, htally.keep ?_ ?_, .next { hleases with }, h.intact⟩
    · unfold uncounted
      rw [(Waiter.rests_next left).uncounted]
      rfl
    · show (Waiter.next left).closing + weight closing p.consumers + 1 =
        1 + weight closing p.consumers + 0
      rw [(Waiter.rests_next left).closing]
      omega

theorem consume (hc : p.consumers[c]? = some .receives) (hqueue : p.doneChan = pid :: queue) :
    Sound { p with
      doneChan := queue
      received := p.received ++ [pid]
      consumers := p.consumers.set c .releases } := by
  obtain ⟨hdelivers, hlt⟩ := h.delivers.receive hqueue
  refine ⟨{ hdelivers with }, ?_, h.phase.consumer hc fun left hleases =>
    { hleases with owed := ?_ }, h.intact⟩
  · exact length_received p pid ▸ h.tally.receive hlt (uncounted_set hc _ .releases)
      (closers_set hc _ _ .releases)
  · have howed := hleases.owed
    have hpending : weight pending (p.consumers.set c .releases) + 1 =
        weight pending p.consumers + 0 := weight_set _ hc _
    show weight pending (p.consumers.set c .releases) + left +
      (p.received ++ [pid]).length = p.puts.length
    rw [length_received]
    omega

theorem countForLast (hc : p.consumers[c]? = some .counts)
    (hlast : (p.putProvDone + 1).toInt = p.rpcCount) :
    Sound { p with
      putProvDone := p.putProvDone + 1, consumers := p.consumers.set c .closes } := by
  obtain ⟨left, hleases⟩ := h.phase.alone_or_leases.resolve_left (ne_nil_of_consumer hc)
  exact ⟨{ h.delivers with },
    h.tally.countLast h.delivers.received_le (hleases.issued ▸ hlast) (uncounted_set hc _ .closes)
      (closers_set hc _ _ .closes),
    h.phase.goesOn hc rfl rfl _ _, h.intact⟩

theorem closeFor (hc : p.consumers[c]? = some .closes) :
    Sound { p.close with consumers := p.consumers.set c .ended } := by
  have htally := h.tally
  have hcloses : weight closing (p.consumers.set c .ended) + 1 =
      weight closing p.consumers + 0 := weight_set _ hc _
  obtain ⟨hclose, hopen⟩ := h.close_eq (by omega)
  rw [hopen] at htally
  rw [hclose]
  refine ⟨{ h.delivers with }, htally.keep (uncounted_set hc _ .ended) ?_,
    h.phase.goesOn hc rfl rfl _ _, h.intact⟩
  show p.waiter.closing + weight closing (p.consumers.set c .ended) + 1 =
    p.waiter.closing + weight closing p.consumers + 0
  omega

end Sound

/-- **Every step** keeps the accounts. -/
theorem sound_step (h : Sound p) (hmove : Move poolSize p jobs a p' jobs') : Sound p' := by
  cases hmove with
  | stopFn hwaiter => exact (sound_schedules _ h hwaiter).1
  | lookup hwaiter =>
    obtain ⟨hsound, hlookup⟩ := sound_schedules _ h hwaiter
    exact sound_waitForRPCs hsound hlookup
  | rpc hj => exact h.exchange (length_set ..) (h.delivers.rpc hj _)
  | sendPanics hj hclosed => exact absurd hclosed (h.unclosed_of_sends hj)
  | send hj hroom => exact h.exchange (length_set ..) (h.delivers.send hj hroom)
  | collect hwaiter hqueue => exact h.collect hwaiter hqueue
  | collectClosed hwaiter hclosed =>
    have hopen := (h.collecting (.inl hwaiter)).unclosed
    exact absurd (hopen.symm.trans hclosed) Bool.false_ne_true
  | countLast hwaiter hlast => exact h.countLast hwaiter hlast
  | count hwaiter hmore => exact h.count hwaiter hmore
  | lease hwaiter hfree => exact h.lease hwaiter
  | drain hwaiter hqueue => exact h.drain hwaiter hqueue
  | drainClosed hwaiter hclosed =>
    -- a completion is missing, so that the channel is not closed
    obtain ⟨hleft, hleases⟩ := h.leasing hwaiter
    have howed := hleases.owed
    have hall := h.complete hclosed
    omega
  | countRestLast hwaiter hlast => exact h.countRestLast hwaiter hlast
  | countRest hwaiter hmore => exact h.countRest hwaiter
  | close hwaiter => exact h.close hwaiter
  | consume hc hqueue => exact h.consume hc hqueue
  | consumeClosed hc hclosed => exact absurd hclosed (h.unclosed_of_receives hc)
  | release hc hjobs =>
    exact ⟨{ h.delivers with },
      h.tally.keep (Nat.add_right_cancel (uncounted_set hc _ .counts)) (closers_set hc _ _ .counts),
      h.phase.goesOn hc rfl rfl _ _, h.intact⟩
  | countForLast hc hlast => exact h.countForLast hc hlast
  | countFor hc hmore =>
    exact ⟨{ h.delivers with },
      h.tally.count (uncounted_set hc _ .ended) (closers_set hc _ _ .ended),
      h.phase.goesOn hc rfl rfl _ _, h.intact⟩
  | closeFor hc => exact h.closeFor hc

end Step

/-! ## The pool -/

def Provide.held (p : Provide) : Nat := weight Consumer.leased p.consumers

section Pool

variable {p p' : Provide} {poolSize jobs jobs' : Nat} {a : Act}

theorem schedule_consumers (p : Provide) (pid : PeerId) :
    (p.schedule pid).consumers = p.consumers := by
  unfold schedule
  split
  · rfl
  · rfl

theorem schedules_consumers (peers : List PeerId) (p : Provide) :
    (peers.foldl .schedule p).consumers = p.consumers :=
  foldlRecOn peers _ (motive := fun p' => p'.consumers = p.consumers) rfl
    fun p' h pid _ => (schedule_consumers p' pid).trans h

theorem close_consumers (p : Provide) : p.close.consumers = p.consumers := by
  unfold close
  split
  · rfl
  · rfl

/-- The pool has the leases that are held. -/
theorem held_step (hmove : Move poolSize p jobs a p' jobs') : jobs' + p.held = jobs + p'.held := by
  have hset {c : Nat} {old new : Consumer} (hc : p.consumers[c]? = some old)
      (hsame : old.leased = new.leased) :
      jobs + p.held = jobs + weight leased (p.consumers.set c new) := by
    have hweight := weight_set leased hc new
    show jobs + weight leased p.consumers = _
    omega
  cases hmove with
  | stopFn | lookup =>
    show jobs + p.held = jobs + weight leased (foldl .schedule p _).consumers
    rw [schedules_consumers]
    rfl
  | rpc | sendPanics | send | collect | collectClosed | countLast | count | drain | drainClosed |
    countRestLast | countRest => rfl
  | lease =>
    show jobs + 1 + weight leased p.consumers =
      jobs + weight leased (p.consumers ++ [.receives])
    rw [weight_append]
    show _ = jobs + (weight leased p.consumers + 1)
    omega
  | close =>
    show jobs + p.held = jobs + weight leased p.close.consumers
    rw [close_consumers]
    rfl
  | consume hc | consumeClosed hc | countForLast hc | countFor hc => exact hset hc rfl
  | closeFor hc => exact hset hc rfl
  | @release c hc hjobs =>
    have hweight : weight leased (p.consumers.set c .counts) + 1 =
        weight leased p.consumers + 0 := weight_set _ hc _
    show jobs - 1 + weight leased p.consumers =
      jobs + weight leased (p.consumers.set c .counts)
    omega

end Pool

namespace World

/-- All provides are sound, and the pool has the leases that they hold. -/
structure Sound (w : World) : Prop where
  provides : ∀ p ∈ w.provides, Optimistic.Sound p
  jobs : w.jobs = weight Provide.held w.provides

variable {poolSize : Nat} {w w' : World} {e : Event}

theorem sound_new : Sound new := ⟨nofun, rfl⟩

/-- A step of a world is the step of a provide. -/
theorem act_cases {i : Nat} {a : Act} (h : step poolSize (.act i a) w = some w') :
    ∃ p p' jobs', w.provides[i]? = some p ∧ Move poolSize p w.jobs a p' jobs' ∧
      w' = ⟨jobs', w.provides.set i p'⟩ := by
  rw [step] at h
  split at h
  · next p hi =>
    obtain ⟨⟨p', jobs'⟩, hstep, rfl⟩ := Option.map_eq_some_iff.mp h
    exact ⟨p, p', jobs', hi, move_of_step hstep, rfl⟩
  · cases h

theorem sound_step (h : Sound w) (hstep : step poolSize e w = some w') : Sound w' := by
  cases e with
  | start returnThreshold hpos =>
    cases hstep
    refine ⟨fun p hp => ?_, ?_⟩
    · rcases mem_append.mp hp with hp | hp
      · exact h.provides p hp
      · obtain rfl := mem_singleton.mp hp
        exact Optimistic.sound_new hpos
    · show w.jobs = weight held (w.provides ++ [.new returnThreshold])
      rw [weight_append, h.jobs]
      rfl
  | act i a =>
    obtain ⟨p, p', jobs', hi, hmove, rfl⟩ := act_cases hstep
    refine ⟨fun q hq => ?_, ?_⟩
    · rcases mem_or_eq_of_mem_set hq with hq | rfl
      · exact h.provides q hq
      · exact Optimistic.sound_step (h.provides p (mem_of_getElem? hi)) hmove
    · have hheld := held_step hmove
      have hset := weight_set held hi p'
      have hjobs := h.jobs
      show jobs' = weight held (w.provides.set i p')
      omega

/-- What a run preserves. -/
theorem sound_run {es : List Event} (h : Sound w)
    (hrun : Trace.run (step poolSize) es w = some w') : Sound w' :=
  Trace.invariant (fun _ _ _ _ h hstep => sound_step h hstep) h hrun

end World

end KadDht.Optimistic
