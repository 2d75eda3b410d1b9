import KadDht.Optimistic.Accounting

/-!
# Optimistic — how a provide comes to its end

Every step that the RPCs, `waitForRPCs` and the consumers take by themselves lowers a rank, and one
is possible until all completions are received and all leases are released. Only the first loop of
`waitForRPCs` may be left waiting, when the counter does not get to the threshold: without an RPC
there is nothing to count.

* **`settles_run`** — the accounts in every state of every run, and the end of every run.
* **`neverStuck_iff`** — when `waitForRPCs` is never left waiting.
-/

namespace KadDht.Optimistic

open List Trace World Consumer

/-! ## The rank -/

def Stage.rank : Stage → Nat
  | calls => 4
  | sends => 3
  | ended => 0

def Waiter.rank (issued : Nat) : Waiter → Nat
  | lookup => 0
  | collects => 5 * issued + 2
  | counts => 5 * issued + 3
  | leases left => 5 * left + 1
  | countsRest left => 5 * left + 3
  | closes left => 5 * left + 2
  | returned => 0

def Consumer.rank : Consumer → Nat
  | receives => 4
  | releases => 3
  | counts => 2
  | closes => 1
  | ended => 0

def Provide.rank (p : Provide) : Nat :=
  weight (fun q => q.stage.rank) p.puts + 2 * p.doneChan.length + p.waiter.rank p.rpcCount +
    weight Consumer.rank p.consumers

section Rank

variable {p p' : Provide} {poolSize jobs jobs' : Nat} {a : Act}

theorem rank_next_le (issued left : Nat) : (Waiter.next left).rank issued ≤ 5 * left + 1 := by
  unfold Waiter.next
  split
  · exact Nat.zero_le _
  · exact Nat.le_refl _

theorem rank_lt_of_waiter {waiter : Waiter} {done : Int32} {closed : Bool}
    {queue received : List PeerId}
    (hwaiter : waiter.rank p.rpcCount + 2 * queue.length <
      p.waiter.rank p.rpcCount + 2 * p.doneChan.length) :
    { p with
      putProvDone := done, closed := closed, doneChan := queue, received := received
      waiter := waiter }.rank < p.rank := by
  unfold Provide.rank
  dsimp only
  omega

theorem rank_lt_of_consumer {c : Nat} {old new : Consumer} {done : Int32} {closed : Bool}
    {queue received : List PeerId} (hc : p.consumers[c]? = some old)
    (hqueue : queue.length ≤ p.doneChan.length) (hconsumer : new.rank < old.rank) :
    { p with
      putProvDone := done, closed := closed, doneChan := queue, received := received
      consumers := p.consumers.set c new }.rank < p.rank := by
  have hset := weight_set rank hc new
  unfold Provide.rank
  dsimp only
  omega

/-- A step of a provide lowers its rank. -/
theorem rank_lt (h : Sound p) (ha : a.isOwn = true) (hmove : Move poolSize p jobs a p' jobs') :
    p'.rank < p.rank := by
  have hqueued {pid : PeerId} {queue : List PeerId} (hqueue : p.doneChan = pid :: queue) :
      queue.length + 1 = p.doneChan.length := by
    rw [hqueue]
    rfl
  cases hmove with
  | stopFn | lookup => cases ha
  | @rpc j _ pid _ hj =>
    have hset : weight (fun q : Put => q.stage.rank) (p.puts.set j ⟨pid, .sends⟩) + 4 =
        weight (fun q : Put => q.stage.rank) p.puts + 3 := weight_set _ hj _
    unfold Provide.rank
    dsimp only
    omega
  | sendPanics hj hclosed => exact absurd hclosed (h.unclosed_of_sends hj)
  | @send j pid hj hroom =>
    have hset : weight (fun q : Put => q.stage.rank) (p.puts.set j ⟨pid, .ended⟩) + 3 =
        weight (fun q : Put => q.stage.rank) p.puts + 0 := weight_set _ hj _
    unfold Provide.rank
    dsimp only
    rw [length_append, length_singleton]
    omega
  | collect hwaiter hqueue =>
    have hlength := hqueued hqueue
    refine rank_lt_of_waiter ?_
    rw [hwaiter]
    show 5 * p.rpcCount + 3 + _ < 5 * p.rpcCount + 2 + _
    omega
  | collectClosed hwaiter hclosed =>
    have hopen := (h.collecting (.inl hwaiter)).unclosed
    exact absurd (hopen.symm.trans hclosed) Bool.false_ne_true
  | countLast hwaiter hlast =>
    refine rank_lt_of_waiter (Nat.add_lt_add_right ?_ _)
    have hnext := rank_next_le p.rpcCount (p.rpcCount - (p.putProvDone + 1).toInt).toNat
    rw [hwaiter]
    show (Waiter.next (p.rpcCount - (p.putProvDone + 1).toInt).toNat).rank p.rpcCount <
      5 * p.rpcCount + 3
    -- no more iterations than RPCs
    omega
  | count hwaiter hmore | countRestLast hwaiter hlast =>
    refine rank_lt_of_waiter (Nat.add_lt_add_right ?_ _)
    rw [hwaiter]
    exact Nat.lt_succ_self _
  | @lease left hwaiter hfree =>
    have hleft := (h.leasing hwaiter).1
    have hnext := rank_next_le p.rpcCount (left - 1)
    unfold Provide.rank
    dsimp only
    rw [hwaiter, weight_append]
    show _ + _ + _ + (_ + 4) < _ + _ + (5 * left + 1) + _
    omega
  | @drain left _ _ hwaiter hqueue =>
    have hlength := hqueued hqueue
    have hleft := (h.leasing hwaiter).1
    refine rank_lt_of_waiter ?_
    rw [hwaiter]
    show 5 * (left - 1) + 3 + _ < 5 * left + 1 + _
    omega
  | @drainClosed left hwaiter hclosed =>
    have hleft := (h.leasing hwaiter).1
    refine rank_lt_of_waiter (Nat.add_lt_add_right ?_ _)
    rw [hwaiter]
    show 5 * (left - 1) + 3 < 5 * left + 1
    omega
  | @countRest left hwaiter hmore =>
    have hnext := rank_next_le p.rpcCount left
    refine rank_lt_of_waiter (Nat.add_lt_add_right ?_ _)
    rw [hwaiter]
    show _ < 5 * left + 3
    omega
  | @close left hwaiter =>
    have hnext := rank_next_le p.rpcCount left
    obtain ⟨hclose, -⟩ := h.close_eq (Nat.lt_add_right _ (by rw [hwaiter]; exact Nat.one_pos))
    rw [hclose]
    refine rank_lt_of_waiter (Nat.add_lt_add_right ?_ _)
    rw [hwaiter]
    show (Waiter.next left).rank p.rpcCount < 5 * left + 2
    omega
  | consume hc hqueue =>
    have hlength := hqueued hqueue
    exact rank_lt_of_consumer hc (by omega) (by decide)
  | consumeClosed hc hclosed => exact absurd hclosed (h.unclosed_of_receives hc)
  | release hc hjobs | countForLast hc hlast | countFor hc hmore =>
    exact rank_lt_of_consumer hc (Nat.le_refl _) (by decide)
  | @closeFor c hc =>
    have hcloses : weight closing (p.consumers.set c .ended) + 1 =
        weight closing p.consumers + 0 := weight_set _ hc _
    obtain ⟨hclose, -⟩ := h.close_eq (by omega)
    rw [hclose]
    exact rank_lt_of_consumer hc (Nat.le_refl _) (by decide)

end Rank

/-! ## The end of a provide -/

structure Finished (p : Provide) : Prop where
  puts : ∀ q ∈ p.puts, q.stage = .ended
  received : p.received.Perm (p.puts.map Put.pid)
  consumers : ∀ c ∈ p.consumers, c = .ended

def Enabled (poolSize jobs : Nat) (p : Provide) : Prop :=
  ∃ a : Act, a.isOwn = true ∧ (p.step poolSize a jobs).isSome = true

section Progress

variable {p : Provide} {poolSize jobs c j left : Nat} {pid : PeerId} {queue : List PeerId}

theorem enabled_of_calls (hj : p.puts[j]? = some ⟨pid, .calls⟩) : Enabled poolSize jobs p := by
  refine ⟨.rpc j false, rfl, ?_⟩
  rw [Provide.step, hj]
  rfl

theorem enabled_of_sends (h : Sound p) (hj : p.puts[j]? = some ⟨pid, .sends⟩)
    (hqueue : p.doneChan = []) : Enabled poolSize jobs p := by
  have hroom : p.doneChan.length < p.capacity := by
    rw [hqueue]
    exact h.delivers.capacity_pos
  refine ⟨.send j, rfl, ?_⟩
  rw [Provide.step, hj]
  show (if p.closed = true then _ else if p.doneChan.length < p.capacity then _ else _ :
    Option (Provide × Nat)).isSome = true
  rw [if_neg (h.unclosed_of_sends hj), if_pos hroom]
  rfl

theorem enabled_of_counts (hwaiter : p.waiter = .counts) : Enabled poolSize jobs p := by
  refine ⟨.count, rfl, ?_⟩
  rw [Provide.step, hwaiter]
  dsimp only
  split
  · rfl
  · rfl

theorem enabled_of_countsRest (hwaiter : p.waiter = .countsRest left) :
    Enabled poolSize jobs p := by
  refine ⟨.countRest, rfl, ?_⟩
  rw [Provide.step, hwaiter]
  dsimp only
  split
  · rfl
  · rfl

theorem enabled_of_closes (hwaiter : p.waiter = .closes left) : Enabled poolSize jobs p := by
  refine ⟨.close, rfl, ?_⟩
  rw [Provide.step, hwaiter]
  rfl

theorem enabled_of_consumer {old : Consumer} (hheld : p.held ≤ jobs)
    (hc : p.consumers[c]? = some old) (hreceives : old ≠ .receives) (hended : old ≠ .ended) :
    Enabled poolSize jobs p := by
  cases old with
  | receives => exact absurd rfl hreceives
  | releases =>
    have hle : 1 ≤ p.held := le_weight leased hc
    refine ⟨.release c, rfl, ?_⟩
    rw [Provide.step, hc]
    show (if 0 < jobs then _ else none : Option (Provide × Nat)).isSome = true
    rw [if_pos (by omega)]
    rfl
  | counts =>
    refine ⟨.countFor c, rfl, ?_⟩
    rw [Provide.step, hc]
    dsimp only
    split
    · rfl
    · rfl
  | closes =>
    refine ⟨.closeFor c, rfl, ?_⟩
    rw [Provide.step, hc]
    rfl
  | ended => exact absurd rfl hended

theorem enabled_of_queue (h : Sound p) (hlookup : p.waiter ≠ .lookup)
    (hqueue : p.doneChan = pid :: queue) : Enabled poolSize jobs p := by
  have hreceive :
      p.receive = some ({ p with doneChan := queue, received := p.received ++ [pid] }, true) := by
    unfold Provide.receive
    rw [hqueue]
  have hphase := h.phase
  rcases hwaiter : p.waiter with _ | _ | _ | left | left | left | _
  · exact absurd hwaiter hlookup
  · refine ⟨.collect, rfl, ?_⟩
    rw [Provide.step, hwaiter, hreceive]
    rfl
  · exact enabled_of_counts hwaiter
  · refine ⟨.drain, rfl, ?_⟩
    rw [Provide.step, hwaiter, hreceive]
    rfl
  · exact enabled_of_countsRest hwaiter
  · exact enabled_of_closes hwaiter
  · -- every iteration has started a consumer or received a completion
    rw [hwaiter] at hphase
    cases hphase with
    | returned hleases =>
      have howed := hleases.owed
      have hlt := (h.delivers.receive hqueue).2
      have hpos : 0 < weight pending p.consumers := by omega
      obtain ⟨c, old, hc, hpending⟩ := exists_of_weight_pos pending hpos
      cases old with
      | receives =>
        refine ⟨.consume c, rfl, ?_⟩
        rw [Provide.step, hc]
        show (p.receive.map _).isSome = true
        rw [hreceive]
        rfl
      | releases | counts | closes | ended => cases hpending

theorem sent_of_ended (h : ∀ q ∈ p.puts, q.stage = .ended) : p.sent = p.puts.map Put.pid := by
  rw [← filterMap_eq_map]
  refine filterMap_congr fun q hq => ?_
  show (if q.stage = .ended then some q.pid else none) = some q.pid
  rw [if_pos (h q hq)]

theorem finished_or_enabled (h : Sound p) (hlookup : p.waiter ≠ .lookup) (hheld : p.held ≤ jobs) :
    Finished p ∨ Enabled poolSize jobs p := by
  by_cases henabled : Enabled poolSize jobs p
  · exact .inr henabled
  · have hqueue : p.doneChan = [] := by
      cases hqueue : p.doneChan with
      | nil => rfl
      | cons pid queue => exact absurd (enabled_of_queue h hlookup hqueue) henabled
    have hputs : ∀ q ∈ p.puts, q.stage = .ended := by
      rintro ⟨pid, stage⟩ hq
      obtain ⟨j, hj⟩ := mem_iff_getElem?.mp hq
      cases stage with
      | calls => exact absurd (enabled_of_calls hj) henabled
      | sends => exact absurd (enabled_of_sends h hj hqueue) henabled
      | ended => rfl
    have hreceived : p.received.Perm (p.puts.map Put.pid) := by
      have hsent := h.delivers.sent
      rw [hqueue, append_nil, sent_of_ended hputs] at hsent
      exact hsent
    refine .inl ⟨hputs, hreceived, fun old hold => ?_⟩
    obtain ⟨c, hc⟩ := mem_iff_getElem?.mp hold
    by_contra hended
    refine henabled (enabled_of_consumer hheld hc ?_ hended)
    rintro rfl
    -- nothing is missing that it could wait for
    have hpending := h.pending_le
    have hone : 1 ≤ weight pending p.consumers := le_weight pending hc
    have hlength := hreceived.length_eq
    rw [length_map] at hlength
    omega

end Progress

/-! ## The end of all provides -/

def Event.isOwn : Event → Bool
  | start _ _ => false
  | act _ a => a.isOwn

/-- What is true of the completions of a provide at any time: each of them is received at most once,
and the channel is closed at most once and after the last of them. -/
structure Accounts (p : Provide) : Prop where
  once : (p.received ++ p.doneChan).Nodup
  sent : ∀ pid ∈ p.received ++ p.doneChan, ⟨pid, .ended⟩ ∈ p.puts
  closed : p.closed = true → p.received.Perm (p.puts.map Put.pid)
  intact : p.panicked = false

theorem mem_sent {p : Provide} {pid : PeerId} : pid ∈ p.sent ↔ ⟨pid, .ended⟩ ∈ p.puts := by
  have hpid (q : Put) : q.completion = some pid ↔ q = ⟨pid, .ended⟩ := by
    obtain ⟨pid', stage⟩ := q
    cases stage with
    | calls | sends => simp [Put.completion]
    | ended => simp [Put.completion]
  rw [Provide.sent, mem_filterMap]
  constructor
  · rintro ⟨q, hq, hsome⟩
    exact (hpid q).mp hsome ▸ hq
  · intro hq
    exact ⟨_, hq, (hpid _).mpr rfl⟩

theorem sent_sublist (p : Provide) : p.sent.Sublist (p.puts.map Put.pid) := by
  unfold Provide.sent
  induction p.puts with
  | nil => exact List.Sublist.refl _
  | cons q puts ih =>
    by_cases hended : q.stage = .ended
    · have hsome : q.completion = some q.pid := if_pos hended
      rw [filterMap_cons_some hsome]
      exact ih.cons_cons q.pid
    · have hnone : q.completion = none := if_neg hended
      rw [filterMap_cons_none hnone]
      exact ih.cons q.pid

theorem Sound.accounts {p : Provide} (h : Sound p) : Accounts p := by
  have hsent := h.delivers.sent
  refine ⟨?_, fun pid hpid => mem_sent.mp (hsent.mem_iff.mp hpid), fun hclosed => ?_, h.intact⟩
  · exact hsent.nodup_iff.mpr (h.delivers.nodup.sublist (sent_sublist p))
  · -- all of them were received, so none is in the queue
    have hall := h.complete hclosed
    have hlength := h.delivers.length_sent
    have hle := Delivers.length_sent_le p
    have hqueue : p.doneChan = [] := length_eq_zero_iff.mp (by omega)
    have hpids : p.sent = p.puts.map Put.pid :=
      (sent_sublist p).eq_of_length (by rw [length_map]; omega)
    rw [hqueue, append_nil, hpids] at hsent
    exact hsent

namespace World

variable {poolSize : Nat} {w w' : World} {es : List Event}

def rank (w : World) : Nat := weight Provide.rank w.provides

theorem rank_lt {e : Event} (h : Sound w) (he : e.isOwn = true)
    (hstep : step poolSize e w = some w') : w'.rank + 1 ≤ w.rank := by
  cases e with
  | start => cases he
  | act i a =>
    obtain ⟨p, p', jobs', hi, hmove, rfl⟩ := act_cases hstep
    have hlt := Optimistic.rank_lt (h.provides p (mem_of_getElem? hi)) he hmove
    have hset := weight_set Provide.rank hi p'
    show weight Provide.rank (w.provides.set i p') + 1 ≤ weight Provide.rank w.provides
    omega

/-- No provide can take a step by itself. -/
def Quiet (poolSize : Nat) (w : World) : Prop :=
  ∀ e : Event, e.isOwn = true → step poolSize e w = none

theorem finished_of_quiet (h : Sound w) (hquiet : Quiet poolSize w) :
    w.jobs = 0 ∧ ∀ p ∈ w.provides, p.waiter ≠ .lookup → Finished p := by
  have hfinished : ∀ p ∈ w.provides, p.waiter ≠ .lookup → Finished p := by
    intro p hp hlookup
    obtain ⟨i, hi⟩ := mem_iff_getElem?.mp hp
    have hheld : p.held ≤ w.jobs := h.jobs ▸ le_weight Provide.held hi
    have hend : Finished p ∨ Enabled poolSize w.jobs p :=
      finished_or_enabled (h.provides p hp) hlookup hheld
    rcases hend with hfinished | ⟨a, ha, hstep⟩
    · exact hfinished
    · obtain ⟨r, hr⟩ := Option.isSome_iff_exists.mp hstep
      have hnone := hquiet (.act i a) ha
      rw [step, hi] at hnone
      dsimp only at hnone
      rw [hr] at hnone
      cases hnone
  refine ⟨?_, hfinished⟩
  rw [h.jobs]
  refine (weight_eq_zero_iff _).mpr fun p hp => (weight_eq_zero_iff _).mpr fun c hc => ?_
  by_cases hlookup : p.waiter = .lookup
  · have hphase := (h.provides p hp).phase
    rw [hlookup] at hphase
    cases hphase with
    | lookup hconsumers =>
      rw [hconsumers] at hc
      cases hc
  · rw [(hfinished p hp hlookup).consumers c hc]
    rfl

/-- **The accounts.** In every state of every run each completion is received at most once, the
channel is closed at most once and after the last completion, and the leases in the pool are those
that are held. From there the provides take a bounded number of steps by themselves, in any order;
when none is possible any more, all completions are received and all leases are released. -/
theorem settles_run (hrun : Trace.run (step poolSize) es new = some w) :
    (∀ p ∈ w.provides, Accounts p) ∧ w.jobs = weight Provide.held w.provides ∧
      (∀ es' w', (∀ e ∈ es', e.isOwn = true) → Trace.run (step poolSize) es' w = some w' →
        es'.length ≤ w.rank) ∧
      (Quiet poolSize w → w.jobs = 0 ∧ ∀ p ∈ w.provides, p.waiter ≠ .lookup → Finished p) := by
  have hsound := sound_run sound_new hrun
  refine ⟨fun p hp => (hsound.provides p hp).accounts, hsound.jobs, fun es' w' hown hrun' => ?_,
    finished_of_quiet hsound⟩
  have hcount : es'.countP (fun _ => true) + w'.rank ≤ w.rank := countP_le rank
    (fun e he w1 w2 h hstep => ⟨sound_step h hstep, rank_lt h (hown e he) hstep⟩) hsound hrun'
  rw [countP_true] at hcount
  omega

end World

/-! ## The first loop -/

structure Stuck (poolSize jobs : Nat) (p : Provide) : Prop where
  waits : p.waiter = .collects ∨ (∃ left, p.waiter = .leases left) ∧ ¬ jobs < poolSize
  puts : ∀ q ∈ p.puts, q.stage = .ended
  queue : p.doneChan = []
  unclosed : p.closed = false

section FirstLoop

variable {p p' : Provide} {poolSize jobs jobs' i : Nat} {a : Act} {w w' : World} {es : List Event}

/-- The number of RPCs and the threshold are fixed when the lookup has returned. -/
structure Same (p p' : Provide) : Prop where
  waiter : p'.waiter ≠ .lookup
  issued : p'.puts.length = p.puts.length
  capacity : p'.capacity = p.capacity

theorem next_ne_lookup (left : Nat) : Waiter.next left ≠ .lookup := by
  unfold Waiter.next
  split
  · exact Waiter.noConfusion
  · exact Waiter.noConfusion

theorem close_same (p : Provide) : p.close.puts = p.puts ∧ p.close.capacity = p.capacity ∧
    p.close.waiter = p.waiter := by
  unfold Provide.close
  split
  · exact ⟨rfl, rfl, rfl⟩
  · exact ⟨rfl, rfl, rfl⟩

theorem same_of_move (hlookup : p.waiter ≠ .lookup) (hmove : Move poolSize p jobs a p' jobs') :
    Same p p' := by
  cases hmove with
  | stopFn hwaiter | lookup hwaiter => exact absurd hwaiter hlookup
  | rpc | send => exact ⟨hlookup, length_set .., rfl⟩
  | sendPanics | consume | consumeClosed | release | countForLast | countFor =>
    exact ⟨hlookup, rfl, rfl⟩
  | collect | count | drain | drainClosed | countRestLast => exact ⟨Waiter.noConfusion, rfl, rfl⟩
  | collectClosed | countLast | lease | countRest => exact ⟨next_ne_lookup _, rfl, rfl⟩
  | close =>
    obtain ⟨hputs, hcapacity, -⟩ := close_same p
    exact ⟨next_ne_lookup _, congrArg length hputs, hcapacity⟩
  | closeFor =>
    obtain ⟨hputs, hcapacity, hwaiter⟩ := close_same p
    exact ⟨hwaiter ▸ hlookup, congrArg length hputs, hcapacity⟩

theorem same_step {e : Event} {p0 : Provide} (hi : w.provides[i]? = some p) (hsame : Same p0 p)
    (hstep : step poolSize e w = some w') :
    ∃ p', w'.provides[i]? = some p' ∧ Same p0 p' := by
  cases e with
  | start returnThreshold hpos =>
    cases hstep
    exact ⟨p, List.getElem?_append_left (List.getElem?_eq_some_iff.mp hi).1 ▸ hi, hsame⟩
  | act j a =>
    obtain ⟨q, q', jobs', hj, hmove, rfl⟩ := act_cases hstep
    by_cases hij : j = i
    · subst hij
      cases hi.symm.trans hj
      have hnext := same_of_move hsame.waiter hmove
      exact ⟨q', getElem?_set_at hj, hnext.waiter, hnext.issued.trans hsame.issued,
        hnext.capacity.trans hsame.capacity⟩
    · exact ⟨p, (List.getElem?_set_ne hij).trans hi, hsame⟩

/-- The counter gets to the threshold. -/
theorem not_stuck (h : Sound p) (hissued : 0 < p.puts.length)
    (hsmall : min p.capacity p.puts.length < 2 ^ 31) : ¬ Stuck poolSize jobs p := by
  intro hstuck
  have hcapacity := h.delivers.capacity_pos
  have hreceived : p.received.length = p.puts.length := by
    have hlength := h.delivers.length_sent
    rw [hstuck.queue, sent_of_ended hstuck.puts, length_map] at hlength
    exact hlength
  rcases hstuck.waits with hwaiter | ⟨⟨left, hwaiter⟩, -⟩
  · -- it was there when as many completions were counted
    have hcollects := h.collecting (.inl hwaiter)
    have hthreshold := hcollects.threshold
    refine hcollects.missed p.returnThreshold (by omega) ?_ (Int32.toInt_ofNat_of_lt (by omega))
    rw [hwaiter]
    show p.returnThreshold + 0 ≤ p.received.length
    omega
  · obtain ⟨hleft, hleases⟩ := h.leasing hwaiter
    have howed := hleases.owed
    omega

/-- The first loop goes on until nothing is left to receive, if the counter does not get to the
threshold. -/
theorem stuck_or_enabled (h : Sound p) (hlookup : p.waiter ≠ .lookup) (hheld : p.held ≤ jobs)
    (hcond : ¬ (0 < p.puts.length ∧ min p.capacity p.puts.length < 2 ^ 31)) :
    Stuck poolSize jobs p ∨ Enabled poolSize jobs p := by
  have hnot {left : Nat} (hleases : Leases p left) : False := by
    have hreached := hleases.reached
    have hthreshold := hleases.threshold
    omega
  have hphase := h.phase
  rcases hwaiter : p.waiter with _ | _ | _ | left | left | left | _
  all_goals
    rw [hwaiter] at hphase
    cases hphase
  · exact absurd hwaiter hlookup
  · next hcollects =>
    refine (finished_or_enabled h hlookup hheld).imp_left fun hfinished => ?_
    have hlength := hfinished.received.length_eq
    have hsent := h.delivers.length_sent
    have hle := Delivers.length_sent_le p
    rw [length_map] at hlength
    exact ⟨.inl hwaiter, hfinished.puts, length_eq_zero_iff.mp (by omega), hcollects.unclosed⟩
  · exact .inr (enabled_of_counts hwaiter)
  · next hleases => exact (hnot hleases).elim
  · next hleases => exact (hnot hleases).elim
  · next hleases => exact (hnot hleases).elim
  · next hleases => exact (hnot hleases).elim

/-- The `i`-th provide goes on, with the RPCs and the threshold that are given. -/
structure Watched (i : Nat) (p : Provide) (w : World) : Prop where
  sound : w.Sound
  same : ∃ q, w.provides[i]? = some q ∧ Same p q

theorem watched_step {e : Event} (h : Watched i p w) (hstep : step poolSize e w = some w') :
    Watched i p w' := by
  obtain ⟨q, hq, hsame⟩ := h.same
  exact ⟨World.sound_step h.sound hstep, same_step hq hsame hstep⟩

def StuckAt (poolSize i : Nat) (w : World) : Prop :=
  ∃ p, w.provides[i]? = some p ∧ Stuck poolSize w.jobs p

theorem exists_stuck (h : Watched i p w)
    (hcond : ¬ (0 < p.puts.length ∧ min p.capacity p.puts.length < 2 ^ 31)) :
    ∃ es w', (∀ e ∈ es, e.isOwn = true) ∧ Trace.run (step poolSize) es w = some w' ∧
      Watched i p w' ∧ StuckAt poolSize i w' := by
  refine exists_run rank (fun w1 hwatched hfinal => ?_) h
  obtain ⟨q, hq, hsame⟩ := hwatched.same
  have hheld : q.held ≤ w1.jobs := hwatched.sound.jobs ▸ le_weight Provide.held hq
  have hend : Stuck poolSize w1.jobs q ∨ Enabled poolSize w1.jobs q := by
    refine stuck_or_enabled (hwatched.sound.provides q (mem_of_getElem? hq)) hsame.waiter hheld ?_
    rw [hsame.issued, hsame.capacity]
    exact hcond
  rcases hend with hstuck | ⟨a, ha, hstep⟩
  · exact absurd ⟨q, hq, hstuck⟩ hfinal
  · obtain ⟨r, hr⟩ := Option.isSome_iff_exists.mp hstep
    have hact : step poolSize (.act i a) w1 = some ⟨r.2, w1.provides.set i r.1⟩ := by
      rw [step, hq]
      exact congrArg (Option.map _) hr
    exact ⟨.act i a, _, ha, hact, watched_step hwatched hact,
      World.rank_lt (e := .act i a) hwatched.sound ha hact⟩

/-- No continuation leaves `waitForRPCs` blocked with no completion left to arrive. -/
def NeverStuck (poolSize i : Nat) (w : World) : Prop :=
  ∀ es w', Trace.run (World.step poolSize) es w = some w' → ¬ StuckAt poolSize i w'

/-- **`waitForRPCs` gives control back** exactly if an RPC was issued, and the threshold is in the
range of the counter. -/
theorem neverStuck_iff (hrun : Trace.run (World.step poolSize) es .new = some w)
    (hi : w.provides[i]? = some p) (hlookup : p.waiter ≠ .lookup) :
    NeverStuck poolSize i w ↔ 0 < p.puts.length ∧ min p.capacity p.puts.length < 2 ^ 31 := by
  have hwatched : Watched i p w := ⟨World.sound_run World.sound_new hrun, p, hi, hlookup, rfl, rfl⟩
  constructor
  · intro hnever
    by_contra hcond
    obtain ⟨es', w', -, hrun', -, hstuck⟩ := exists_stuck hwatched hcond
    exact hnever es' w' hrun' hstuck
  · rintro ⟨hissued, hsmall⟩ es' w' hrun' ⟨p', hi', hstuck⟩
    have hwatched' : Watched i p w' :=
      invariant (fun _ _ _ _ h hstep => watched_step h hstep) hwatched hrun'
    obtain ⟨q, hq, hsame⟩ := hwatched'.same
    cases hi'.symm.trans hq
    refine not_stuck (hwatched'.sound.provides p' (mem_of_getElem? hi')) ?_ ?_ hstuck
    · rw [hsame.issued]
      exact hissued
    · rw [hsame.issued, hsame.capacity]
      exact hsmall

/-! ## A provide without peers, and with one -/

def noPeers : List Event := [.start 15 (by decide), .act 0 (.lookup [])]

theorem not_neverStuck_noPeers : ∃ w, Trace.run (World.step 60) noPeers .new = some w ∧
    ¬ NeverStuck 60 0 w := by
  refine ⟨_, rfl, fun hnever => hnever [] _ rfl ⟨_, rfl, .inl rfl, fun q hq => ?_, rfl, rfl⟩⟩
  cases hq

def onePeer : List Event := [.start 15 (by decide), .act 0 (.lookup [[2]])]

theorem neverStuck_iff_onePeer : ∃ w p, Trace.run (World.step 60) onePeer .new = some w ∧
    w.provides[0]? = some p ∧ p.puts.length = 1 ∧ NeverStuck 60 0 w := by
  have hrun : run (step 60) onePeer .new =
      some ⟨0, [(Provide.schedule (.new 15) [2]).waitForRPCs]⟩ := rfl
  exact ⟨_, _, hrun, rfl, rfl, (neverStuck_iff hrun rfl Waiter.noConfusion).mpr
    ⟨by decide, by decide⟩⟩

/-- The threshold is one of two RPCs. `waitForRPCs` takes a lease for the other one and returns. -/
def leaseTaken : List Event :=
  [.start 1 Nat.one_pos, .act 0 (.lookup [[2], [3]]), .act 0 (.rpc 0 false), .act 0 (.send 0),
    .act 0 .collect, .act 0 .count, .act 0 .lease]

/-- The goroutine that holds the lease waits for the completion, and closes the channel. -/
def leaseReleased : List Event :=
  [.act 0 (.rpc 1 false), .act 0 (.send 1), .act 0 (.consume 0), .act 0 (.release 0),
    .act 0 (.countFor 0), .act 0 (.closeFor 0)]

theorem settles_run_lease : ∃ w w', Trace.run (step 60) leaseTaken new = some w ∧
    w.jobs = 1 ∧ w.jobs = weight Provide.held w.provides ∧ (∀ p ∈ w.provides, Accounts p) ∧
    Trace.run (step 60) leaseReleased w = some w' ∧ leaseReleased.length ≤ w.rank ∧
    w'.jobs = 0 ∧ ∀ p ∈ w'.provides, Finished p := by
  have htaken : run (step 60) leaseTaken new = some _ := rfl
  have hreleased : run (step 60) (leaseTaken ++ leaseReleased) new = some _ := rfl
  obtain ⟨haccounts, hjobs, hbound, -⟩ := settles_run htaken
  obtain ⟨-, -, -, hend⟩ := settles_run hreleased
  obtain ⟨hzero, hfinished⟩ := hend fun e he => by
    cases e with
    | start => cases he
    | act i a =>
      rcases i with _ | i
      · cases a with
        | stopFn | lookup => cases he
        | rpc j | send j => rcases j with _ | _ | j <;> rfl
        | consume c | release c | countFor c | closeFor c => rcases c with _ | c <;> rfl
        | collect | count | lease | drain | countRest | close => rfl
      · rfl
  refine ⟨_, _, htaken, rfl, hjobs, haccounts, rfl, hbound _ _ (by decide) rfl, hzero,
    fun p hp => hfinished p hp ?_⟩
  rw [mem_singleton.mp hp]
  exact Waiter.noConfusion

end FirstLoop

end KadDht.Optimistic
