import KadDht.Keyspace.Key
import KadDht.Lib.Exclusive
import KadDht.Lib.Trace
import KadDht.Lib.Weight

/-!
# Optimistic — the RPCs of an optimistic provide (`lookup_optim.go`)

An optimistic provide sends provider records while its lookup is still running, and to the rest of
the closest peers afterwards. Every RPC reports its completion on `doneChan`. `waitForRPCs` counts
the completions up to a threshold, and for the remaining ones it takes leases of a pool that all
provides share: a lease is held by a goroutine that waits for one completion. Whoever counts the
last completion closes the channel.
-/

namespace KadDht.Optimistic

/-! ## Model -/

inductive RpcState where
  | scheduled
  | success
  | failure
deriving DecidableEq

inductive Stage where
  /-- `PutProviderAddrs` -/
  | calls
  /-- The state of the peer is stored, and the completion is sent. -/
  | sends
  | ended
deriving DecidableEq

structure Put where
  pid : PeerId
  stage : Stage
deriving DecidableEq

inductive Waiter where
  /-- `runLookupWithFollowup` -/
  | lookup
  /-- `waitForRPCs` waits in its first loop. -/
  | collects
  /-- It has received a completion there, and counts it. -/
  | counts
  /-- It is at the `select` of its second loop, with the iterations that are left. -/
  | leases (left : Nat)
  /-- It has received a completion there, and counts it. -/
  | countsRest (left : Nat)
  /-- It closes `doneChan`. -/
  | closes (left : Nat)
  /-- `waitForRPCs` has returned. -/
  | returned
deriving DecidableEq

def Waiter.next (left : Nat) : Waiter := if left = 0 then returned else leases left

inductive Consumer where
  | receives
  | releases
  | counts
  | closes
  | ended
deriving DecidableEq

/-- An optimistic provide: `optimisticState` and its goroutines. -/
structure Provide where
  peerStates : List (PeerId × RpcState)
  returnThreshold : Nat
  /-- The room of `doneChan`, which is the threshold that it was made with. -/
  capacity : Nat
  /-- The completions in `doneChan`, with the peers they are about. -/
  doneChan : List PeerId
  closed : Bool
  putProvDone : Int32
  puts : List Put
  waiter : Waiter
  rpcCount : Nat
  consumers : List Consumer
  /-- The completions that were received so far. -/
  received : List PeerId
  /-- Something was sent on the closed channel, or it was closed twice. -/
  panicked : Bool

namespace Provide

/-- `newOptimisticState`. The threshold is three quarters of the bucket size, rounded up. -/
def new (returnThreshold : Nat) : Provide where
  peerStates := []
  returnThreshold := returnThreshold
  capacity := returnThreshold
  doneChan := []
  closed := false
  putProvDone := 0
  puts := []
  waiter := .lookup
  rpcCount := 0
  consumers := []
  received := []
  panicked := false

/-- A record is sent to a peer, unless that was done before. -/
def schedule (p : Provide) (pid : PeerId) : Provide :=
  if (p.peerStates.find? (·.1 = pid)).isSome then p
  else
    { p with
      peerStates := p.peerStates ++ [(pid, .scheduled)]
      puts := p.puts ++ [⟨pid, .calls⟩] }

def waitForRPCs (p : Provide) : Provide :=
  { p with
    rpcCount := p.peerStates.length
    returnThreshold :=
      if p.returnThreshold > p.peerStates.length then p.peerStates.length else p.returnThreshold
    waiter := .collects }

def rest (p : Provide) : Provide :=
  { p with waiter := .next (p.rpcCount - p.putProvDone.toInt).toNat }

/-- A receive from `doneChan`, and whether there was something to receive: a closed channel is
received from without end. -/
def receive (p : Provide) : Option (Provide × Bool) :=
  match p.doneChan with
  | pid :: queue => some ({ p with doneChan := queue, received := p.received ++ [pid] }, true)
  | [] => if p.closed then some (p, false) else none

def close (p : Provide) : Provide :=
  if p.closed then { p with panicked := true } else { p with closed := true }

end Provide

inductive Act where
  /-- `stopFn` finds peers that are close enough. -/
  | stopFn (peers : List PeerId)
  /-- The lookup returns, and `waitForRPCs` is called. -/
  | lookup (peers : List PeerId)
  /-- `PutProviderAddrs` returns. -/
  | rpc (j : Nat) (failed : Bool)
  | send (j : Nat)
  | collect
  | count
  | lease
  | drain
  | countRest
  | close
  | consume (c : Nat)
  | release (c : Nat)
  | countFor (c : Nat)
  | closeFor (c : Nat)

/-- The steps that a provide takes by itself, once its RPCs are sent. -/
def Act.isOwn : Act → Bool
  | stopFn _ => false
  | lookup _ => false
  | _ => true

namespace Provide

/-- The step of a provide. The number of leases in `optProvJobsPool` is passed along. -/
def step (poolSize : Nat) : Act → Provide → Nat → Option (Provide × Nat)
  | .stopFn peers, p, jobs =>
    match p.waiter with
    | .lookup => some (peers.foldl schedule p, jobs)
    | _ => none
  | .lookup peers, p, jobs =>
    match p.waiter with
    | .lookup => some ((peers.foldl schedule p).waitForRPCs, jobs)
    | _ => none
  | .rpc j failed, p, jobs =>
    match p.puts[j]? with
    | some ⟨pid, .calls⟩ =>
      let state := if failed then RpcState.failure else .success
      some ({ p with
        peerStates := p.peerStates.map fun e => if e.1 = pid then (pid, state) else e
        puts := p.puts.set j ⟨pid, .sends⟩ }, jobs)
    | _ => none
  | .send j, p, jobs =>
    match p.puts[j]? with
    | some ⟨pid, .sends⟩ =>
      if p.closed then some ({ p with panicked := true }, jobs)
      else if p.doneChan.length < p.capacity then
        some ({ p with
          doneChan := p.doneChan ++ [pid]
          puts := p.puts.set j ⟨pid, .ended⟩ }, jobs)
      else none
    | _ => none
  | .collect, p, jobs =>
    match p.waiter with
    | .collects =>
      p.receive.map fun r =>
        -- the loop ends when the channel is closed
        (if r.2 then { r.1 with waiter := .counts } else r.1.rest, jobs)
    | _ => none
  | .count, p, jobs =>
    match p.waiter with
    | .counts =>
      let p := { p with putProvDone := p.putProvDone + 1 }
      if p.putProvDone.toInt = p.returnThreshold then some (p.rest, jobs)
      else some ({ p with waiter := .collects }, jobs)
    | _ => none
  | .lease, p, jobs =>
    match p.waiter with
    | .leases left =>
      if jobs < poolSize then
        some ({ p with
          waiter := .next (left - 1)
          consumers := p.consumers ++ [.receives] }, jobs + 1)
      else none
    | _ => none
  | .drain, p, jobs =>
    match p.waiter with
    | .leases left =>
      p.receive.map fun r => ({ r.1 with waiter := .countsRest (left - 1) }, jobs)
    | _ => none
  | .countRest, p, jobs =>
    match p.waiter with
    | .countsRest left =>
      let p := { p with putProvDone := p.putProvDone + 1 }
      if p.putProvDone.toInt = p.rpcCount then some ({ p with waiter := .closes left }, jobs)
      else some ({ p with waiter := .next left }, jobs)
    | _ => none
  | .close, p, jobs =>
    match p.waiter with
    | .closes left => some ({ p.close with waiter := .next left }, jobs)
    | _ => none
  | .consume c, p, jobs =>
    match p.consumers[c]? with
    | some .receives =>
      p.receive.map fun r =>
        ({ r.1 with consumers := p.consumers.set c .releases }, jobs)
    | _ => none
  | .release c, p, jobs =>
    match p.consumers[c]? with
    | some .releases =>
      if 0 < jobs then some ({ p with consumers := p.consumers.set c .counts }, jobs - 1)
      else none
    | _ => none
  | .countFor c, p, jobs =>
    match p.consumers[c]? with
    | some .counts =>
      let p := { p with putProvDone := p.putProvDone + 1 }
      if p.putProvDone.toInt = p.rpcCount then
        some ({ p with consumers := p.consumers.set c .closes }, jobs)
      else some ({ p with consumers := p.consumers.set c .ended }, jobs)
    | _ => none
  | .closeFor c, p, jobs =>
    match p.consumers[c]? with
    | some .closes => some ({ p.close with consumers := p.consumers.set c .ended }, jobs)
    | _ => none

end Provide

/-- The provides of a node, and how many leases of `optProvJobsPool` are taken. -/
structure World where
  jobs : Nat
  provides : List Provide

inductive Event where
  /-- `optimisticProvide` is called. Buckets are not empty, and neither is three quarters of one. -/
  | start (returnThreshold : Nat) (hpos : 0 < returnThreshold)
  | act (i : Nat) (a : Act)

namespace World

def new : World := ⟨0, []⟩

def step (poolSize : Nat) : Event → World → Option World
  | .start returnThreshold _, w =>
    some { w with provides := w.provides ++ [.new returnThreshold] }
  | .act i a, w =>
    match w.provides[i]? with
    | some p => (p.step poolSize a w.jobs).map fun r => ⟨r.2, w.provides.set i r.1⟩
    | none => none

end World

/-! ## What a step does -/

variable (poolSize : Nat) (p : Provide) (jobs : Nat)

inductive Move : Act → Provide → Nat → Prop where
  | stopFn {peers : List PeerId} (hwaiter : p.waiter = .lookup) :
    Move (.stopFn peers) (peers.foldl .schedule p) jobs
  | lookup {peers : List PeerId} (hwaiter : p.waiter = .lookup) :
    Move (.lookup peers) (peers.foldl .schedule p).waitForRPCs jobs
  | rpc {j : Nat} {failed : Bool} {pid : PeerId} {state : RpcState}
    (hj : p.puts[j]? = some ⟨pid, .calls⟩) :
    Move (.rpc j failed)
      { p with
        peerStates := p.peerStates.map fun e => if e.1 = pid then (pid, state) else e
        puts := p.puts.set j ⟨pid, .sends⟩ } jobs
  | sendPanics {j : Nat} {pid : PeerId} (hj : p.puts[j]? = some ⟨pid, .sends⟩)
    (hclosed : p.closed = true) : Move (.send j) { p with panicked := true } jobs
  | send {j : Nat} {pid : PeerId} (hj : p.puts[j]? = some ⟨pid, .sends⟩)
    (hroom : p.doneChan.length < p.capacity) :
    Move (.send j)
      { p with doneChan := p.doneChan ++ [pid], puts := p.puts.set j ⟨pid, .ended⟩ } jobs
  | collect {pid : PeerId} {queue : List PeerId}
    (hwaiter : p.waiter = .collects) (hqueue : p.doneChan = pid :: queue) :
    Move .collect
      { p with doneChan := queue, received := p.received ++ [pid], waiter := .counts } jobs
  | collectClosed (hwaiter : p.waiter = .collects)
    (hclosed : p.closed = true) : Move .collect p.rest jobs
  | countLast (hwaiter : p.waiter = .counts)
    (hlast : (p.putProvDone + 1).toInt = p.returnThreshold) :
    Move .count { p with putProvDone := p.putProvDone + 1 }.rest jobs
  | count (hwaiter : p.waiter = .counts) (hmore : (p.putProvDone + 1).toInt ≠ p.returnThreshold) :
    Move .count { p with putProvDone := p.putProvDone + 1, waiter := .collects } jobs
  | lease {left : Nat} (hwaiter : p.waiter = .leases left) (hfree : jobs < poolSize) :
    Move .lease
      { p with waiter := .next (left - 1), consumers := p.consumers ++ [.receives] } (jobs + 1)
  | drain {left : Nat} {pid : PeerId} {queue : List PeerId}
    (hwaiter : p.waiter = .leases left) (hqueue : p.doneChan = pid :: queue) :
    Move .drain
      { p with
        doneChan := queue
        received := p.received ++ [pid]
        waiter := .countsRest (left - 1) } jobs
  | drainClosed {left : Nat} (hwaiter : p.waiter = .leases left) (hclosed : p.closed = true) :
    Move .drain { p with waiter := .countsRest (left - 1) } jobs
  | countRestLast {left : Nat} (hwaiter : p.waiter = .countsRest left)
    (hlast : (p.putProvDone + 1).toInt = p.rpcCount) :
    Move .countRest { p with putProvDone := p.putProvDone + 1, waiter := .closes left } jobs
  | countRest {left : Nat} (hwaiter : p.waiter = .countsRest left)
    (hmore : (p.putProvDone + 1).toInt ≠ p.rpcCount) :
    Move .countRest { p with putProvDone := p.putProvDone + 1, waiter := .next left } jobs
  | close {left : Nat} (hwaiter : p.waiter = .closes left) :
    Move .close { p.close with waiter := .next left } jobs
  | consume {c : Nat} {pid : PeerId} {queue : List PeerId}
    (hc : p.consumers[c]? = some .receives) (hqueue : p.doneChan = pid :: queue) :
    Move (.consume c)
      { p with
        doneChan := queue
        received := p.received ++ [pid]
        consumers := p.consumers.set c .releases } jobs
  | consumeClosed {c : Nat} (hc : p.consumers[c]? = some .receives) (hclosed : p.closed = true) :
    Move (.consume c) { p with consumers := p.consumers.set c .releases } jobs
  | release {c : Nat} (hc : p.consumers[c]? = some .releases) (hjobs : 0 < jobs) :
    Move (.release c) { p with consumers := p.consumers.set c .counts } (jobs - 1)
  | countForLast {c : Nat} (hc : p.consumers[c]? = some .counts)
    (hlast : (p.putProvDone + 1).toInt = p.rpcCount) :
    Move (.countFor c)
      { p with putProvDone := p.putProvDone + 1, consumers := p.consumers.set c .closes } jobs
  | countFor {c : Nat} (hc : p.consumers[c]? = some .counts)
    (hmore : (p.putProvDone + 1).toInt ≠ p.rpcCount) :
    Move (.countFor c)
      { p with putProvDone := p.putProvDone + 1, consumers := p.consumers.set c .ended } jobs
  | closeFor {c : Nat} (hc : p.consumers[c]? = some .closes) :
    Move (.closeFor c) { p.close with consumers := p.consumers.set c .ended } jobs

namespace Provide

variable {poolSize p jobs} {a : Act} {p' : Provide} {jobs' : Nat}

theorem receive_cases {ok : Bool} (h : p.receive = some (p', ok)) :
    (ok = true ∧ ∃ pid queue, p.doneChan = pid :: queue ∧
      p' = { p with doneChan := queue, received := p.received ++ [pid] }) ∨
    ok = false ∧ p.closed = true ∧ p' = p := by
  unfold receive at h
  split at h
  · next pid queue hqueue =>
    cases h
    exact .inl ⟨rfl, pid, queue, hqueue, rfl⟩
  · obtain ⟨hclosed, ⟨⟩⟩ := Option.ite_none_right_eq_some.mp h
    exact .inr ⟨rfl, hclosed, rfl⟩

theorem move_of_step (h : p.step poolSize a jobs = some (p', jobs')) :
    Move poolSize p jobs a p' jobs' := by
  cases a with
  | stopFn peers | lookup peers | rpc j failed | close | closeFor c =>
    rw [step] at h
    split at h
    · cases h
      constructor
      assumption
    · cases h
  | send j =>
    rw [step] at h
    split at h
    · next hj =>
      split at h
      · next hclosed => cases h; exact .sendPanics hj hclosed
      · obtain ⟨hroom, ⟨⟩⟩ := Option.ite_none_right_eq_some.mp h
        exact .send hj hroom
    · cases h
  | collect | drain | consume c =>
    rw [step] at h
    split at h
    · obtain ⟨⟨q, ok⟩, hq, heq⟩ := Option.map_eq_some_iff.mp h
      rcases receive_cases hq with ⟨rfl, pid, queue, hqueue, rfl⟩ | ⟨rfl, hclosed, rfl⟩
      · cases heq
        constructor <;> assumption
      · cases heq
        constructor <;> assumption
    · cases h
  | count | countRest | countFor c =>
    rw [step] at h
    split at h
    · dsimp only at h
      split at h <;> cases h <;> constructor <;> assumption
    · cases h
  | lease | release c =>
    rw [step] at h
    split at h
    · obtain ⟨hguard, ⟨⟩⟩ := Option.ite_none_right_eq_some.mp h
      constructor <;> assumption
    · cases h

end Provide

end KadDht.Optimistic
