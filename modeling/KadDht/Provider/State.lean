import KadDht.Keyspace.Closest
import KadDht.Keyspace.Regions
import KadDht.Lib.Simulation
import KadDht.Queue.Provide

/-!
# Provider — configuration, environment and state (`provider/provider.go`)

`SweepingProvider` advertises the keys of a node in the network: it keeps a schedule of keyspace
prefixes to reprovide, a queue of keys to provide and a queue of prefixes whose reprovide is late.

* **`Env`** — what a call gets from outside: the keystore, the router, the message sender, the
  clock. Their answers are arbitrary, and another environment may be given to another call.
* **`State`**, **`View`** — the mutable fields, and what they mean: the *sets* of scheduled and of
  claimed prefixes instead of the tries that hold them, and nothing about the timer.

A method is a program over the state. It returns `none` where the source panics.
-/

namespace KadDht

/-- `time.Duration`: nanoseconds in a signed 64-bit integer, with the wrap-around of Go. -/
abbrev Duration := Int64

abbrev Multiaddr := List UInt8

namespace SweepingProvider

/-! ## Constants -/

def maxPrefixSize : Nat := 24

def individualProvideThreshold : Nat := 2

def maxExplorationPrefixSearches : Nat := 64

def maxConsecutiveNoFreshPeers : Nat := 2

def maxConsecutiveProvideFailuresAllowed : Nat := 2

def errClosed : String := "provider: closed"

def bitstrString (p : Bitstr) : String :=
  String.ofList (p.map fun b => if b then '1' else '0')

/-! ## Configuration and environment -/

structure Config where
  replicationFactor : Nat
  replicationFactor_pos : 0 < replicationFactor
  reprovideInterval : Duration
  reprovideInterval_pos : 0 < reprovideInterval
  maxReprovideDelay : Duration
  order : Bit256

structure Env extends Config where
  /-- The provider is shutting down. -/
  closed : Bool
  /-- `connectivity.IsOnline`. -/
  isOnline : Bool
  /-- `getSelfAddrs`. -/
  selfAddrs : List Multiaddr
  /-- `keystore.Get`: the stored keys matching a prefix, or an error. -/
  keystoreGet : Bitstr → Except String (List Multihash)
  /-- `router.GetClosestPeers`. -/
  getClosestPeers : List UInt8 → Except String (List PeerId)
  /-- `kb.GenRandPeerIDWithCPL`. -/
  genRandPeerIDWithCPL : List UInt8 → PeerId
  /-- `kb.SortClosestPeers`. -/
  sortClosestPeers : List PeerId → List UInt8 → List PeerId
  /-- `msgSender.SendMessage`: an error, or `none`. -/
  sendMessage : PeerId → Multihash → Option String
  /-- `peer.ID.String`. -/
  peerString : PeerId → String
  /-- `time.Now().Sub(cycleStart)` at each reading of the clock. -/
  sinceCycleStart : Nat → Duration
  /-- The order in which a map of peers is visited. -/
  peerOrder : MapOrder PeerId

/-- The keystore holds `stored`: without an error, `Get` returns the stored keys that match the
prefix. -/
def Env.Stores (env : Env) (stored : Set Multihash) : Prop :=
  ∀ pfx keys, env.keystoreGet pfx = .ok keys →
    ∀ m, m ∈ keys ↔ m ∈ stored ∧ pfx <+: (mhToBit256 m).bits

/-! ## State -/

/-- A call that leaves the provider's own data, or a step of a method worth recording. -/
inductive Event where
  /-- `logger.Warn` -/
  | warn (text : String)
  /-- `connectivity.TriggerCheck` -/
  | triggerCheck
  | addLocalRecord (key : Multihash)
  /-- `sendProviderRecords` was called and returned. -/
  | sendProviderRecords (keysAllocations : Allocations Multihash PeerId) (err : Option String)
  /-- `DequeueMatching` of the provide queue returned keys. -/
  | dequeueMatching (keys : List Multihash)
  /-- `AssignKeysToRegions` returned regions. -/
  | assignKeysToRegions (regions : List Region)
  | persistSuccessfulReprovide (pfx : Bitstr)
deriving DecidableEq

structure OngoingOpStats where
  opCount : Int
  keyCount : Int
deriving DecidableEq

/-- The counters of `operationStats` and the provide counter metric. -/
structure Stats where
  ongoingProvides : OngoingOpStats
  ongoingReprovides : OngoingOpStats
  recordsProvided : Int
  keysProvided : Int
  keysFailed : Int
  provideCounter : Int
deriving DecidableEq

structure State where
  provideQueue : ProvideQueue
  reprovideQueue : PrefixQueue
  schedule : Trie Bitstr Duration
  scheduleCursor : Bitstr
  /-- The duration the timer was last reset to. -/
  scheduleTimer : Duration
  /-- Relative to `cycleStart`. -/
  scheduleTimerStartedAt : Duration
  activeReprovides : Trie Bitstr Unit
  stats : Stats
  /-- How often the clock has been read. -/
  clock : Nat
  trace : List Event
deriving DecidableEq

/-- A method: it may panic. -/
abbrev ProviderM := StateT State Option

/-- A runtime panic. -/
def goPanic {α : Type} : ProviderM α := fun _ => none

def emit (e : Event) : ProviderM Unit := modify fun s => { s with trace := s.trace ++ [e] }

def modifyStats (f : Stats → Stats) : ProviderM Unit := modify fun s => { s with stats := f s.stats }

/-- A method that reads the state goes on with it. -/
theorem get_bind {α : Type} (f : State → ProviderM α) (s : State) : (get >>= f) s = f s s := rfl

/-- A method that changes the state goes on with the new one. -/
theorem modify_bind {α : Type} (f : State → State) (g : Unit → ProviderM α) (s : State) :
    (modify f >>= g) s = g () (f s) := rfl

def newEvents (s s' : State) : List Event := s'.trace.drop s.trace.length

/-! ## The invariant and the view -/

structure State.Inv (s : State) : Prop where
  provideQueue : s.provideQueue.Inv
  reprovideQueue : s.reprovideQueue.Inv
  schedule : s.schedule.WF
  activeReprovides : s.activeReprovides.WF

def State.new : State where
  provideQueue := .new
  reprovideQueue := .new
  schedule := .emptyLeaf
  scheduleCursor := []
  scheduleTimer := 0
  scheduleTimerStartedAt := 0
  activeReprovides := .emptyLeaf
  stats := ⟨⟨0, 0⟩, ⟨0, 0⟩, 0, 0, 0, 0⟩
  clock := 0
  trace := []

theorem State.inv_new : State.new.Inv :=
  ⟨ProvideQueue.inv_new, PrefixQueue.inv_new, Trie.wf_emptyLeaf, Trie.wf_emptyLeaf⟩

@[ext] structure View where
  provideQueue : ProvideQueue
  reprovideQueue : List Bitstr
  scheduled : Set Bitstr
  active : Set Bitstr
  trace : List Event

def State.view (s : State) : View where
  provideQueue := s.provideQueue
  reprovideQueue := s.reprovideQueue.queue
  scheduled := {p | p ∈ s.schedule.keys}
  active := {p | p ∈ s.activeReprovides.keys}
  trace := s.trace

def sweeping : Abstraction State View := ⟨State.Inv, State.view⟩

@[simp] theorem sweeping_inv (s : State) : sweeping.Inv s ↔ s.Inv := Iff.rfl

@[simp] theorem sweeping_view (s : State) : sweeping.view s = s.view := rfl

theorem newEvents_eq {s s' : State} {es : List Event} (h : s'.view.trace = s.view.trace ++ es) :
    newEvents s s' = es := by
  have htrace : s'.trace = s.trace ++ es := h
  rw [newEvents, htrace, List.drop_left]

theorem State.Inv.prefixFree_scheduled {s : State} (h : s.Inv) : PrefixFree s.view.scheduled :=
  h.schedule.prefixFree.mono fun p hp => ⟨p, hp, rfl⟩

theorem State.Inv.prefixFree_reprovideQueue {s : State} (h : s.Inv) :
    PrefixFree {p | p ∈ s.view.reprovideQueue} :=
  h.reprovideQueue.prefixFree

namespace View

def emit (e : Event) (v : View) : View := { v with trace := v.trace ++ [e] }

/-- Schedule a prefix, unless a scheduled one covers it. -/
def schedule (p : Bitstr) (v : View) : View := { v with scheduled := absorb v.scheduled p }

def unschedule (p : Bitstr) (v : View) : View :=
  { v with scheduled := {x | x ∈ v.scheduled ∧ ¬ p <+: x} }

def release (p : Bitstr) (v : View) : View :=
  { v with active := {x | x ∈ v.active ∧ ¬ p <+: x} }

end View

theorem simulates_emit (e : Event) : sweeping.Simulates (emit e) (fun v => ((), v.emit e)) := by
  intro s hs
  exact Abstraction.SimulatesAt.update { hs with } rfl

theorem simulates_modifyStats (f : Stats → Stats) :
    sweeping.Simulates (modifyStats f) (fun v => ((), v)) := by
  intro s hs
  exact Abstraction.SimulatesAt.update { hs with } rfl

end SweepingProvider

end KadDht
