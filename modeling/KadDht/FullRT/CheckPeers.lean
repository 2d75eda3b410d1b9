import KadDht.Keyspace.Key
import KadDht.Lib.Trace
import KadDht.Lib.Weight

/-!
# FullRT — dialling many peers (`fullrt/dht.go`)

`CheckPeers` hands the peers that it shall dial to workers, and counts the dials that succeed.

* **`checkPeers_counts_iff`** — over every interleaving: the dials are all counted exactly if none
  of them succeeds, as nobody waits for the last ones.
-/

namespace KadDht.FullRT

open List

variable {Addr : Type}

abbrev AddrInfo (Addr : Type) := PeerId × List Addr

/-- The channel that `CheckPeers` fills before it starts the workers. -/
def peerAddrs (table : List (AddrInfo Addr)) (peers : List PeerId) : List (AddrInfo Addr) :=
  if peers.length = 0 then table else peers.map fun p => (p, (table.lookup p).getD [])

/-- A call of `workers`: what is left of the channel, and what each worker dials. -/
structure Dialing (Addr : Type) where
  inputs : List (AddrInfo Addr)
  workers : List (Option (AddrInfo Addr))
  success : Nat

namespace Dialing

/-- A worker takes a job, which is handed to it directly, or its dial ends. -/
inductive Label where
  | job (w : Nat)
  | dialed (w : Nat)

variable (connect : AddrInfo Addr → Bool)

def step : Label → Dialing Addr → Option (Dialing Addr)
  | .job w, s =>
    match s.inputs, s.workers[w]? with
    | ai :: inputs, some none => some { s with inputs, workers := s.workers.set w (some ai) }
    | _, _ => none
  | .dialed w, s =>
    match s.workers[w]? with
    | some (some ai) =>
      some { s with
        workers := s.workers.set w none
        success := if connect ai then s.success + 1 else s.success }
    | _ => none

def checkPeers (table : List (AddrInfo Addr)) (peers : List PeerId) : Dialing Addr :=
  ⟨peerAddrs table peers, replicate 100 none, 0⟩

/-- What `CheckPeers` returns, as soon as all jobs are handed over. -/
def result (total : Nat) (s : Dialing Addr) : Option (Nat × Nat) :=
  if s.inputs.isEmpty then some (s.success, total) else none

def reachable (w : Option (AddrInfo Addr)) : Nat := if w.any connect then 1 else 0

variable {connect} {s s' : Dialing Addr} {l : Label}

theorem step_counts (h : step connect l s = some s') :
    s'.success + weight (reachable connect) s'.workers + s'.inputs.countP connect
      = s.success + weight (reachable connect) s.workers + s.inputs.countP connect := by
  cases l with
  | job w =>
    rw [step] at h
    split at h
    · next ai inputs hinputs hw =>
      cases h
      have hset := weight_set (reachable connect) hw (some ai)
      rw [hinputs, countP_cons]
      simp only [reachable, Option.any_none, Option.any_some, Bool.false_eq_true,
        if_false] at hset ⊢
      omega
    · cases h
  | dialed w =>
    rw [step] at h
    split at h
    · next ai hw =>
      cases h
      have hset := weight_set (reachable connect) hw none
      simp only [reachable, Option.any_none, Option.any_some, Bool.false_eq_true,
        if_false] at hset ⊢
      split at hset
      · next hai =>
        rw [if_pos hai]
        omega
      · next hai =>
        rw [if_neg hai]
        omega
    · cases h

theorem counts_run {table : List (AddrInfo Addr)} {peers : List PeerId} {ls : List Label}
    (hrun : Trace.run (step connect) ls (checkPeers table peers) = some s) :
    s.success + weight (reachable connect) s.workers + s.inputs.countP connect =
      (peerAddrs table peers).countP connect :=
  Trace.invariant (P := fun s => s.success + weight (reachable connect) s.workers
    + s.inputs.countP connect = (peerAddrs table peers).countP connect)
    (fun _ _ _ _ h hstep => (step_counts hstep).trans h) (by simp [checkPeers, reachable]) hrun

/-- The first worker dials some peers, one after the other. -/
def dialAll (ais : List (AddrInfo Addr)) : List Label :=
  ais.flatMap fun _ => [.job 0, .dialed 0]

theorem run_dialAll (ais rest : List (AddrInfo Addr)) (workers : List (Option (AddrInfo Addr)))
    (success : Nat) :
    Trace.run (step connect) (dialAll ais) ⟨ais ++ rest, none :: workers, success⟩ =
      some ⟨rest, none :: workers, success + ais.countP connect⟩ := by
  induction ais generalizing success with
  | nil => rfl
  | cons ai ais ih =>
    have hsum : (if connect ai then success + 1 else success) + ais.countP connect =
        success + (ai :: ais).countP connect := by
      rw [countP_cons]
      split <;> omega
    rw [← hsum, ← ih]
    rfl

/-- If a peer can be reached, a worker can still be dialling it when `CheckPeers` returns: the other
peers are dialled by another worker. -/
theorem exists_early_run (connect : AddrInfo Addr → Bool) (pre post : List (AddrInfo Addr))
    (ai : AddrInfo Addr) (n : Nat) :
    ∃ ls, Trace.run (step connect) ls ⟨pre ++ ai :: post, replicate (n + 2) none, 0⟩ =
      some ⟨[], none :: some ai :: replicate n none, pre.countP connect + post.countP connect⟩ := by
  refine ⟨dialAll pre ++ .job 1 :: dialAll post, Trace.run_append.mpr
    ⟨_, run_dialAll pre (ai :: post) _ 0, ?_⟩⟩
  have hpost : Trace.run (step connect) (dialAll post) ⟨post ++ [], _, pre.countP connect⟩ = _ :=
    run_dialAll post [] (some ai :: replicate n none) _
  rw [append_nil] at hpost
  rw [Nat.zero_add]
  exact hpost

/-- **The count of `CheckPeers`** is exact in every interleaving of the workers if and only if none
of the peers can be reached. -/
theorem checkPeers_counts_iff (table : List (AddrInfo Addr)) (peers : List PeerId) :
    (∀ ls s n total, Trace.run (step connect) ls (checkPeers table peers) = some s →
        s.result (peerAddrs table peers).length = some (n, total) →
        n = (peerAddrs table peers).countP connect) ↔
      ∀ ai ∈ peerAddrs table peers, connect ai = false := by
  constructor
  · intro hcounts ai hai
    by_contra hreach
    obtain ⟨pre, post, hsplit⟩ := append_of_mem hai
    obtain ⟨ls, hrun⟩ := exists_early_run connect pre post ai 98
    rw [← hsplit] at hrun
    have hcount : pre.countP connect + post.countP connect = _ := hcounts ls _ _ _ hrun rfl
    rw [hsplit, countP_append, countP_cons, if_pos (Bool.not_eq_false _ ▸ hreach)] at hcount
    omega
  · intro hnone ls s n total hrun hresult
    obtain ⟨-, ⟨⟩⟩ := Option.ite_none_right_eq_some.mp hresult
    have hcount := counts_run hrun
    have hzero : (peerAddrs table peers).countP connect = 0 :=
      countP_eq_zero.mpr fun ai hai => by simp [hnone ai hai]
    omega

/-- `CheckPeers` returns while the only peer is dialled. -/
theorem checkPeers_early :
    (Trace.run (step fun _ : AddrInfo Unit => true) [.job 0] (checkPeers [] [[1]])).map (result 1) =
      some (some (0, 1)) ∧
    (peerAddrs [] [[1]]).countP (fun _ : AddrInfo Unit => true) = 1 :=
  ⟨rfl, rfl⟩

end Dialing

end KadDht.FullRT
