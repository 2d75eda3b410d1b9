import KadDht.Buffered.Worker
import KadDht.Lib.Trace

/-!
# Buffered — the queue and its worker (`provider/buffered/provider.go`)

Calls of `enqueue` put their operations into the queue one by one and then leave a token in a
channel that has room for one. The worker takes the token before it reads the queue; when it gets
less than a batch, it waits for the next token. They take turns at every channel operation and at
every call of the queue.
-/

namespace KadDht.Buffered.Wakeup

/-- A call of `enqueue`. -/
inductive Enqueue where
  /-- `keys` are still to be put; `started` tells whether one was. -/
  | putting (op : UInt8) (keys : List Multihash) (started : Bool)
  | returned

/-- Where the worker is in its loop. -/
inductive Phase where
  | select
  | getN
  | execute
  | returned

structure State where
  queue : List Bytes
  /-- The channel holds a token. -/
  newItems : Bool
  closed : Bool
  emptyQueue : Bool
  phase : Phase
  calls : List Enqueue

/-- A new provider. The queue may hold what an earlier one has left. -/
def State.new (queue : List Bytes) : State := ⟨queue, false, false, false, .select, []⟩

inductive Label where
  | call (op : UInt8) (keys : List Multihash)
  | enqueue (i : Nat)
  | close
  | receive
  | default
  | leave
  | getN (err : Option String)
  | executed

def step (batchSize : Nat) (l : Label) (s : State) : Option State :=
  match l, s.phase with
  | .call op keys, _ => some { s with calls := s.calls ++ [.putting op keys false] }
  | .enqueue i, _ =>
    match s.calls[i]? with
    | some (.putting op (h :: keys) _) =>
      some { s with
        queue := s.queue ++ [toBytes op h]
        calls := s.calls.set i (.putting op keys true) }
    | some (.putting _ [] _) => some { s with newItems := true, calls := s.calls.set i .returned }
    | _ => none
  | .close, _ => some { s with closed := true }
  | .receive, .select =>
    if s.newItems then some { s with newItems := false, emptyQueue := false, phase := .getN }
    else none
  | .default, .select =>
    if s.emptyQueue || s.newItems || s.closed then none else some { s with phase := .getN }
  | .leave, .select => if s.closed then some { s with phase := .returned } else none
  | .getN none, .getN =>
    let res := s.queue.take batchSize
    some { s with
      queue := s.queue.drop batchSize
      emptyQueue := res.length < batchSize || s.emptyQueue
      phase := .execute }
  | .getN (some _), .getN => some { s with phase := .select }
  | .executed, .execute => some { s with phase := .select }
  | _, _ => none

/-- Between the first `Put` and the signal. -/
def Enqueue.Pending (c : Enqueue) : Prop := ∃ op keys, c = .putting op keys true

def Noticed (s : State) : Prop := s.queue = [] ∨ s.newItems = true ∨ ∃ c ∈ s.calls, c.Pending

theorem noticed_step {batchSize : Nat} {l : Label} {s s' : State}
    (h : s.emptyQueue = true → Noticed s) (hstep : step batchSize l s = some s') :
    s'.emptyQueue = true → Noticed s' := by
  unfold step at hstep
  split at hstep
  · cases hstep
    intro hempty
    refine (h hempty).imp_right (Or.imp_right ?_)
    rintro ⟨c, hc, hpending⟩
    exact ⟨c, List.mem_append_left _ hc, hpending⟩
  · split at hstep
    · next hi =>
      cases hstep
      have hlt := (List.getElem?_eq_some_iff.mp hi).1
      exact fun _ => .inr (.inr ⟨_, List.mem_set hlt _, _, _, rfl⟩)
    · cases hstep
      exact fun _ => .inr (.inl rfl)
    · cases hstep
  · cases hstep
    exact h
  · split at hstep
    · cases hstep
      exact fun hempty => absurd hempty Bool.false_ne_true
    · cases hstep
  · split at hstep
    · cases hstep
    · cases hstep
      exact h
  · split at hstep
    · cases hstep
      exact h
    · cases hstep
  · cases hstep
    intro hempty
    rcases Bool.or_eq_true_iff.mp hempty with hshort | hempty
    · -- less than a batch is all there was
      rw [decide_eq_true_eq, List.length_take] at hshort
      exact .inl (List.drop_eq_nil_of_le (by omega))
    · refine (h hempty).imp_left fun hqueue => ?_
      rw [hqueue, List.drop_nil]
  · cases hstep
    exact h
  · cases hstep
    exact h
  · cases hstep

/-- **No wakeup is lost.** When the worker waits for a token, the queue is empty, or there is a
token, or a call that has put something is still going to leave one. -/
theorem worker_notices (batchSize : Nat) (queue : List Bytes) (ls : List Label) (s : State)
    (hrun : Trace.run (step batchSize) ls (.new queue) = some s) (_ : s.phase = .select)
    (hempty : s.emptyQueue = true) :
    s.queue = [] ∨ s.newItems = true ∨ ∃ c ∈ s.calls, c.Pending :=
  Trace.invariant (P := fun s => s.emptyQueue = true → Noticed s) (fun _ _ _ _ => noticed_step)
    (fun hnew => absurd hnew Bool.false_ne_true) hrun hempty

/-- The worker waits, and a call has put the first of two keys. -/
theorem worker_notices_pending :
    ∃ s, Trace.run (step 2) [.default, .getN none, .executed, .call 0 [[0, 1, 5], [0, 1, 6]],
        .enqueue 0] (.new []) = some s ∧
      (s.queue = [] ∨ s.newItems = true ∨ ∃ c ∈ s.calls, c.Pending) :=
  ⟨_, rfl, worker_notices 2 [] [.default, .getN none, .executed, .call 0 [[0, 1, 5], [0, 1, 6]],
    .enqueue 0] _ rfl rfl rfl⟩

end KadDht.Buffered.Wakeup
