import KadDht.Lib.Interleave
import KadDht.Lib.Spawn
import KadDht.Queue.Provide
import Mathlib.Data.Multiset.MapFold

/-!
# Provider — the provide loop and the calls that start it

`provideLoop` hands the batches of the provide queue to workers until the queue is empty. A mutex
lets one loop run at a time: a loop that finds it locked gives up, trusting the one that is running.
`handleProvide` starts a loop after it added keys, `catchupPendingWork` starts one after the late
regions. The node is online, not closed, has workers, and every provide succeeds.

Calls, loops and workers are tasks that take turns; a step is one operation on a queue or a mutex.
`handleProvide` returns when it starts the loop, so that a call goes on as the loop it started.

* **`noLostWakeup_iff`** — the calls after which keys never stay behind.
-/

namespace KadDht.SweepingProvider

open List

namespace ProvideLoop

/-! ## Tasks -/

/-- `PrefixAndKeys`, as `groupAndScheduleKeysByPrefix` makes them: some keys below a prefix. -/
structure PrefixAndKeys where
  pfx : Bitstr
  keys : List Multihash
  nonempty : keys ≠ []
  below : ∀ m ∈ keys, pfx <+: (mhToBit256 m).bits

/-- The calls that start the provide loop; `handleProvide` with the groups it made of its keys. -/
inductive LoopCall where
  | handleProvide (groups : List PrefixAndKeys)
  | catchupPendingWork

structure LoopState where
  provideQueue : ProvideQueue
  reprovideQueue : PrefixQueue
  provideRunning : Bool
  lateReprovideRunning : Bool

inductive Task where
  /-- A call that was not made yet. -/
  | idle (call : LoopCall)
  /-- `handleProvide` has these groups left to enqueue. -/
  | enqueuing (groups : List PrefixAndKeys)
  /-- `reprovideLateRegions` is about to test its queue, to take a prefix from it, or to return. -/
  | lateTest
  | lateDequeue
  | lateUnlock
  /-- `provideLoop` has just begun. -/
  | provideLoop
  /-- The loop has the mutex, and is about to test the queue, to take a batch, or to return. -/
  | test
  | dequeue
  | unlock
  /-- Workers. -/
  | batchProvide (pfx : Bitstr) (keys : List Multihash)
  | batchReprovide (pfx : Bitstr)

/-- A `handleProvide` call or a `provideLoop` goroutine that has begun and not returned. -/
def Task.InProgress : Task → Prop
  | .enqueuing _ | .provideLoop | .test | .dequeue | .unlock => True
  | _ => False

variable [TrieLib]

/-- A worker that explored the swarm takes the keys of the region from the provide queue, for a
reprovide also the prefix from the reprovide queue. One with few keys takes nothing. -/
def takeCovered (covered : Option Bitstr) : StateT LoopState Option Unit := fun s =>
  match covered with
  | none => some ((), s)
  | some pfx =>
    (s.provideQueue.dequeueMatching pfx).map fun r => ((), { s with provideQueue := r.1 })

def removeLate (covered : Option Bitstr) : StateT LoopState Option Unit := fun s =>
  match covered with
  | none => some ((), s)
  | some pfx =>
    (s.reprovideQueue.remove pfx).map fun r => ((), { s with reprovideQueue := r.1 })

/-- One step. The choice is the prefix a worker covers. -/
def Task.step (covered : Option Bitstr) : Task → StateT LoopState Option (List Task)
  | .idle (.handleProvide []) => pure []
  | .idle (.handleProvide groups) => pure [.enqueuing groups]
  | .idle .catchupPendingWork => fun s =>
    if s.lateReprovideRunning then some ([], s)
    else some ([.lateTest], { s with lateReprovideRunning := true })
  | .enqueuing [] => pure [.provideLoop]
  | .enqueuing (g :: groups) => fun s =>
    (s.provideQueue.enqueue g.pfx g.keys).map fun q =>
      ([.enqueuing groups], { s with provideQueue := q })
  | .lateTest => fun s =>
    some ([if s.reprovideQueue.size = 0 then .lateUnlock else .lateDequeue], s)
  | .lateDequeue => fun s =>
    match s.reprovideQueue.pop with
    | (q, some pfx) => some ([.lateTest, .batchReprovide pfx], { s with reprovideQueue := q })
    | (q, none) => some ([.lateTest], { s with reprovideQueue := q })
  | .lateUnlock => fun s => some ([.provideLoop], { s with lateReprovideRunning := false })
  | .provideLoop => fun s =>
    if s.provideRunning then some ([], s) else some ([.test], { s with provideRunning := true })
  | .test => fun s => some ([if s.provideQueue.isEmpty then .unlock else .dequeue], s)
  | .dequeue => fun s =>
    match s.provideQueue.dequeue with
    | (q, some (pfx, keys)) => some ([.test, .batchProvide pfx keys], { s with provideQueue := q })
    | (q, none) => some ([.test], { s with provideQueue := q })
  | .unlock => fun s => some ([], { s with provideRunning := false })
  | .batchProvide _ _ => do
    takeCovered covered
    pure []
  | .batchReprovide _ => do
    takeCovered covered
    removeLate covered
    pure []

/-- Before any of the calls: the provide queue is empty, both mutexes are free. -/
def start (late : PrefixQueue) (calls : Multiset LoopCall) : Crew LoopState Task :=
  ⟨⟨.new, late, false, false⟩, calls.map .idle⟩

/-- Keys never stay behind: whenever neither a `handleProvide` call nor a `provideLoop` goroutine
is in progress, the provide queue is empty. -/
def NoLostWakeup (late : PrefixQueue) (calls : Multiset LoopCall) : Prop :=
  ∀ c, Crew.Reaches Task.step (start late calls) c → (∀ t ∈ c.tasks, ¬ t.InProgress) →
    c.shared.provideQueue.isEmpty = true

/-! ## Steps -/

omit [TrieLib] in
/-- The keys and the prefixes run out together. -/
theorem isEmpty_iff {q : ProvideQueue} (h : q.Inv) : q.isEmpty = true ↔ q.queue.queue = [] := by
  rw [ProvideQueue.isEmpty, Trie.isEmptyLeaf_iff, ← h.wf.entries_eq_nil]
  constructor
  · intro hnil
    refine eq_nil_iff_forall_not_mem.mpr fun p hp => ?_
    have hbelow := h.nonempty p hp
    simp [ProvideQueue.hasKeyBelow, Trie.keys, hnil] at hbelow
  · intro hnil
    refine eq_nil_iff_forall_not_mem.mpr fun e he => ?_
    have hcovered := h.covered e.1 (Trie.mem_keys.mpr ⟨e.2, he⟩)
    simp [hnil] at hcovered

variable {covered : Option Bitstr} {s s' : LoopState} {t : Task} {ts : List Task}
  {call : LoopCall}

theorem takeCovered_eq_some (h : s.provideQueue.Inv)
    (htake : takeCovered covered s = some ((), s')) :
    s'.provideQueue.Inv ∧ s'.provideRunning = s.provideRunning ∧
      (s.provideQueue.queue.queue = [] → s'.provideQueue.queue.queue = []) := by
  cases covered with
  | none =>
    cases htake
    exact ⟨h, rfl, id⟩
  | some pfx =>
    obtain ⟨q, ks, hdeq, hinv, hqueue, -⟩ := ProvideQueue.dequeueMatching_spec h pfx
    rw [takeCovered, hdeq] at htake
    cases htake
    exact ⟨hinv, rfl, fun hnil => by rw [hqueue, hnil, filter_nil]⟩

theorem removeLate_eq_some (hremove : removeLate covered s = some ((), s')) :
    s'.provideQueue = s.provideQueue ∧ s'.provideRunning = s.provideRunning := by
  cases covered with
  | none =>
    cases hremove
    exact ⟨rfl, rfl⟩
  | some pfx =>
    obtain ⟨r, -, ⟨⟩⟩ := Option.map_eq_some_iff.mp hremove
    exact ⟨rfl, rfl⟩

theorem step_enqueuing (h : s.provideQueue.Inv) (covered : Option Bitstr) (g : PrefixAndKeys)
    (groups : List PrefixAndKeys) :
    ∃ q, (Task.enqueuing (g :: groups)).step covered s =
        some ([.enqueuing groups], { s with provideQueue := q }) ∧
      q.Inv ∧ q.queue.queue ≠ [] := by
  obtain ⟨q, henq, hinv, -, hkeys⟩ := ProvideQueue.enqueue_spec h g.nonempty g.below
  refine ⟨q, ?_, hinv, fun hnil => ?_⟩
  · show (s.provideQueue.enqueue g.pfx g.keys).map _ = _
    rw [henq]
    rfl
  · -- a key that was added is below some prefix of the queue
    obtain ⟨m, hm⟩ := exists_mem_of_ne_nil g.keys g.nonempty
    have hmem : mhToBit256 m ∈ q.keys.keys := by
      rw [hkeys, TrieLib.mem_keys_addMany _ h.wf (acceptsAll_bit256 _ _)]
      exact .inr (mem_map_of_mem (mem_map_of_mem hm))
    have hcovered := hinv.covered _ hmem
    simp [hnil] at hcovered

theorem step_provideLoop (hfree : s.provideRunning = false) (covered : Option Bitstr) :
    Task.provideLoop.step covered s = some ([.test], { s with provideRunning := true }) := by
  show (if s.provideRunning then _ else _) = _
  rw [hfree]
  rfl

theorem step_provideLoop_locked (hlocked : s.provideRunning = true) (covered : Option Bitstr) :
    Task.provideLoop.step covered s = some ([], s) := by
  show (if s.provideRunning then _ else _) = _
  rw [hlocked]
  rfl

theorem step_test_nil (h : s.provideQueue.Inv) (hnil : s.provideQueue.queue.queue = [])
    (covered : Option Bitstr) : Task.test.step covered s = some ([.unlock], s) := by
  show some ([if s.provideQueue.isEmpty then _ else _], s) = _
  rw [(isEmpty_iff h).mpr hnil]
  rfl

theorem step_test_ne_nil (h : s.provideQueue.Inv) (hne : s.provideQueue.queue.queue ≠ [])
    (covered : Option Bitstr) : Task.test.step covered s = some ([.dequeue], s) := by
  have hempty : s.provideQueue.isEmpty = false :=
    Bool.eq_false_iff.mpr fun hempty => hne ((isEmpty_iff h).mp hempty)
  show some ([if s.provideQueue.isEmpty then _ else _], s) = _
  rw [hempty]
  rfl

theorem step_dequeue_nil (hnil : s.provideQueue.queue.queue = []) (covered : Option Bitstr) :
    Task.dequeue.step covered s = some ([.test], s) := by
  simp only [Task.step, ProvideQueue.dequeue_nil hnil]

theorem step_dequeue_cons (h : s.provideQueue.Inv) {pfx : Bitstr} {rest : List Bitstr}
    (hqueue : s.provideQueue.queue.queue = pfx :: rest) (covered : Option Bitstr) :
    ∃ q keys, Task.dequeue.step covered s =
        some ([.test, .batchProvide pfx keys], { s with provideQueue := q }) ∧
      q.Inv ∧ q.queue.queue = rest := by
  obtain ⟨q, keys, hdeq, hinv, hrest, -⟩ := ProvideQueue.dequeue_spec h hqueue
  exact ⟨q, keys, by simp only [Task.step, hdeq], hinv, hrest⟩

/-! ## Without competition -/

def Task.Bystander : Task → Prop
  | .idle (.handleProvide []) | .batchProvide _ _ | .batchReprovide _ => True
  | _ => False

omit [TrieLib] in
theorem Task.Bystander.not_inProgress (ht : t.Bystander) : ¬ t.InProgress := by
  cases t with
  | idle call | batchProvide pfx keys | batchReprovide pfx => exact id
  | _ => exact ht.elim

theorem Task.Bystander.step (ht : t.Bystander) (h : s.provideQueue.Inv)
    (hstep : t.step covered s = some (ts, s')) :
    ts = [] ∧ s'.provideQueue.Inv ∧ s'.provideRunning = s.provideRunning ∧
      (s.provideQueue.queue.queue = [] → s'.provideQueue.queue.queue = []) := by
  match t with
  | .idle (.handleProvide []) =>
    cases hstep
    exact ⟨rfl, h, rfl, id⟩
  | .batchProvide pfx keys =>
    obtain ⟨⟨⟩, s1, htake, ⟨⟩⟩ := bind_eq_some.mp hstep
    obtain ⟨hinv, hrunning, hnil⟩ := takeCovered_eq_some h htake
    exact ⟨rfl, hinv, hrunning, hnil⟩
  | .batchReprovide pfx =>
    obtain ⟨⟨⟩, s1, htake, hrest⟩ := bind_eq_some.mp hstep
    obtain ⟨⟨⟩, s2, hlate, ⟨⟩⟩ := bind_eq_some.mp hrest
    obtain ⟨hinv, hrunning, hnil⟩ := takeCovered_eq_some h htake
    obtain ⟨hqueue, hsame⟩ := removeLate_eq_some hlate
    rw [hqueue, hsame]
    exact ⟨rfl, hinv, hrunning, hnil⟩

/-- A loop that no other one competes with, and the call that starts it: the mutex is free until
the loop locks it, and the loop unlocks it only when the queue is empty. -/
def Sole (s : LoopState) : Task → Prop
  | .idle (.handleProvide _) => s.provideRunning = false ∧ s.provideQueue.queue.queue = []
  | .enqueuing _ | .provideLoop => s.provideRunning = false
  | .test | .dequeue => True
  | .unlock => s.provideQueue.queue.queue = []
  | _ => False

omit [TrieLib] in
theorem Sole.mono (h : Sole s t) (hrunning : s'.provideRunning = s.provideRunning)
    (hnil : s.provideQueue.queue.queue = [] → s'.provideQueue.queue.queue = []) : Sole s' t := by
  match t with
  | .idle (.handleProvide _) => exact ⟨hrunning.trans h.1, hnil h.2⟩
  | .enqueuing _ | .provideLoop => exact hrunning.trans h
  | .test => trivial
  | .dequeue => trivial
  | .unlock => exact hnil h

/-- A loop without competition, like the call that starts it, goes on by one task at a time, and
ends only when the queue is empty. -/
theorem Sole.step (ht : Sole s t) (h : s.provideQueue.Inv)
    (hstep : t.step covered s = some (ts, s')) :
    s'.provideQueue.Inv ∧ ((ts = [] ∧ s'.provideQueue.queue.queue = []) ∨
      ∃ t' workers, ts = t' :: workers ∧ Sole s' t' ∧ ∀ w ∈ workers, w.Bystander) := by
  match t with
  | .idle (.handleProvide []) =>
    cases hstep
    exact ⟨h, .inl ⟨rfl, ht.2⟩⟩
  | .idle (.handleProvide (g :: groups)) =>
    cases hstep
    exact ⟨h, .inr ⟨_, [], rfl, ht.1, by simp⟩⟩
  | .enqueuing [] =>
    cases hstep
    exact ⟨h, .inr ⟨_, [], rfl, ht, by simp⟩⟩
  | .enqueuing (g :: groups) =>
    obtain ⟨q, henq, hinv, -⟩ := step_enqueuing h covered g groups
    rw [henq] at hstep
    cases hstep
    exact ⟨hinv, .inr ⟨_, [], rfl, ht, by simp⟩⟩
  | .provideLoop =>
    -- nobody else has the mutex
    rw [step_provideLoop ht] at hstep
    cases hstep
    exact ⟨h, .inr ⟨_, [], rfl, trivial, by simp⟩⟩
  | .test =>
    by_cases hnil : s.provideQueue.queue.queue = []
    · rw [step_test_nil h hnil] at hstep
      cases hstep
      exact ⟨h, .inr ⟨_, [], rfl, hnil, by simp⟩⟩
    · rw [step_test_ne_nil h hnil] at hstep
      cases hstep
      exact ⟨h, .inr ⟨_, [], rfl, trivial, by simp⟩⟩
  | .dequeue =>
    cases hqueue : s.provideQueue.queue.queue with
    | nil =>
      rw [step_dequeue_nil hqueue] at hstep
      cases hstep
      exact ⟨h, .inr ⟨_, [], rfl, trivial, by simp⟩⟩
    | cons pfx rest =>
      obtain ⟨q, keys, hdeq, hinv, -⟩ := step_dequeue_cons h hqueue covered
      rw [hdeq] at hstep
      cases hstep
      refine ⟨hinv, .inr ⟨_, _, rfl, trivial, fun w hw => ?_⟩⟩
      rw [mem_singleton.mp hw]
      trivial
  | .unlock =>
    cases hstep
    exact ⟨h, .inl ⟨rfl, ht⟩⟩

/-- At most one task is or starts a loop, and if there is none the queue is empty. -/
def SoleLoop (c : Crew LoopState Task) : Prop :=
  c.shared.provideQueue.Inv ∧
    (((∀ t ∈ c.tasks, t.Bystander) ∧ c.shared.provideQueue.queue.queue = []) ∨
      ∃ t others, c.tasks = t ::ₘ others ∧ Sole c.shared t ∧ ∀ t' ∈ others, t'.Bystander)

theorem soleLoop_step (covered : Option Bitstr) (t : Task) (ts : List Task) (s s' : LoopState)
    (rest : Multiset Task) (h : SoleLoop ⟨s, t ::ₘ rest⟩)
    (hstep : t.step covered s = some (ts, s')) : SoleLoop ⟨s', ts + rest⟩ := by
  obtain ⟨hinv, ⟨hall, hnil⟩ | ⟨m, others, htasks, hm, hothers⟩⟩ := h
  · obtain ⟨rfl, hinv', -, hkeep⟩ := (hall t (Multiset.mem_cons_self t rest)).step hinv hstep
    refine ⟨hinv', .inl ⟨fun t' ht' => hall t' ?_, hkeep hnil⟩⟩
    rw [Multiset.coe_nil, Multiset.zero_add] at ht'
    exact Multiset.mem_cons_of_mem ht'
  · rcases Multiset.cons_eq_cons.mp htasks with ⟨rfl, rfl⟩ | ⟨-, cs, rfl, rfl⟩
    · -- the loop itself moves
      obtain ⟨hinv', ⟨rfl, hnil⟩ | ⟨t', workers, rfl, ht', hworkers⟩⟩ := hm.step hinv hstep
      · refine ⟨hinv', .inl ⟨?_, hnil⟩⟩
        rwa [Multiset.coe_nil, Multiset.zero_add]
      · refine ⟨hinv', .inr ⟨t', workers + rest, ?_, ht', fun w hw => ?_⟩⟩
        · rw [← Multiset.cons_coe, Multiset.cons_add]
        · rcases Multiset.mem_add.mp hw with hw | hw
          · exact hworkers w hw
          · exact hothers w hw
    · obtain ⟨rfl, hinv', hrunning, hkeep⟩ :=
        (hothers t (Multiset.mem_cons_self t cs)).step hinv hstep
      refine ⟨hinv', .inr ⟨m, cs, ?_, hm.mono hrunning hkeep, fun w hw => ?_⟩⟩
      · rw [Multiset.coe_nil, Multiset.zero_add]
      · exact hothers w (Multiset.mem_cons_of_mem hw)

/-! ## Without keys -/

def Task.groups : Task → List PrefixAndKeys
  | .idle (.handleProvide groups) | .enqueuing groups => groups
  | _ => []

theorem step_of_no_groups (h : s.provideQueue.Inv) (hnil : s.provideQueue.queue.queue = [])
    (ht : t.groups = []) (hstep : t.step covered s = some (ts, s')) :
    s'.provideQueue.Inv ∧ s'.provideQueue.queue.queue = [] ∧ ∀ t' ∈ ts, t'.groups = [] := by
  match t with
  | .idle (.handleProvide []) | .unlock | .enqueuing [] | .lateUnlock =>
    cases hstep
    exact ⟨h, hnil, by simp [Task.groups]⟩
  | .idle .catchupPendingWork | .provideLoop | .lateDequeue =>
    simp only [Task.step] at hstep
    split at hstep
    · cases hstep
      exact ⟨h, hnil, by simp [Task.groups]⟩
    · cases hstep
      exact ⟨h, hnil, by simp [Task.groups]⟩
  | .lateTest =>
    cases hstep
    refine ⟨h, hnil, fun t' ht' => ?_⟩
    rw [mem_singleton.mp ht']
    split <;> rfl
  | .test =>
    rw [step_test_nil h hnil] at hstep
    cases hstep
    exact ⟨h, hnil, by simp [Task.groups]⟩
  | .dequeue =>
    rw [step_dequeue_nil hnil] at hstep
    cases hstep
    exact ⟨h, hnil, by simp [Task.groups]⟩
  | .batchProvide pfx keys =>
    obtain ⟨rfl, hinv, -, hkeep⟩ :=
      Task.Bystander.step (t := .batchProvide pfx keys) trivial h hstep
    exact ⟨hinv, hkeep hnil, by simp⟩
  | .batchReprovide pfx =>
    obtain ⟨rfl, hinv, -, hkeep⟩ := Task.Bystander.step (t := .batchReprovide pfx) trivial h hstep
    exact ⟨hinv, hkeep hnil, by simp⟩

/-! ## The calls after which keys never stay behind -/

def LoopCall.Enqueues : LoopCall → Prop
  | .handleProvide groups => groups ≠ []
  | .catchupPendingWork => False

def LoopCall.StartsLoop : LoopCall → Prop
  | .handleProvide groups => groups ≠ []
  | .catchupPendingWork => True

instance : DecidablePred LoopCall.StartsLoop
  | .handleProvide [] => isFalse fun h => h rfl
  | .handleProvide (_ :: _) => isTrue (List.cons_ne_nil _ _)
  | .catchupPendingWork => isTrue trivial

omit [TrieLib] in
theorem LoopCall.Enqueues.startsLoop (h : call.Enqueues) : call.StartsLoop := by
  cases call with
  | handleProvide groups => exact h
  | catchupPendingWork => exact h.elim

variable {late : PrefixQueue}

theorem empty_of_no_enqueues {calls : Multiset LoopCall}
    (hcalls : ∀ call ∈ calls, ¬ call.Enqueues) {c : Crew LoopState Task}
    (h : Crew.Reaches Task.step (start late calls) c) :
    c.shared.provideQueue.Inv ∧ c.shared.provideQueue.queue.queue = [] ∧
      ∀ t ∈ c.tasks, t.groups = [] := by
  refine h.invariant
    (P := fun c => c.shared.provideQueue.Inv ∧ c.shared.provideQueue.queue.queue = [] ∧
      ∀ t ∈ c.tasks, t.groups = [])
    (fun covered t ts s s' rest hbefore hstep => ?_) ⟨ProvideQueue.inv_new, rfl, fun t ht => ?_⟩
  · obtain ⟨hinv, hnil, htasks⟩ := hbefore
    obtain ⟨hinv', hnil', hts⟩ :=
      step_of_no_groups hinv hnil (htasks t (Multiset.mem_cons_self t rest)) hstep
    refine ⟨hinv', hnil', fun t' ht' => ?_⟩
    rcases Multiset.mem_add.mp ht' with ht' | ht'
    · exact hts t' ht'
    · exact htasks t' (Multiset.mem_cons_of_mem ht')
  · obtain ⟨call, hcall, rfl⟩ := Multiset.mem_map.mp ht
    cases call with
    | handleProvide groups => exact not_not.mp (hcalls _ hcall)
    | catchupPendingWork => rfl

/-- **A loop without competition.** When a single call starts a loop and the others have nothing
to do, the queue is empty whenever no loop is in progress. -/
theorem run_of_sole_call {groups : List PrefixAndKeys}
    {others : Multiset LoopCall} (hothers : ∀ call ∈ others, ¬ call.StartsLoop)
    {c : Crew LoopState Task}
    (h : Crew.Reaches Task.step (start late (.handleProvide groups ::ₘ others)) c)
    (hquiet : ∀ t ∈ c.tasks, ¬ t.InProgress) :
    c.shared.provideQueue.Inv ∧ c.shared.provideQueue.queue.queue = [] := by
  have hstart : SoleLoop (start late (.handleProvide groups ::ₘ others)) := by
    refine ⟨ProvideQueue.inv_new, .inr ⟨.idle (.handleProvide groups), others.map .idle,
      Multiset.map_cons _ _ _, ⟨rfl, rfl⟩, fun t ht => ?_⟩⟩
    obtain ⟨call, hcall, rfl⟩ := Multiset.mem_map.mp ht
    match call with
    | .handleProvide [] => trivial
    | .handleProvide (_ :: _) => exact (hothers _ hcall (cons_ne_nil _ _)).elim
    | .catchupPendingWork => exact (hothers _ hcall trivial).elim
  obtain ⟨hinv, ⟨-, hnil⟩ | ⟨t, others, htasks, ht, -⟩⟩ := h.invariant soleLoop_step hstart
  · exact ⟨hinv, hnil⟩
  · have hidle := hquiet t (htasks ▸ Multiset.mem_cons_self t others)
    match t with
    | .idle (.handleProvide _) => exact ⟨hinv, ht.2⟩
    | .enqueuing _ | .provideLoop | .test | .dequeue | .unlock => exact (hidle trivial).elim

/-! ## With competition -/

theorem enqueuing_reaches (groups : List PrefixAndKeys) (h : s.provideQueue.Inv) :
    ∃ q, Crew.Reaches Task.step ⟨s, {.enqueuing groups}⟩
        ⟨{ s with provideQueue := q }, {.provideLoop}⟩ ∧
      q.Inv ∧ (groups ≠ [] ∨ s.provideQueue.queue.queue ≠ [] → q.queue.queue ≠ []) := by
  induction groups generalizing s with
  | nil =>
    refine ⟨s.provideQueue, Crew.Reaches.single none rfl, h, fun hne => ?_⟩
    exact hne.resolve_left (absurd rfl)
  | cons g groups ih =>
    obtain ⟨q1, hstep, hinv1, hne1⟩ := step_enqueuing h none g groups
    obtain ⟨q2, hreaches, hinv2, hne2⟩ := ih (s := { s with provideQueue := q1 }) hinv1
    exact ⟨q2, (Crew.Reaches.single none hstep).trans hreaches, hinv2, fun _ => hne2 (.inr hne1)⟩

/-- The loop hands out batches until it finds the queue empty; then it still has the mutex. -/
theorem test_reaches (h : s.provideQueue.Inv) :
    ∃ q workers, Crew.Reaches Task.step ⟨s, {.test}⟩
        ⟨{ s with provideQueue := q }, .unlock ::ₘ workers⟩ ∧
      q.Inv ∧ ∀ w ∈ workers, Task.Bystander w := by
  generalize hlen : s.provideQueue.queue.queue = queue
  induction queue generalizing s with
  | nil =>
    have htest := step_test_nil h hlen none
    exact ⟨s.provideQueue, 0, Crew.Reaches.single none htest, h, by simp⟩
  | cons pfx rest ih =>
    have hne : s.provideQueue.queue.queue ≠ [] := hlen ▸ cons_ne_nil pfx rest
    obtain ⟨q1, keys, hdeq, hinv1, hrest⟩ := step_dequeue_cons h hlen none
    obtain ⟨q2, workers, hreaches, hinv2, hworkers⟩ :=
      ih (s := { s with provideQueue := q1 }) hinv1 hrest
    refine ⟨q2, workers + ([.batchProvide pfx keys] : List Task), ?_, hinv2, fun w hw => ?_⟩
    · have htest := Crew.Reaches.single none (step_test_ne_nil h hne none)
      rw [← Multiset.cons_add]
      exact htest.trans (Crew.Reaches.goOn none hdeq hreaches)
    · rcases Multiset.mem_add.mp hw with hw | hw
      · exact hworkers w hw
      · rw [mem_singleton.mp hw]
        trivial

theorem lateTest_reaches (h : s.reprovideQueue.Inv) :
    ∃ q workers, Crew.Reaches Task.step ⟨s, {.lateTest}⟩
        ⟨{ s with reprovideQueue := q, lateReprovideRunning := false }, .provideLoop ::ₘ workers⟩ ∧
      ∀ w ∈ workers, Task.Bystander w := by
  generalize hlen : s.reprovideQueue.queue = queue
  induction queue generalizing s with
  | nil =>
    have htest : Task.lateTest.step none s = some ([.lateUnlock], s) := by
      show some ([if s.reprovideQueue.queue.length = 0 then _ else _], s) = _
      rw [hlen]
      rfl
    exact ⟨s.reprovideQueue, 0,
      (Crew.Reaches.single none htest).trans (Crew.Reaches.single none rfl), by simp⟩
  | cons pfx rest ih =>
    have htest : Task.lateTest.step none s = some ([.lateDequeue], s) := by
      show some ([if s.reprovideQueue.queue.length = 0 then _ else _], s) = _
      rw [hlen]
      rfl
    obtain ⟨hpop, hinv, htail⟩ := PrefixQueue.pop_spec h
    rw [hlen] at hpop htail
    have hdeq : Task.lateDequeue.step none s =
        some ([.lateTest, .batchReprovide pfx],
          { s with reprovideQueue := s.reprovideQueue.pop.1 }) := by
      simp only [Task.step]
      rw [show s.reprovideQueue.pop = (s.reprovideQueue.pop.1, some pfx) from Prod.ext rfl hpop]
    obtain ⟨q, workers, hreaches, hworkers⟩ :=
      ih (s := { s with reprovideQueue := s.reprovideQueue.pop.1 }) hinv htail
    refine ⟨q, workers + ([.batchReprovide pfx] : List Task), ?_, fun w hw => ?_⟩
    · rw [← Multiset.cons_add]
      exact (Crew.Reaches.single none htest).trans (Crew.Reaches.goOn none hdeq hreaches)
    · rcases Multiset.mem_add.mp hw with hw | hw
      · exact hworkers w hw
      · rw [mem_singleton.mp hw]
        trivial

theorem startsLoop_reaches (hcall : call.StartsLoop) (h : s.provideQueue.Inv)
    (hlate : s.reprovideQueue.Inv) (hfree : s.lateReprovideRunning = false) :
    ∃ s' workers, Crew.Reaches Task.step ⟨s, {.idle call}⟩ ⟨s', .provideLoop ::ₘ workers⟩ ∧
      s'.provideQueue.Inv ∧ s'.provideRunning = s.provideRunning ∧
      ∀ w ∈ workers, Task.Bystander w := by
  match call with
  | .handleProvide [] => exact (hcall rfl).elim
  | .handleProvide (g :: groups) =>
    obtain ⟨q, hreaches, hinv, -⟩ := enqueuing_reaches (g :: groups) h
    exact ⟨_, 0, (Crew.Reaches.single none rfl).trans hreaches, hinv, rfl, by simp⟩
  | .catchupPendingWork =>
    have hbegin : (Task.idle .catchupPendingWork).step none s =
        some ([.lateTest], { s with lateReprovideRunning := true }) := by
      show (if s.lateReprovideRunning then _ else _) = _
      rw [hfree]
      rfl
    obtain ⟨q, workers, hreaches, hworkers⟩ :=
      lateTest_reaches (s := { s with lateReprovideRunning := true }) hlate
    exact ⟨_, workers, (Crew.Reaches.single none hbegin).trans hreaches, h, rfl, hworkers⟩

/-- A call that starts a loop reaches the moment at which the loop has found the queue empty and
still has the mutex. -/
theorem startsLoop_reaches_unlock (hcall : call.StartsLoop) (h : s.provideQueue.Inv)
    (hlate : s.reprovideQueue.Inv) (hfree : s.lateReprovideRunning = false)
    (hunlocked : s.provideRunning = false) :
    ∃ s' workers, Crew.Reaches Task.step ⟨s, {.idle call}⟩ ⟨s', .unlock ::ₘ workers⟩ ∧
      s'.provideQueue.Inv ∧ s'.provideRunning = true ∧ ∀ w ∈ workers, Task.Bystander w := by
  obtain ⟨s1, late, hreaches, hinv1, hrunning, hworkers⟩ := startsLoop_reaches hcall h hlate hfree
  have hlock := step_provideLoop (hrunning.trans hunlocked) none
  obtain ⟨q, workers, hloop, hinv2, hworkers'⟩ :=
    test_reaches (s := { s1 with provideRunning := true }) hinv1
  refine ⟨{ s1 with provideRunning := true, provideQueue := q }, workers + late,
    hreaches.trans ?_, hinv2, rfl, fun w hw => ?_⟩
  · rw [← Multiset.cons_add]
    exact ((Crew.Reaches.single none hlock).trans hloop).frame late
  · rcases Multiset.mem_add.mp hw with hw | hw
    · exact hworkers' w hw
    · exact hworkers w hw

/-- **The lost wakeup.** With a call that enqueues keys and another one that starts a loop, keys
can stay in the queue while no loop is in progress. -/
theorem lostWakeup (hlate : late.Inv) {groups : List PrefixAndKeys}
    (hgroups : groups ≠ []) {call : LoopCall} (hcall : call.StartsLoop)
    (others : Multiset LoopCall) :
    ¬ NoLostWakeup late (.handleProvide groups ::ₘ call ::ₘ others) := by
  intro hno
  -- the other loop finds the queue empty
  obtain ⟨s1, workers, hfirst, hinv1, hlocked, hworkers⟩ :=
    startsLoop_reaches_unlock hcall (s := ⟨.new, late, false, false⟩) ProvideQueue.inv_new hlate
      rfl rfl
  -- the keys are enqueued, and the loop started for them gives up
  obtain ⟨q, henqueue, hinv2, hne⟩ := enqueuing_reaches groups hinv1
  have hbegin : (Task.idle (.handleProvide groups)).step none s1 =
      some ([.enqueuing groups], s1) := by
    cases groups with
    | nil => exact (hgroups rfl).elim
    | cons g groups => rfl
  have hgiveUp := step_provideLoop_locked (s := { s1 with provideQueue := q }) hlocked none
  have hsecond : Crew.Reaches Task.step ⟨s1, {.idle (.handleProvide groups)}⟩
      ⟨{ s1 with provideQueue := q }, 0⟩ :=
    ((Crew.Reaches.single none hbegin).trans henqueue).trans (Crew.Reaches.single none hgiveUp)
  -- the other loop unlocks
  have hthird : Crew.Reaches Task.step ⟨{ s1 with provideQueue := q }, {.unlock}⟩
      ⟨{ s1 with provideQueue := q, provideRunning := false }, 0⟩ :=
    Crew.Reaches.single none rfl
  have hreaches : Crew.Reaches Task.step
      (start late (.handleProvide groups ::ₘ call ::ₘ others))
      ⟨{ s1 with provideQueue := q, provideRunning := false }, workers + others.map .idle⟩ := by
    have hcalls : start late (.handleProvide groups ::ₘ call ::ₘ others) =
        Crew.join ⟨⟨.new, late, false, false⟩, {.idle call}⟩
          ({.idle (.handleProvide groups)} + others.map .idle) := by
      simp [start, Crew.join, Multiset.cons_swap]
    have hwaiting : Crew.join ⟨s1, .unlock ::ₘ workers⟩
        ({.idle (.handleProvide groups)} + others.map .idle) =
        Crew.join ⟨s1, {.idle (.handleProvide groups)}⟩
          ({.unlock} + (workers + others.map .idle)) := by
      simp [Crew.join, Multiset.cons_swap]
    have hfirst' := hfirst.frame ({.idle (.handleProvide groups)} + others.map .idle)
    rw [← hcalls, hwaiting] at hfirst'
    have hsecond' := hsecond.frame ({.unlock} + (workers + others.map .idle))
    have hthird' := hthird.frame (workers + others.map .idle)
    simp only [Crew.join, Multiset.zero_add] at hfirst' hsecond' hthird'
    exact (hfirst'.trans hsecond').trans hthird'
  have hempty := hno _ hreaches fun t ht => ?_
  · exact hne (.inl hgroups) ((isEmpty_iff hinv2).mp hempty)
  · rcases Multiset.mem_add.mp ht with ht | ht
    · exact (hworkers t ht).not_inProgress
    · obtain ⟨call, -, rfl⟩ := Multiset.mem_map.mp ht
      exact id

/-- **When keys never stay behind.** Exactly when no call enqueues keys, or at most one call starts
a provide loop. -/
theorem noLostWakeup_iff {late : PrefixQueue} (hlate : late.Inv) (calls : Multiset LoopCall) :
    NoLostWakeup late calls ↔
      (∀ call ∈ calls, ¬ call.Enqueues) ∨ calls.countP LoopCall.StartsLoop ≤ 1 := by
  constructor
  · intro hno
    by_contra hcond
    simp only [not_or, not_forall, not_not, not_le] at hcond
    obtain ⟨⟨first, hfirst, henqueues⟩, hmany⟩ := hcond
    obtain ⟨rest, rfl⟩ := Multiset.exists_cons_of_mem hfirst
    rw [Multiset.countP_cons_of_pos _ henqueues.startsLoop] at hmany
    obtain ⟨second, hsecond, hstarts⟩ := Multiset.countP_pos.mp (Nat.lt_of_succ_lt_succ hmany)
    obtain ⟨others, rfl⟩ := Multiset.exists_cons_of_mem hsecond
    cases first with
    | handleProvide groups => exact lostWakeup hlate henqueues hstarts others hno
    | catchupPendingWork => exact henqueues
  · intro hcond c hreaches hquiet
    by_cases hnone : ∀ call ∈ calls, ¬ call.Enqueues
    · obtain ⟨hinv, hnil, -⟩ := empty_of_no_enqueues hnone hreaches
      exact (isEmpty_iff hinv).mpr hnil
    · -- the call that enqueues keys is the only one that starts a loop
      have hsole := hcond.resolve_left hnone
      simp only [not_forall, not_not] at hnone
      obtain ⟨first, hfirst, henqueues⟩ := hnone
      obtain ⟨others, rfl⟩ := Multiset.exists_cons_of_mem hfirst
      rw [Multiset.countP_cons_of_pos _ henqueues.startsLoop] at hsole
      have hothers : ∀ call ∈ others, ¬ call.StartsLoop := Multiset.countP_eq_zero.mp (by omega)
      cases first with
      | handleProvide groups =>
        obtain ⟨hinv, hnil⟩ := run_of_sole_call hothers hreaches hquiet
        exact (isEmpty_iff hinv).mpr hnil
      | catchupPendingWork => exact henqueues.elim

omit [TrieLib] in
def oneKey : PrefixAndKeys := ⟨[], [[0, 1, 2]], by simp, fun _ _ => List.nil_prefix⟩

end ProvideLoop

/-- The key of a `StartProviding` call stays in the provide queue, and no loop is there to provide
it, although the node is online: the loop of an earlier call was about to return. -/
theorem ProvideLoop.key_left_behind :
    ¬ @ProvideLoop.NoLostWakeup binaryTrie .new
      {.handleProvide [ProvideLoop.oneKey], .handleProvide [ProvideLoop.oneKey]} :=
  @ProvideLoop.lostWakeup binaryTrie .new PrefixQueue.inv_new [ProvideLoop.oneKey] (by simp)
    (.handleProvide [ProvideLoop.oneKey]) (cons_ne_nil _ _) 0

theorem ProvideLoop.noLostWakeup_oneKey :
    PrefixQueue.new.Inv ∧ @ProvideLoop.NoLostWakeup binaryTrie .new
      {.handleProvide [ProvideLoop.oneKey]} :=
  ⟨PrefixQueue.inv_new, (@ProvideLoop.noLostWakeup_iff binaryTrie .new PrefixQueue.inv_new _).mpr
    (.inr (by decide))⟩

end KadDht.SweepingProvider
