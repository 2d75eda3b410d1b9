import KadDht.Buffered.Worker
import KadDht.Provider.HandleProvide

/-!
# Buffered — what becomes of a batch

The calls of the worker for a batch, as seen by the provide queue of the wrapped provider and by
the operations of the batch. The stops come last and take keys out of the provide queue, also those
of a `ProvideOnce` that was queued after the stop. And a batch with an item that does not parse is
dropped as a whole.

* **`provided_iff`** — when a key that is provided once is in the provide queue in the end.
* **`passes_iff`** — when all well-formed operations of a batch are passed on.
-/

namespace KadDht.Buffered

open List SweepingProvider Operations

variable {queued : List Queued} {q : Queued} {h m : Multihash} {ops : Operations}

/-! ## Stops -/

theorem collect_append (queued : List Queued) (q : Queued) :
    collect (queued ++ [q]) = (collect queued).add q.op q.key := by
  rw [collect, foldl_append]
  rfl

/-- Of the starts and stops of the multihash in the batch, the last one is a stop. -/
def Stopped (queued : List Queued) (m : Multihash) : Prop :=
  (queued.filter fun q => q.key = m ∧ q.op ≠ .provideOnceOp).getLast? = some ⟨.stopProvidingOp, m⟩

/-- **What is stopped at the end of a batch.** -/
theorem mem_stopProviding_collect : m ∈ (collect queued).stopProviding ↔ Stopped queued m := by
  induction queued using reverseRecOn with
  | nil => simp [collect, Stopped]
  | append_singleton queued q ih =>
    obtain ⟨op, key⟩ := q
    rw [Stopped] at ih
    rw [collect_append, Stopped, filter_append]
    by_cases hkey : key = m
    · subst hkey
      cases op with
      | provideOnceOp => simpa [add] using ih
      | startProvidingOp | forceStartProvidingOp => simp [add]
      | stopProvidingOp => simp [add]
    · have hnone : [(⟨op, key⟩ : Queued)].filter
          (fun q => q.key = m ∧ q.op ≠ .provideOnceOp) = [] := by
        simp [hkey]
      rw [hnone, append_nil, ← ih]
      cases op <;> simp [add, Ne.symm hkey]

/-! ## What is collected -/

/-- The operation is among what was collected. A stop may have made way for a start after it. -/
def Operations.Has (ops : Operations) (after : List Queued) (q : Queued) : Prop :=
  match q.op with
  | .provideOnceOp => q.key ∈ ops.provideOnce
  | .startProvidingOp => q.key ∈ ops.startProviding
  | .forceStartProvidingOp => q.key ∈ ops.forceStartProviding
  | .stopProvidingOp => q.key ∈ ops.stopProviding ∨
      ⟨.startProvidingOp, q.key⟩ ∈ after ∧ q.key ∈ ops.startProviding ∨
      ⟨.forceStartProvidingOp, q.key⟩ ∈ after ∧ q.key ∈ ops.forceStartProviding

/-- By induction on what comes after the operation, from its end: that may take the multihash of a
stop, and then it is one of the starts. -/
theorem has_collect (before : List Queued) (q : Queued) (after : List Queued) :
    (collect (before ++ q :: after)).Has after q := by
  obtain ⟨op, key⟩ := q
  induction after using reverseRecOn with
  | nil =>
    rw [collect_append]
    cases op <;> simp [Operations.Has, add]
  | append_singleton after r ih =>
    obtain ⟨op', key'⟩ := r
    rw [← cons_append, ← append_assoc, collect_append]
    by_cases hkey : key = key'
    · subst hkey
      cases op <;> cases op' <;> simp_all [Operations.Has, add]
    · cases op <;> cases op' <;> simp_all [Operations.Has, add]

/-! ## The provide queue

The calls change the provide queue of the wrapped provider. A call of `ProvideOnce` puts its keys
into it, a start those that are new, and a stop takes its keys out. The calls for a batch differ, so
that each may find another environment. -/

section Queue

variable [TrieLib] {env : Call → CallEnv} {s : State}

def Call.onProvider (env : CallEnv) : Call → ProviderM Unit
  | .provideOnce keys => SweepingProvider.handleProvide env true false keys
  | .startProviding force keys => SweepingProvider.handleProvide env force true keys
  | .stopProviding keys => SweepingProvider.stopProviding env keys

def callAll (env : Call → CallEnv) (calls : List Call) : ProviderM Unit :=
  calls.forM fun call => call.onProvider (env call)

theorem stopProviding_spec (env : CallEnv) (hs : s.Inv) (keys : List Multihash) :
    ∃ s', SweepingProvider.stopProviding env keys s = some ((), s') ∧ s'.Inv ∧
      ∀ k, k ∈ s'.provideQueue.keys.keys ↔
        k ∈ s.provideQueue.keys.keys ∧ k ∉ keys.map mhToBit256 := by
  obtain ⟨q, heq, hq, -, hentries⟩ := ProvideQueue.remove_spec hs.provideQueue env.queueOrder keys
  refine ⟨{ s with provideQueue := q }, ?_, { hs with provideQueue := hq }, fun k => ?_⟩
  · rw [SweepingProvider.stopProviding, heq]
    rfl
  · simp only [Trie.mem_keys, hentries, exists_and_right]

/-- Every call returns, and keeps the invariant of the provider. -/
theorem onProvider_inv {env : CallEnv} (henv : env.Online) (hs : s.Inv) (call : Call) :
    ∃ s', call.onProvider env s = some ((), s') ∧ s'.Inv := by
  have hprovide (reprovide : Bool) (keys : List Multihash) :
      ∃ s', provideKeys env reprovide keys s = some ((), s') ∧ s'.Inv := by
    obtain ⟨s', heq, hs', -⟩ := provideKeys_spec henv hs reprovide keys
    exact ⟨s', heq, hs'⟩
  have hhandle (force reprovide : Bool) (keys : List Multihash) :
      ∃ s', SweepingProvider.handleProvide env force reprovide keys s = some ((), s') ∧ s'.Inv := by
    unfold SweepingProvider.handleProvide
    split
    · exact ⟨s, rfl, hs⟩
    split
    · cases env.put keys with
      | error e => exact ⟨s, rfl, hs⟩
      | ok newKeys => exact hprovide _ _
    · exact hprovide _ _
  cases call with
  | provideOnce keys => exact hhandle _ _ _
  | startProviding force keys => exact hhandle _ _ _
  | stopProviding keys =>
    obtain ⟨s', heq, hs', -⟩ := stopProviding_spec env hs keys
    exact ⟨s', heq, hs'⟩

theorem callAll_cons {call : Call} {calls : List Call} {s' : State}
    (h : call.onProvider (env call) s = some ((), s')) :
    callAll env (call :: calls) s = callAll env calls s' := by
  show (call.onProvider (env call) s).bind _ = _
  rw [h]
  rfl

theorem callAll_append (calls calls' : List Call) {s1 : State}
    (h : callAll env calls s = some ((), s1)) :
    callAll env (calls ++ calls') s = callAll env calls' s1 := by
  induction calls generalizing s with
  | nil =>
    cases h
    rfl
  | cons call calls ih =>
    obtain ⟨⟨_, s'⟩, hcall, hrest⟩ := Option.bind_eq_some_iff.mp h
    exact (callAll_cons hcall).trans (ih hrest)

theorem callAll_inv (henv : ∀ call, (env call).Online) (hs : s.Inv) (calls : List Call) :
    ∃ s', callAll env calls s = some ((), s') ∧ s'.Inv := by
  induction calls generalizing s with
  | nil => exact ⟨s, rfl, hs⟩
  | cons call calls ih =>
    obtain ⟨s1, heq1, hs1⟩ := onProvider_inv (henv call) hs call
    obtain ⟨s2, heq2, hs2⟩ := ih hs1
    exact ⟨s2, (callAll_cons heq1).trans heq2, hs2⟩

theorem callAll_stops (env : Call → CallEnv) (hs : s.Inv) (keys : List Multihash) :
    ∃ s', callAll env (executeOperation .stopProviding keys) s = some ((), s') ∧
      ∀ k, k ∈ s'.provideQueue.keys.keys ↔
        k ∈ s.provideQueue.keys.keys ∧ k ∉ keys.map mhToBit256 := by
  rw [executeOperation]
  split
  · next hkeys => exact ⟨s, rfl, by simp [hkeys]⟩
  · obtain ⟨s', heq, -, hkeys⟩ := stopProviding_spec (env (.stopProviding keys)) hs keys
    exact ⟨s', callAll_cons heq, hkeys⟩

/-- **A key that is provided once** in a batch of well-formed operations is in the provide queue
after the batch exactly when no multihash with its identifier is stopped at the end of the batch,
wherever in the batch the `ProvideOnce` stands. -/
theorem provided_iff [MultihashLib] (henv : ∀ call, (env call).Online) (order : MapOrder Multihash)
    (hwf : ∀ q ∈ queued, MultihashLib.wellFormed q.key) (hs : s.Inv)
    (honce : ⟨.provideOnceOp, h⟩ ∈ queued) :
    ∃ calls s', worker order (queued.map Queued.bytes) = .ok calls ∧
      callAll env calls s = some ((), s') ∧
      (mhToBit256 h ∈ s'.provideQueue.keys.keys ↔
        ∀ m, Stopped queued m → mhToBit256 m ≠ mhToBit256 h) := by
  have hmem : h ∈ (collect queued).provideOnce := by
    obtain ⟨before, after, rfl⟩ := append_of_mem honce
    exact has_collect before ⟨.provideOnceOp, h⟩ after
  obtain ⟨s1, heq1, hs1⟩ := callAll_inv henv hs
    (executeOperation (.startProviding true) (collect queued).forceStartProviding ++
      executeOperation (.startProviding false) (collect queued).startProviding)
  obtain ⟨s2, heq2, hs2, hkeys2⟩ := provideKeys_spec
    (henv (.provideOnce (collect queued).provideOnce)) hs1 false (collect queued).provideOnce
  obtain ⟨s3, heq3, hkeys3⟩ :=
    callAll_stops env hs2 (order.visit (collect queued).stopProviding)
  have hsingle : callAll env (executeOperation .provideOnce (collect queued).provideOnce) s1 =
      some ((), s2) := by
    rw [executeOperation, if_neg (ne_nil_of_mem hmem)]
    refine callAll_cons (Eq.trans ?_ heq2)
    rw [Call.onProvider, SweepingProvider.handleProvide, if_neg (ne_nil_of_mem hmem),
      if_neg Bool.false_ne_true]
  have hqueued : mhToBit256 h ∈ s2.provideQueue.keys.keys :=
    (hkeys2 _).mpr (.inr (mem_map_of_mem hmem))
  refine ⟨_, s3, worker_eq order hwf, ?_, ?_⟩
  · rw [grouped, calls, append_assoc, callAll_append _ _ heq1,
      callAll_append _ _ hsingle, heq3]
  · rw [hkeys3, and_iff_right hqueued, mem_map]
    simp only [(order.perm _).mem_iff, mem_stopProviding_collect, not_exists, not_and, ne_eq]

end Queue

/-- Two keys are stopped, one of them after a start. Another one is provided once. -/
def mixedBatch : List Queued :=
  [⟨.stopProvidingOp, [0, 1, 4]⟩, ⟨.startProvidingOp, [0, 1, 3]⟩, ⟨.provideOnceOp, [0, 1, 2]⟩,
    ⟨.stopProvidingOp, [0, 1, 3]⟩]

theorem provided_iff_mixedBatch :
    ∃ calls s', @worker multihashFormat ⟨id, fun _ => .refl _⟩ (mixedBatch.map Queued.bytes) =
        .ok calls ∧
      @callAll binaryTrie (fun _ => sampleCallEnv) calls State.new = some ((), s') ∧
      mhToBit256 [0, 1, 2] ∈ s'.provideQueue.keys.keys := by
  obtain ⟨calls, s', hcalls, hrun, hiff⟩ := @provided_iff mixedBatch [0, 1, 2] binaryTrie
    (fun _ => sampleCallEnv) State.new multihashFormat (fun _ => ⟨rfl, by decide, by decide⟩)
    ⟨id, fun _ => .refl _⟩ (by
      simp only [mixedBatch, forall_mem_cons]
      exact ⟨rfl, rfl, rfl, rfl, nofun⟩) State.inv_new (by decide)
  refine ⟨calls, s', hcalls, hrun, hiff.mpr fun m hm => ?_⟩
  have hmem : (⟨.stopProvidingOp, m⟩ : Queued) ∈ mixedBatch :=
    (mem_filter.mp (mem_of_getLast? hm)).1
  obtain rfl | rfl : m = [0, 1, 4] ∨ m = [0, 1, 3] := by simpa [mixedBatch] using hmem
  · decide +kernel
  · decide +kernel

/-- The key is stopped and then provided once. In the end it is not in the queue. -/
theorem not_provided_stopped :
    @worker multihashFormat ⟨id, fun _ => .refl _⟩
        ([⟨.stopProvidingOp, [0, 1, 2]⟩, ⟨.provideOnceOp, [0, 1, 2]⟩].map Queued.bytes)
      = .ok [.provideOnce [[0, 1, 2]], .stopProviding [[0, 1, 2]]] ∧
    (@callAll binaryTrie (fun _ => sampleCallEnv)
      [.provideOnce [[0, 1, 2]], .stopProviding [[0, 1, 2]]] State.new).map
        (fun r => r.2.provideQueue) = some .new ∧
    mhToBit256 [0, 1, 2] ∉ ProvideQueue.new.keys.keys :=
  ⟨rfl, by decide +kernel, not_mem_nil⟩

/-! ## Bad items

A batch is parsed as a whole, and one item that is no multihash spoils it. -/

/-- The wrapped provider is called for an operation of a batch. The call for a stop may be the one
for a start of the multihash that comes after it in the batch. -/
def Passed (calls : List Call) (after : List Queued) (q : Queued) : Prop :=
  match q.op with
  | .provideOnceOp => ∃ keys, .provideOnce keys ∈ calls ∧ q.key ∈ keys
  | .startProvidingOp => ∃ keys, .startProviding false keys ∈ calls ∧ q.key ∈ keys
  | .forceStartProvidingOp => ∃ keys, .startProviding true keys ∈ calls ∧ q.key ∈ keys
  | .stopProvidingOp => (∃ keys, .stopProviding keys ∈ calls ∧ q.key ∈ keys) ∨
      (⟨.startProvidingOp, q.key⟩ ∈ after ∧
        ∃ keys, .startProviding false keys ∈ calls ∧ q.key ∈ keys) ∨
      ⟨.forceStartProvidingOp, q.key⟩ ∈ after ∧
        ∃ keys, .startProviding true keys ∈ calls ∧ q.key ∈ keys

theorem mem_executeOperation (f : List Multihash → Call) {keys : List Multihash} (hm : m ∈ keys) :
    f keys ∈ executeOperation f keys := by
  rw [executeOperation, if_neg (ne_nil_of_mem hm)]
  exact mem_singleton_self _

theorem passed_grouped (order : MapOrder Multihash) (before : List Queued) (q : Queued)
    (after : List Queued) : Passed (grouped order (before ++ q :: after)) after q := by
  have hhas := has_collect before q after
  set queued := before ++ q :: after
  obtain ⟨op, key⟩ := q
  have hforce (hmem : key ∈ (collect queued).forceStartProviding) :
      ∃ keys, .startProviding true keys ∈ grouped order queued ∧ key ∈ keys :=
    ⟨_, by simp [grouped, calls, mem_executeOperation _ hmem], hmem⟩
  have hstart (hmem : key ∈ (collect queued).startProviding) :
      ∃ keys, .startProviding false keys ∈ grouped order queued ∧ key ∈ keys :=
    ⟨_, by simp [grouped, calls, mem_executeOperation _ hmem], hmem⟩
  cases op with
  | provideOnceOp =>
    have hmem : key ∈ (collect queued).provideOnce := hhas
    exact ⟨_, by simp [grouped, calls, mem_executeOperation _ hmem], hmem⟩
  | startProvidingOp => exact hstart hhas
  | forceStartProvidingOp => exact hforce hhas
  | stopProvidingOp =>
    rcases hhas with hmem | ⟨hafter, hmem⟩ | ⟨hafter, hmem⟩
    · have hvisit := (order.perm _).mem_iff.mpr hmem
      exact .inl ⟨_, by simp [grouped, calls, mem_executeOperation _ hvisit], hvisit⟩
    · exact .inr (.inl ⟨hafter, hstart hmem⟩)
    · exact .inr (.inr ⟨hafter, hforce hmem⟩)

section Parse

variable [MultihashLib]

/-- Bytes that are not a multihash are rejected. -/
theorem cast_error (hm : ¬ MultihashLib.wellFormed m) : ∃ e, cast m = .error e := by
  unfold cast
  split
  · exact ⟨_, rfl⟩
  · next n m' hparse =>
    refine ⟨_, if_neg fun hn => hm ?_⟩
    rw [hn] at hparse
    exact MultihashLib.wellFormed_of_mhFromBytes hparse

theorem worker_error (order : MapOrder Multihash) (hq : q ∈ queued)
    (hbad : ¬ MultihashLib.wellFormed q.key) :
    ∃ e, worker order (queued.map Queued.bytes) = .error e := by
  have hloop : ∀ ops, ∃ e, getOperationsLoop (queued.map Queued.bytes) ops = .error e := by
    induction queued with
    | nil => cases hq
    | cons r queued ih =>
      intro ops
      rw [map_cons, getOperationsLoop, Queued.bytes, toBytes, fromBytes]
      cases hcast : cast r.key with
      | error e => exact ⟨_, rfl⟩
      | ok m =>
        have hrest : q ∈ queued := by
          refine (mem_cons.mp hq).resolve_left fun heq => ?_
          obtain ⟨e, he⟩ := cast_error hbad
          rw [heq, hcast] at he
          cases he
        dsimp only
        split
        · exact ih hrest _
        · exact ih hrest _
  obtain ⟨e, he⟩ := hloop ⟨[], [], [], []⟩
  rw [worker, getOperations, he]
  exact ⟨e, rfl⟩

/-- **Bad items.** Every well-formed operation of a batch is passed on exactly when the batch has
no bad item, or no well-formed operation. -/
theorem passes_iff (order : MapOrder Multihash) (queued : List Queued) :
    (∀ before q after, queued = before ++ q :: after → MultihashLib.wellFormed q.key →
        ∃ calls, worker order (queued.map Queued.bytes) = .ok calls ∧ Passed calls after q) ↔
      (∀ q ∈ queued, MultihashLib.wellFormed q.key) ∨
        ∀ q ∈ queued, ¬ MultihashLib.wellFormed q.key := by
  constructor
  · intro hpass
    by_contra hmixed
    rw [not_or] at hmixed
    obtain ⟨hbad, hgood⟩ := hmixed
    push Not at hbad hgood
    obtain ⟨bad, hmem, hbad⟩ := hbad
    obtain ⟨good, hmem', hgood⟩ := hgood
    obtain ⟨before, after, hsplit⟩ := append_of_mem hmem'
    obtain ⟨calls, hcalls, -⟩ := hpass before good after hsplit hgood
    obtain ⟨e, he⟩ := worker_error order hmem hbad
    rw [he] at hcalls
    cases hcalls
  · rintro (hwf | hnone) before q after rfl hgood
    · exact ⟨_, worker_eq order hwf, passed_grouped order before q after⟩
    · exact absurd hgood (hnone q (by simp))

end Parse

/-- The second of two operations has no multihash. The first one is not passed on either. -/
theorem not_passes_mixed :
    multihashFormat.wellFormed [0, 1, 2] ∧
    ∃ e, @worker multihashFormat ⟨id, fun _ => .refl _⟩
      ([⟨.startProvidingOp, [0, 1, 2]⟩, ⟨.startProvidingOp, [0]⟩].map Queued.bytes) = .error e :=
  ⟨rfl, _, rfl⟩

end KadDht.Buffered
