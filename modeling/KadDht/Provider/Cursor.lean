import KadDht.Provider.Alarm
import KadDht.Provider.Network

/-!
# Provider — the cursor is scheduled

Whatever operations ran since the provider was created, the scheduled prefixes are disjoint, and
the cursor is one of them unless nothing is scheduled. So the walk to the next prefix never leaves
the bits of the cursor, and never comes back empty-handed where the code relies on a result.
-/

namespace KadDht

open BitKey Trie

namespace SweepingProvider

/-! ## The invariant -/

/-- The tries and queues are consistent, the scheduled prefixes have at most `keyLen` bits, and the
cursor is one of them unless there are none. -/
structure CursorInv (s : State) : Prop where
  inv : s.Inv
  short : ∀ k ∈ s.schedule.keys, k.length ≤ keyLen
  cursor : s.schedule.entries ≠ [] → s.scheduleCursor ∈ s.schedule.keys

namespace CursorInv

variable {s s' : State} {env : Env} {pfx : Bitstr}

/-- Setting the alarm for an entry. -/
theorem alarmFor (h : CursorInv s) (env : Env) {e : Bitstr × Duration}
    (he : e.1 ∈ s.schedule.keys) :
    CursorInv (s.alarmFor env e) :=
  ⟨{ h.inv with }, h.short, fun _ => he⟩

theorem tick (h : CursorInv s) (readings : Nat) : CursorInv (s.tick readings) :=
  ⟨{ h.inv with }, h.short, h.cursor⟩

theorem enqueued (h : CursorInv s) {ps : List Bitstr} (henq : Enqueued ps s s') : CursorInv s' := by
  obtain ⟨q, hinv, -, rfl⟩ := henq
  exact ⟨{ h.inv with reprovideQueue := hinv }, h.short, h.cursor⟩

theorem unscheduled (h : CursorInv s) (hun : Unscheduled env pfx s s') : CursorInv s' := by
  have hwf := pruneSubtrie_wf h.inv.schedule pfx
  have hmem := mem_keys_pruneSubtrie h.inv.schedule pfx
  have hinv : State.Inv { s with schedule := pruneSubtrie s.schedule pfx } :=
    { h.inv with schedule := hwf }
  have hshort : ∀ k ∈ (pruneSubtrie s.schedule pfx).keys, k.length ≤ keyLen := fun k hk =>
    h.short k ((hmem k).mp hk).1
  cases hun with
  | elsewhere hcursor =>
    refine ⟨hinv, hshort, fun hne => ?_⟩
    obtain ⟨e, he⟩ := List.exists_mem_of_ne_nil _ hne
    have hne' : s.schedule.entries ≠ [] :=
      List.ne_nil_of_mem ((mem_pruneSubtrie h.inv.schedule pfx e).mp he).1
    exact (hmem _).mpr ⟨h.cursor hne', hcursor⟩
  | emptied hcursor hempty timer startedAt clock =>
    refine ⟨{ h.inv with schedule := hwf }, hshort, fun hne => ?_⟩
    exact absurd (congrArg entries hempty) hne
  | moved hcursor e hnext he =>
    exact ⟨{ h.inv with schedule := hwf }, hshort, fun _ => mem_keys_of_mem he⟩

/-- Advancing the cursor, after a prefix was added: the cursor is the prefix or an older one. -/
theorem advanced (hinv : s.Inv) (hshort : ∀ k ∈ s.schedule.keys, k.length ≤ keyLen)
    (hpfx : pfx ∈ s.schedule.keys)
    (hkept : s.schedule.isNonEmptyLeaf = false → s.scheduleCursor ∈ s.schedule.keys)
    {d : Duration} (hadv : Advanced env pfx d s s') : CursorInv s' := by
  cases hadv with
  | only k d' hleaf | sooner following hnext hcursor hmem hlt =>
    exact ⟨{ hinv with }, hshort, fun _ => hpfx⟩
  | later hnode following hnext hcursor hmem hlt =>
    exact ⟨{ hinv with }, hshort, fun _ => hcursor ▸ mem_keys_of_mem hmem⟩
  | unrelated hnode following hnext hcursor => exact ⟨hinv, hshort, fun _ => hkept hnode⟩

theorem scheduled [LeafTrieLib] (h : CursorInv s) (hshort : pfx.length ≤ keyLen) {d : Duration}
    (hsch : Scheduled env pfx d s s') : CursorInv s' := by
  cases hsch with
  | covered hcov readings => exact h.tick readings
  | added hcov readings s1 s2 hun hadv =>
    have h1 := (h.tick readings).unscheduled hun
    have hdisj : ∀ k ∈ s1.schedule.keys, ¬ Overlap k pfx := by
      rw [hun.schedule_eq]
      exact not_overlap_pruneSubtrie h.inv.schedule hcov
    obtain ⟨hinv, hkeys⟩ := Inv.add_schedule h1.inv hdisj d
    refine advanced hinv (fun k hk => ?_) ((hkeys pfx).mpr (.inr rfl)) (fun hnode => ?_) hadv
    · rcases (hkeys k).mp hk with hk | rfl
      · exact h1.short k hk
      · exact hshort
    · -- something else is scheduled, or the new prefix would be in a leaf
      exact (hkeys _).mpr
        (.inl (h1.cursor (LeafTrieLib.entries_ne_nil_of_add h1.inv.schedule hnode)))

theorem started (h : CursorInv s) {r : Option Bitstr} (hstart : Started env pfx s r s') :
    CursorInv s' := by
  cases hstart with
  | offline hoff s' henq => exact h.enqueued henq
  | online hon q hinv hq =>
    exact ⟨{ h.inv with reprovideQueue := hinv }, h.short, h.cursor⟩

theorem handled (h : CursorInv s) {r : Option Bitstr} (hh : Handled env s r s') : CursorInv s' := by
  cases hh with
  | idle hnil => exact h
  | single next hnext hkey r s' hstart =>
    refine (h.alarmFor env (h.cursor fun hnil => ?_)).started hstart
    rw [h.inv.schedule.entries_eq_nil.mp hnil] at hnext
    cases hnext
  | overdue next hnext hkey hlong e he s1 henq =>
    refine ((h.tick 2).enqueued henq).alarmFor env ?_
    obtain ⟨q, -, -, rfl⟩ := henq
    exact mem_keys_of_mem he
  | due next hnext hkey hlong passed final hwalk s1 henq r s' hstart =>
    refine (((h.tick 2).enqueued henq).alarmFor env ?_).started hstart
    obtain ⟨q, -, -, rfl⟩ := henq
    exact mem_keys_of_mem hwalk.mem

end CursorInv

/-! ## Runs -/

inductive ScheduleOp where
  | schedule (pfx : Bitstr) (justReprovided : Bool)
  | unschedule (pfx : Bitstr)
  /-- The timer fires. -/
  | handle
  /-- The node comes online. -/
  | online

def ScheduleOp.Short : ScheduleOp → Prop
  | .schedule pfx _ | .unschedule pfx => pfx.length ≤ keyLen
  | _ => True

def ScheduleOp.run [TrieLib] (env : Env) : ScheduleOp → ProviderM Unit
  | .schedule pfx justReprovided => schedulePrefixNoLock env pfx justReprovided
  | .unschedule pfx => unscheduleSubsumedPrefixesNoLock env pfx
  | .handle => do
    let _ ← handleReprovide env
    pure ()
  | .online => onOnlineSkipBootstrap env

/-- Operations one after the other, each with the clock and the surroundings it meets. -/
def runOps [TrieLib] (ops : List (Env × ScheduleOp)) : ProviderM Unit :=
  ops.forM fun op => op.2.run op.1

section Runs

variable [LeafTrieLib]

/-- **One operation** returns, and keeps the invariant. -/
theorem step_cursorInv {s : State} (h : CursorInv s) (env : Env) {op : ScheduleOp}
    (hshort : op.Short) : ∃ s', op.run env s = some ((), s') ∧ CursorInv s' := by
  cases op with
  | schedule pfx justReprovided =>
    obtain ⟨s', hrun, hsch⟩ := schedulePrefixNoLock_cases env pfx justReprovided h.inv.schedule
    exact ⟨s', hrun, h.scheduled hshort hsch⟩
  | unschedule pfx =>
    obtain ⟨s', hrun, hun⟩ := unscheduleSubsumedPrefixesNoLock_cases env pfx h.inv.schedule
    exact ⟨s', hrun, h.unscheduled hun⟩
  | handle =>
    obtain ⟨r, s', hrun, hh⟩ := handleReprovide_cases env h.inv h.cursor
    refine ⟨s', ?_, h.handled hh⟩
    show (handleReprovide env s).bind _ = _
    rw [hrun]
    rfl
  | online =>
    cases hiter : entriesIter s.schedule env.order with
    | nil => exact ⟨s, onOnlineSkipBootstrap_nil hiter, h⟩
    | cons entry rest =>
      refine ⟨_, onOnlineSkipBootstrap_cons hiter, h.alarmFor env (mem_keys_of_mem ?_)⟩
      rw [← (entriesIter_perm s.schedule env.order).mem_iff, hiter]
      exact List.mem_cons_self

/-- **Every run** returns, and keeps the invariant. -/
theorem runOps_cursorInv {s : State} (h : CursorInv s) (ops : List (Env × ScheduleOp))
    (hshort : ∀ op ∈ ops, op.2.Short) : ∃ s', runOps ops s = some ((), s') ∧ CursorInv s' := by
  induction ops generalizing s with
  | nil => exact ⟨s, rfl, h⟩
  | cons op ops ih =>
    obtain ⟨s1, hrun1, h1⟩ := step_cursorInv h op.1 (hshort op List.mem_cons_self)
    obtain ⟨s2, hrun2, h2⟩ := ih h1 fun op' hop' => hshort op' (List.mem_cons_of_mem op hop')
    refine ⟨s2, ?_, h2⟩
    show (op.2.run op.1 s).bind _ = _
    rw [hrun1]
    exact hrun2

/-- **The cursor is scheduled.** From an empty schedule, every sequence of operations returns; the
scheduled prefixes are then disjoint, and the cursor is one of them unless there are none. -/
theorem cursor_scheduled {s : State} (hs : s.Inv) (hempty : s.schedule = .emptyLeaf)
    (ops : List (Env × ScheduleOp)) (hshort : ∀ op ∈ ops, op.2.Short) :
    ∃ s', runOps ops s = some ((), s') ∧
      PrefixFree {p | p ∈ s'.schedule.keys} ∧ (∀ p ∈ s'.schedule.keys, p.length ≤ keyLen) ∧
      (s'.schedule.entries ≠ [] → s'.scheduleCursor ∈ s'.schedule.keys) := by
  have hstart : CursorInv s := by
    refine ⟨hs, ?_, ?_⟩
    · simp [hempty]
    · simp [hempty]
  obtain ⟨s', hrun, hend⟩ := runOps_cursorInv hstart ops hshort
  exact ⟨s', hrun, hend.inv.prefixFree_scheduled, hend.short, hend.cursor⟩

end Runs

/-- Two prefixes are scheduled, the timer fires, the cursor is unscheduled together with its
neighbours, and the node comes online. -/
def sampleScheduleOps : List (Env × ScheduleOp) :=
  [.schedule [false, false] false, .schedule [true] true, .handle, .unschedule [false],
    .schedule [false, true] false, .online].map (sampleEnv [], ·)

theorem cursor_scheduled_sample :
    (∀ op ∈ sampleScheduleOps, op.2.Short) ∧ State.new.Inv ∧
    ∃ s', @runOps binaryLeafTrie.toTrieLib sampleScheduleOps State.new = some ((), s') ∧
      PrefixFree {p | p ∈ s'.schedule.keys} ∧ (∀ p ∈ s'.schedule.keys, p.length ≤ keyLen) ∧
      (s'.schedule.entries ≠ [] → s'.scheduleCursor ∈ s'.schedule.keys) := by
  have hshort : ∀ op ∈ sampleScheduleOps, op.2.Short := by
    simp [sampleScheduleOps, ScheduleOp.Short, keyLen]
  exact ⟨hshort, State.inv_new,
    @cursor_scheduled binaryLeafTrie _ State.inv_new rfl sampleScheduleOps hshort⟩

end SweepingProvider

end KadDht
