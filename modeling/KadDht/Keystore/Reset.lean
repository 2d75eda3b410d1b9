import KadDht.Keystore.Worker

/-!
# Keystore — reset operations (`provider/keystore/resettable_keystore.go`)

A resettable keystore has two datastores, in the namespaces `/0` and `/1` of one datastore, and a
marker next to them that says which one is active. A reset fills the alternate datastore; its
cleanup swaps the two in memory, writes the marker, and empties the datastore that is no longer
used.

* **`atomic_iff`** — the cleanup is atomic unless the write of the marker fails.
-/

namespace KadDht.Keystore

open DsM Datastore

/-! ## Model -/

/-- What the worker of a resettable keystore keeps, next to the active datastore. The base datastore
holds the marker; its calls fail or succeed on their own. -/
structure Resettable where
  size : Int64
  altDs : Datastore
  altSize : Int64
  resetInProgress : Bool
  activeNamespace : UInt8
  base : Session Unit

abbrev ResettableM := DsM Resettable

def activeNamespaceKey : DsKey := DsKey.new ['a', 'c', 't', 'i', 'v', 'e']

/-- A computation of the embedded keystore, on the active datastore. -/
def onDs {α : Type} (m : KeystoreM α) : ResettableM α := fun s =>
  let r := m ⟨⟨s.caller.size⟩, s.store, s.faults, s.calls⟩
  (⟨{ s.caller with size := r.1.caller.size }, r.1.store, r.1.faults, r.1.calls⟩, r.2)

/-- A computation on the alternate datastore that leaves the size alone. -/
def onAltDs {α : Type} (m : KeystoreM α) : ResettableM α := fun s =>
  let r := m ⟨⟨s.caller.size⟩, s.caller.altDs, s.faults, s.calls⟩
  (⟨{ s.caller with altDs := r.1.store }, s.store, r.1.faults, r.1.calls⟩, r.2)

def onBaseDs {α : Type} (m : DsM Unit α) : ResettableM α := fun s =>
  let r := m s.caller.base
  ({ s with caller := { s.caller with base := r.1 } }, r.2)

/-- The datastores are exchanged, with the size and the index of the active one. -/
def swap : ResettableM Unit := fun s =>
  ({ s with
      store := s.caller.altDs
      caller := { s.caller with
        altDs := s.store
        size := s.caller.altSize
        activeNamespace := 1 - s.caller.activeNamespace } }, .ok ())

/-- The marker is written; errors are only logged. -/
def persistActiveNamespace : ResettableM Unit := do
  let s ← DsM.caller
  DsM.ignore (onBaseDs (DsM.put activeNamespaceKey [s.activeNamespace]))
  DsM.ignore (onBaseDs (DsM.call ""))

inductive ResetOp where
  | start
  | cleanup (success : Bool)

/-- `handleResetOp`. The result is what is sent to the response channel. -/
def handleResetOp (cfg : Config) (faults : CommitFaults) : ResetOp → ResettableM Unit
  | .start => do
    let s ← DsM.caller
    if s.resetInProgress then DsM.fail (.error "reset already in progress")
    else do
      DsM.setCaller { s with altSize := 0 }
      onAltDs (empty cfg faults)
      let s ← DsM.caller
      DsM.setCaller { s with resetInProgress := true }
  | .cleanup success => do
    if success then
      swap
      persistActiveNamespace
    let s ← DsM.caller
    DsM.setCaller { s with resetInProgress := false }
    onAltDs (empty cfg faults)

/-- What the underlying datastore holds: the marker, and the two namespaces. -/
structure Disk where
  base : Datastore
  zero : Datastore
  one : Datastore

/-- The datastores of a keystore are namespaces of the underlying one. -/
def Resettable.disk (c : Resettable) (ds : Datastore) : Disk :=
  if c.activeNamespace = 0 then ⟨c.base.store, ds, c.altDs⟩ else ⟨c.base.store, c.altDs, ds⟩

/-- `NewResettableKeystore`, up to the start of its worker. -/
def newResettableKeystore (d : Disk) : Except Failure (Resettable × Datastore) :=
  let opened (activeIdx : UInt8) (altDs : Datastore) : Resettable :=
    { size := 0, altDs, altSize := 0, resetInProgress := false, activeNamespace := activeIdx,
      base := ⟨(), d.base, fun _ => none, 0⟩ }
  match d.base.find activeNamespaceKey with
  | none => .ok (opened 0 d.one, d.zero)
  | some activeDs =>
    match activeDs with
    | [activeIdx] =>
      if activeIdx = 0 then .ok (opened 0 d.one, d.zero)
      else if activeIdx = 1 then .ok (opened 1 d.zero, d.one)
      -- there are two datastores to index
      else .error .panic
    | _ => .error (.error
        ("invalid active namespace marker length: " ++ toString activeDs.length))

/-! ## What the operations do -/

section Specs

variable {α : Type} {cfg : Config} {faults : CommitFaults} {c : Resettable} {d : Datastore}
  {H : (Nat → Option String) → Prop}

theorem ends_onAltDs {m : KeystoreM α} {Q : Except Failure α → Resettable → Datastore → Prop}
    (h : EndsIn H m ⟨c.size⟩ c.altDs fun r _ d' => Q r { c with altDs := d' } d) :
    EndsIn H (onAltDs m) c d Q := by
  rintro s hs rfl rfl
  exact h ⟨⟨s.caller.size⟩, s.caller.altDs, s.faults, s.calls⟩ hs rfl rfl

theorem ends_onBaseDs {m : DsM Unit α} {Q : Except Failure α → Resettable → Datastore → Prop}
    (h : Q (m c.base).2 { c with base := (m c.base).1 } d) :
    EndsIn H (onBaseDs m) c d Q := by
  rintro s hs rfl rfl
  exact ⟨hs, h⟩

/-- **`opStart`**: when the reset starts, the alternate datastore is empty. -/
theorem start_settles : EndsIn H (handleResetOp cfg faults .start) c d fun r c' d' =>
    d' = d ∧ (r = .ok () → c' = { c with
      altDs := Datastore.empty, altSize := 0, resetInProgress := true }) := by
  refine EndsIn.bind (ends_caller ?_)
  show EndsIn H (if c.resetInProgress = true then _ else _) c d _
  split
  · exact ends_fail ⟨rfl, nofun⟩
  · refine EndsIn.bind (ends_setCaller (EndsIn.bind (ends_onAltDs
      (empty_settles.mono fun r _ d' hr => ?_))))
    match r with
    | .ok () =>
      obtain rfl := hr
      exact EndsIn.bind (ends_caller (ends_setCaller ⟨rfl, fun _ => rfl⟩))
    | .error e => exact ⟨rfl, nofun⟩

/-- **`opStart`** and the flag: it fails if the flag is set, and sets it if it succeeds. -/
theorem start_flag : EndsIn H (handleResetOp cfg faults .start) c d fun r c' d' =>
    (r = .ok () → c.resetInProgress = false ∧ c'.resetInProgress = true) ∧
      (r ≠ .ok () → c'.resetInProgress = c.resetInProgress) ∧
      (c.resetInProgress = true → c' = c ∧ d' = d) := by
  refine EndsIn.bind (ends_caller ?_)
  show EndsIn H (if c.resetInProgress = true then _ else _) c d _
  split
  · exact ends_fail ⟨nofun, fun _ => rfl, fun _ => ⟨rfl, rfl⟩⟩
  · next hflag =>
    rw [Bool.not_eq_true] at hflag
    have hset {P : Prop} (h : c.resetInProgress = true) : P := nomatch hflag.symm.trans h
    refine EndsIn.bind (ends_setCaller (EndsIn.bind (ends_onAltDs
      (empty_settles.mono fun r _ d' hr => ?_))))
    match r with
    | .ok () =>
      exact EndsIn.bind (ends_caller (ends_setCaller
        ⟨fun _ => ⟨hflag, rfl⟩, fun h => (h rfl).elim, hset⟩))
    | .error e => exact ⟨nofun, fun _ => rfl, hset⟩

/-- What the base datastore holds once the marker was written, or failed to be. -/
def marked (base : Session Unit) (activeNamespace : UInt8) : Datastore :=
  if base.faults base.calls = none then base.store.put activeNamespaceKey [activeNamespace]
  else base.store

theorem ends_ignore_onBaseDs {m : DsM Unit Unit}
    {Q : Except Failure Unit → Resettable → Datastore → Prop} (hm : (m c.base).2 ≠ .error .panic)
    (hQ : Q (.ok ()) { c with base := (m c.base).1 } d) :
    EndsIn H (ignore (onBaseDs m)) c d Q := by
  refine EndsIn.handle (ends_onBaseDs ?_)
  match hr : (m c.base).2 with
  | .ok () => exact hQ
  | .error (.error e) => exact ends_pure hQ
  | .error .panic => exact (hm hr).elim

theorem call_ne_panic (what : String) (base : Session Unit) :
    (call what base).2 ≠ .error .panic := by
  unfold call
  split
  · exact nofun
  · exact nofun

theorem call_store (what : String) (base : Session Unit) :
    (call what base).1.store = base.store := by
  unfold call
  split
  · rfl
  · rfl

/-- The marker is written unless the call fails, and then the base datastore is left alone. -/
theorem put_marked (base : Session Unit) (activeNamespace : UInt8) :
    (DsM.put activeNamespaceKey [activeNamespace] base).1.store = marked base activeNamespace ∧
      (DsM.put activeNamespaceKey [activeNamespace] base).2 ≠ .error .panic := by
  unfold DsM.put marked
  cases hcall : base.faults base.calls with
  | none | some e => simp [bind, DsM.call, hcall]

theorem persistActiveNamespace_ends : EndsIn H persistActiveNamespace c d fun r c' d' =>
    r = .ok () ∧ d' = d ∧ ∃ base : Session Unit,
      base.store = marked c.base c.activeNamespace ∧ c' = { c with base := base } := by
  obtain ⟨hstore, hpanic⟩ := put_marked c.base c.activeNamespace
  refine EndsIn.bind (ends_caller (EndsIn.bind (ends_ignore_onBaseDs hpanic ?_)))
  refine ends_ignore_onBaseDs (call_ne_panic _ _) ⟨rfl, rfl, _, ?_, rfl⟩
  rw [call_store]
  exact hstore

/-- **`opCleanup`** of a reset that succeeded: whatever fails, the alternate datastore becomes the
active one. What is left of the old one is up to `empty`. -/
theorem cleanup_ends {E : Datastore → Prop}
    (hE : ∀ c, EndsIn H (empty cfg faults) c d fun _ _ d' => E d') :
    EndsIn H (handleResetOp cfg faults (.cleanup true)) c d fun _ c' d' =>
      d' = c.altDs ∧ c'.size = c.altSize ∧ E c'.altDs ∧
      c'.activeNamespace = 1 - c.activeNamespace ∧ c'.resetInProgress = false ∧
      c'.base.store = marked c.base (1 - c.activeNamespace) := by
  have hswap : EndsIn H swap c d fun r c' d' => r = .ok () ∧ d' = c.altDs ∧
      c' = { c with
        altDs := d, size := c.altSize, activeNamespace := 1 - c.activeNamespace } := by
    rintro s hs rfl rfl
    exact ⟨hs, rfl, rfl, rfl⟩
  refine EndsIn.bind (hswap.mono fun r c1 d1 hr => ?_)
  obtain ⟨rfl, rfl, rfl⟩ := hr
  refine EndsIn.bind (persistActiveNamespace_ends.mono fun r c2 d2 hr => ?_)
  obtain ⟨rfl, rfl, base, hbase, rfl⟩ := hr
  refine EndsIn.bind (ends_caller (EndsIn.bind (ends_setCaller (ends_onAltDs ?_))))
  exact (hE _).mono fun r _ d' hd' => ⟨rfl, rfl, hd', rfl, rfl, hbase⟩

/-- **`opCleanup`** ends the reset, whether it succeeded or not. -/
theorem cleanup_flag (success : Bool) :
    EndsIn H (handleResetOp cfg faults (.cleanup success)) c d
      fun _ c' _ => c'.resetInProgress = false := by
  cases success with
  | true =>
    have htrue (c : State) : EndsIn H (empty cfg faults) c d fun _ _ _ => True :=
      empty_settles.mono fun _ _ _ _ => trivial
    exact (cleanup_ends htrue).mono fun _ _ _ h => h.2.2.2.2.1
  | false =>
    refine EndsIn.bind (ends_caller (EndsIn.bind (ends_setCaller (ends_onAltDs ?_))))
    exact empty_settles.mono fun _ _ _ _ => rfl

end Specs

/-! ## The marker and the namespaces -/

/-- The marker names the active namespace; the first one needs no marker. -/
def Persisted (c : Resettable) : Prop :=
  c.activeNamespace = 0 ∧ c.base.store.find activeNamespaceKey = none ∨
  (c.activeNamespace = 0 ∨ c.activeNamespace = 1) ∧
    c.base.store.find activeNamespaceKey = some [c.activeNamespace]

variable {c : Resettable}

theorem open_of_persisted (h : Persisted c) (d : Datastore) :
    ∃ c', newResettableKeystore (c.disk d) = .ok (c', d) := by
  rcases h with ⟨h0, hnone⟩ | ⟨h0 | h1, hsome⟩
  · rw [Resettable.disk, if_pos h0, newResettableKeystore]
    rw [hnone]
    exact ⟨_, rfl⟩
  · rw [Resettable.disk, if_pos h0, newResettableKeystore]
    rw [hsome, h0]
    exact ⟨_, rfl⟩
  · rw [Resettable.disk, if_neg (by rw [h1]; decide), newResettableKeystore]
    rw [hsome, h1]
    exact ⟨_, rfl⟩

theorem disk_of_flipped {a : UInt8} (ha : a = 0 ∨ a = 1) (hc : c.activeNamespace = 1 - a)
    (d : Datastore) : c.disk d = { c with activeNamespace := a, altDs := d }.disk c.altDs := by
  unfold Resettable.disk
  rcases ha with rfl | rfl
  · rw [hc]
    rfl
  · rw [hc]
    rfl

theorem Persisted.index (h : Persisted c) : c.activeNamespace = 0 ∨ c.activeNamespace = 1 := by
  rcases h with ⟨h0, -⟩ | ⟨h, -⟩
  · exact .inl h0
  · exact h

theorem Persisted.of_marked {c' : Resettable} (hc : Persisted c)
    (hactive : c'.activeNamespace = 1 - c.activeNamespace)
    (hbase : c'.base.store = c.base.store.put activeNamespaceKey [1 - c.activeNamespace]) :
    Persisted c' := by
  refine .inr ⟨?_, ?_⟩
  · rw [hactive]
    rcases hc.index with h0 | h1
    · rw [h0]
      exact .inr rfl
    · rw [h1]
      exact .inl rfl
  · rw [hbase, hactive, find_put]

theorem open_of_stale {c' : Resettable} (hc : Persisted c)
    (hactive : c'.activeNamespace = 1 - c.activeNamespace) (hbase : c'.base.store = c.base.store)
    (d : Datastore) : ∃ c'', newResettableKeystore (c'.disk d) = .ok (c'', c'.altDs) := by
  rw [disk_of_flipped hc.index hactive]
  refine open_of_persisted ?_ c'.altDs
  unfold Persisted
  rw [hbase]
  exact hc

/-! ## Mishaps -/

/-- What goes wrong during a cleanup. The calls are numbered: the write of the marker, its sync, and
then the calls of `empty`. A commit that goes wrong has applied part of its writes. -/
inductive Mishap where
  /-- One call fails. -/
  | failure (call : Nat) (error : String) (applied : BatchOp → Bool)
  /-- The process stops: neither this call nor a later one has an effect. -/
  | crash (call : Nat) (applied : BatchOp → Bool)

namespace Mishap

def outcome : Mishap → Nat → Option (String × (Batch → Batch))
  | failure call error applied, n => if n = call then some (error, List.filter applied) else none
  | crash call applied, n =>
    if n < call then none
    else if n = call then some ("", List.filter applied)
    else some ("", fun _ => [])

variable {n : Nat}

theorem outcome_sublist {mishap : Mishap} {e : String} {g : Batch → Batch}
    (h : mishap.outcome n = some (e, g)) (b : Batch) : (g b).Sublist b := by
  cases mishap with
  | failure call error applied =>
    rw [outcome] at h
    split at h
    · cases h
      exact List.filter_sublist
    · cases h
  | crash call applied =>
    rw [outcome] at h
    split at h
    · cases h
    · split at h
      · cases h
        exact List.filter_sublist
      · cases h
        exact List.nil_sublist b

def commits (mishap : Mishap) : CommitFaults where
  applied n := mishap.outcome (n + 2)
  sublist _ _ _ b h := outcome_sublist h b

def session (mishap : Mishap) (c : Resettable) (d : Datastore) : Session Resettable where
  caller := { c with base := ⟨(), c.base.store, fun n => (mishap.outcome n).map Prod.fst, 0⟩ }
  store := d
  faults n := (mishap.outcome (n + 2)).map Prod.fst
  calls := 0

theorem session_faults {mishap : Mishap} {c : Resettable} {d : Datastore} :
    (mishap.session c d).faults n = none ↔ mishap.outcome (n + 2) = none :=
  Option.map_eq_none_iff

theorem outcome_failure {call : Nat} {e : String} {applied : BatchOp → Bool} :
    (failure call e applied).outcome n = none ↔ n ≠ call := by
  rw [outcome]
  split
  · next h => simp [h]
  · next h => simp [h]

theorem outcome_crash {call : Nat} {applied : BatchOp → Bool} :
    (crash call applied).outcome n = none ↔ n < call := by
  rw [outcome]
  split
  · next h => simp [h]
  · next h =>
    split
    · simp [h]
    · simp [h]

def FailsMarker : Mishap → Prop
  | failure call _ _ => call = 0
  | crash _ _ => False

end Mishap

/-- What the underlying datastore holds after the cleanup of a reset that succeeded. -/
def cleanedUp (cfg : Config) (mishap : Mishap) (c : Resettable) (d : Datastore) : Disk :=
  let s := (handleResetOp cfg mishap.commits (.cleanup true) (mishap.session c d)).1
  s.caller.disk s.store

/-- A keystore opened afterwards has exactly the old keys, or exactly the new ones. -/
def Atomic (cfg : Config) (mishap : Mishap) (c : Resettable) (d : Datastore) : Prop :=
  ∃ c' d', newResettableKeystore (cleanedUp cfg mishap c d) = .ok (c', d') ∧
    (d' = d ∨ d' = c.altDs)

section Atomic

variable {cfg : Config} {mishap : Mishap} {c : Resettable} {d : Datastore}

theorem open_cleanedUp_of_marked (hc : Persisted c) (hmarker : mishap.outcome 0 = none) :
    ∃ c', newResettableKeystore (cleanedUp cfg mishap c d) = .ok (c', c.altDs) := by
  have htrue : ∀ c, EndsIn (fun _ => True) (empty cfg mishap.commits) c d fun _ _ _ => True :=
    fun _ _ _ _ _ => ⟨trivial, trivial⟩
  obtain ⟨-, hstore, -, -, hactive, -, hbase⟩ :=
    cleanup_ends htrue (mishap.session c d) trivial rfl rfl
  have hput : marked (mishap.session c d).caller.base (1 - c.activeNamespace) =
      c.base.store.put activeNamespaceKey [1 - c.activeNamespace] := by
    refine if_pos ?_
    show (mishap.outcome 0).map Prod.fst = none
    rw [hmarker, Option.map_none]
  obtain ⟨c', hopen⟩ := open_of_persisted (hc.of_marked hactive (hbase.trans hput)) _
  exact ⟨c', hopen.trans (congrArg (fun d' => Except.ok (c', d')) hstore)⟩

theorem open_cleanedUp_of_not_marked {E : Datastore → Prop} {H : (Nat → Option String) → Prop}
    (hc : Persisted c) (hmarker : mishap.outcome 0 ≠ none) (hs : H (mishap.session c d).faults)
    (hE : ∀ c, EndsIn H (empty cfg mishap.commits) c d fun _ _ d' => E d') :
    ∃ c' d', newResettableKeystore (cleanedUp cfg mishap c d) = .ok (c', d') ∧ E d' := by
  obtain ⟨-, -, -, hempty, hactive, -, hbase⟩ := cleanup_ends hE (mishap.session c d) hs rfl rfl
  have hskip : marked (mishap.session c d).caller.base (1 - c.activeNamespace) = c.base.store := by
    refine if_neg ?_
    show ¬ (mishap.outcome 0).map Prod.fst = none
    rwa [Option.map_eq_none_iff]
  obtain ⟨c', hopen⟩ := open_of_stale hc hactive (hbase.trans hskip) _
  exact ⟨c', _, hopen, hempty⟩

variable (cfg d) in
theorem open_cleanedUp_of_failsMarker (hc : Persisted c) (hfails : mishap.FailsMarker) :
    ∃ c', newResettableKeystore (cleanedUp cfg mishap c d) = .ok (c', Datastore.empty) := by
  cases mishap with
  | crash call applied => exact hfails.elim
  | failure call e applied =>
    obtain rfl : call = 0 := hfails
    have hlater : ∀ n, (Mishap.failure 0 e applied).outcome (n + 2) = none :=
      fun n => Mishap.outcome_failure.mpr (by omega)
    -- everything else works, so the old datastore is emptied
    have hempty : ∀ c, Ends (empty cfg (Mishap.failure 0 e applied).commits) c d
        fun _ _ d' => d' = Datastore.empty := fun c => empty_settles.mono fun r _ d' hr => by
      match r with
      | .ok () => exact hr
      | .error (.error _) =>
        rcases hr.fault with ⟨f, n, e, hf, he⟩ | ⟨n, hn⟩
        · exact nomatch (hf n).symm.trans he
        · exact (hn (hlater n)).elim
      | .error .panic => exact hr.elim
    obtain ⟨c', d', hopen, rfl⟩ := open_cleanedUp_of_not_marked hc
      (fun h => Mishap.outcome_failure.mp h rfl) (fun n => Mishap.session_faults.mpr (hlater n))
      hempty
    exact ⟨c', hopen⟩

/-- **Atomicity.** The cleanup of a reset is atomic unless the write of the marker fails, and there
are old keys and new keys. -/
theorem atomic_iff (cfg : Config) (mishap : Mishap) (c : Resettable) (d : Datastore)
    (hc : Persisted c) : Atomic cfg mishap c d ↔
      ¬ mishap.FailsMarker ∨ d = Datastore.empty ∨ c.altDs = Datastore.empty := by
  cases mishap with
  | failure call e applied =>
    by_cases hcall : call = 0
    · obtain ⟨c', hopen⟩ := open_cleanedUp_of_failsMarker cfg d hc
        (show (Mishap.failure call e applied).FailsMarker from hcall)
      constructor
      · rintro ⟨c'', d'', hopen', hd⟩
        obtain ⟨-, rfl⟩ := Prod.mk.inj (Except.ok.inj (hopen.symm.trans hopen'))
        exact .inr (hd.imp Eq.symm Eq.symm)
      · rintro (hspared | hd)
        · exact (hspared hcall).elim
        · exact ⟨c', _, hopen, hd.imp Eq.symm Eq.symm⟩
    · refine iff_of_true ?_ (.inl hcall)
      obtain ⟨c', hopen⟩ := open_cleanedUp_of_marked hc (Mishap.outcome_failure.mpr (Ne.symm hcall))
      exact ⟨c', _, hopen, .inr rfl⟩
  | crash call applied =>
    refine iff_of_true ?_ (.inl id)
    by_cases hcall : call = 0
    · -- nothing is written any more, not even by `empty`
      subst hcall
      have hdown : ∀ n, (Mishap.crash 0 applied).outcome n ≠ none :=
        fun n h => Nat.not_lt_zero n (Mishap.outcome_crash.mp h)
      have hkept : ∀ c, EndsIn (fun f => ∀ n, f n ≠ none)
          (empty cfg (Mishap.crash 0 applied).commits) c d fun _ _ d' => d' = d := fun c =>
        EndsIn.bind (EndsIn.bind (ends_call (fun f n hf hn => (hf n hn).elim) fun _ _ _ _ _ => rfl))
      obtain ⟨c', d', hopen, rfl⟩ := open_cleanedUp_of_not_marked hc (hdown 0)
        (fun n h => hdown (n + 2) (Mishap.session_faults.mp h)) hkept
      exact ⟨c', _, hopen, .inl rfl⟩
    · obtain ⟨c', hopen⟩ :=
        open_cleanedUp_of_marked hc (Mishap.outcome_crash.mpr (Nat.pos_of_ne_zero hcall))
      exact ⟨c', _, hopen, .inr rfl⟩

end Atomic

def oneReset : Resettable where
  size := 1
  altDs := ⟨[entryOf 16 [3, 4]], List.nodup_singleton _⟩
  altSize := 1
  resetInProgress := true
  activeNamespace := 0
  base := ⟨(), Datastore.empty, fun _ => none, 0⟩

theorem oneReset_persisted : Persisted oneReset := .inl ⟨rfl, rfl⟩

/-- The write of the marker fails, and the keystore that is opened afterwards is empty. -/
theorem keys_lost_without_marker :
    Persisted oneReset ∧
      ¬ Atomic defaultConfig (.failure 0 "disk full" fun _ => false) oneReset oneStored := by
  refine ⟨oneReset_persisted, ?_⟩
  rintro ⟨c, d, hopen, hd⟩
  obtain ⟨c', hopen'⟩ := open_cleanedUp_of_failsMarker defaultConfig oneStored oneReset_persisted
    (show (Mishap.failure 0 "disk full" fun _ => false).FailsMarker from rfl)
  obtain ⟨-, rfl⟩ := Prod.mk.inj (Except.ok.inj (hopen'.symm.trans hopen))
  rcases hd with hd | hd
  · exact nomatch congrArg entries hd
  · exact nomatch congrArg entries hd

theorem atomic_oneReset :
    Persisted oneReset ∧ Atomic defaultConfig (.crash 0 fun _ => false) oneReset oneStored :=
  ⟨oneReset_persisted, (atomic_iff _ _ _ _ oneReset_persisted).mpr (.inl id)⟩

end KadDht.Keystore
