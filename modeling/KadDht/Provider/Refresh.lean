import KadDht.Keyspace.Gaps
import KadDht.Provider.Network

/-!
# Provider — refreshing the schedule (`provider/provider.go`)

`RefreshSchedule` looks for the parts of the keyspace that no scheduled prefix covers, cuts them
into regions of about the average size, and schedules those that hold keys of the keystore.

* **`refreshSchedule_covers_iff`** — afterwards every stored key is covered by exactly one scheduled
  prefix; no scheduled prefix is lost, and no needless one is added. Where a gap is to be extended
  by 45 bits or more, the method panics.
-/

namespace KadDht

open BitKey List

namespace SweepingProvider

open Abstraction

/-! ## `RefreshSchedule` -/

structure Keystore where
  /-- `ContainsPrefix`: the answer, and the error if there is one. -/
  containsPrefix : Bitstr → Bool × Option String
  /-- The keystore is a `ResettableKeystore`. -/
  resettable : Bool

/-- `ContainsPrefix` does not fail, and tells whether a stored key matches the prefix. -/
def Keystore.Exact (ks : Keystore) (stored : Set Multihash) : Prop :=
  ∀ pfx, (ks.containsPrefix pfx).2 = none ∧
    ((ks.containsPrefix pfx).1 = true ↔ ∃ m ∈ stored, pfx <+: (mhToBit256 m).bits)

/-- A gap, or its parts of the average length if it is shorter than that. -/
def fillGap (prefixLen : Int) (p : Bitstr) : Option (List Bitstr) :=
  if (p.length : Int) ≥ prefixLen then some [p] else extendBinaryPrefix p prefixLen

def missingPrefixes (prefixLen : Int) : List Bitstr → Option (List Bitstr)
  | [] => some []
  | p :: gaps => do
    let extended ← fillGap prefixLen p
    let missing ← missingPrefixes prefixLen gaps
    some (extended ++ missing)

/-- `toInsert`: the prefixes that hold keys of the keystore. -/
def keepStored (ks : Keystore) : List Bitstr → ProviderM (List Bitstr)
  | [] => pure []
  | p :: missing => do
    let (ok, err) := ks.containsPrefix p
    match err with
    | some err =>
      emit (.warn ("could not refresh schedule for prefix " ++ bitstrString p ++ ": " ++ err))
    | none => pure ()
    let toInsert ← keepStored ks missing
    pure (if ok then p :: toInsert else toInsert)

section Model

variable [TrieLib]

/-- With `reprovideAll`, all scheduled regions are queued for a reprovide. -/
def enqueueAll (env : Env) (reprovideAll : Bool) : ProviderM Bool := fun s =>
  if reprovideAll then
    (s.reprovideQueue.pushAll (allKeys s.schedule env.order)).map fun q =>
      (true, { s with reprovideQueue := q })
  else some (false, s)

/-- The end of `RefreshSchedule`, once it is known which prefixes to insert. The result tells
whether `catchupPendingWork` is called. -/
def insertPrefixes (env : Env) (ks : Keystore) (bootstrapped : Bool) (toInsert : List Bitstr) :
    ProviderM Bool :=
  if toInsert.isEmpty then pure false
  else do
    let s ← get
    -- the schedule size is about to double
    let reprovideAll :=
      bootstrapped && ks.resettable && decide (toInsert.length > s.schedule.size)
    toInsert.forM fun p => schedulePrefixNoLock env p false
    enqueueAll env reprovideAll

/-- `RefreshSchedule` from where the missing prefixes are known. -/
def insertMissing (env : Env) (ks : Keystore) (bootstrapped : Bool) :
    Option (List Bitstr) → ProviderM (Except String Bool)
  | none => goPanic
  | some missing => do
    let toInsert ← keepStored ks missing
    let catchup ← insertPrefixes env ks bootstrapped toInsert
    pure (.ok catchup)

/-- `RefreshSchedule`. `prefixLen` is what `getAvgPrefixLenNoLock` returns. -/
def refreshSchedule (env : Env) (ks : Keystore) (bootstrapped : Bool) (prefixLen : Int) :
    ProviderM (Except String Bool) :=
  if env.closed then pure (.error errClosed)
  else if prefixLen < 0 then pure (.ok false)
  else do
    let s ← get
    insertMissing env ks bootstrapped
      (missingPrefixes prefixLen (trieGaps s.schedule [] env.order))

end Model

/-! ## The missing prefixes

A gap that is shorter than the average prefix is extended to all prefixes of that length below it.
So these lie in a gap, and every key in a gap is below one. -/

/-- The missing prefixes are the gaps, extended to the average length. -/
theorem mem_missingPrefixes {prefixLen : Int} {gaps missing : List Bitstr}
    (h : missingPrefixes prefixLen gaps = some missing) {p : Bitstr} :
    p ∈ missing ↔ ∃ g ∈ gaps, g <+: p ∧ (p.length : Int) = max (g.length : Int) prefixLen := by
  induction gaps generalizing missing with
  | nil =>
    rw [missingPrefixes, Option.some.injEq] at h
    simp [← h]
  | cons g gaps ih =>
    obtain ⟨extended, hextended, h⟩ := Option.bind_eq_some_iff.mp h
    obtain ⟨rest, hrest, h⟩ := Option.bind_eq_some_iff.mp h
    rw [← Option.some.inj h, mem_append, ih hrest, exists_mem_cons_iff]
    apply or_congr_left
    rw [fillGap] at hextended
    split at hextended
    · next hlong =>
      rw [← Option.some.inj hextended, mem_singleton, max_eq_left hlong, Int.natCast_inj]
      constructor
      · rintro rfl
        exact ⟨prefix_rfl, rfl⟩
      · rintro ⟨hpre, hlen⟩
        exact (hpre.eq_of_length hlen.symm).symm
    · next hshort =>
      rw [mem_extendBinaryPrefix hextended (by omega), max_eq_right (by omega)]

theorem fillGap_isSome_iff {prefixLen : Int} {g : Bitstr} :
    (∃ extended, fillGap prefixLen g = some extended) ↔ prefixLen < g.length + 45 := by
  unfold fillGap
  split
  · exact ⟨fun _ => by omega, fun _ => ⟨_, rfl⟩⟩
  · next hshort =>
    simp only [extendBinaryPrefix]
    rw [if_neg (by omega)]
    split
    · refine ⟨?_, fun _ => by omega⟩
      rintro ⟨_, hsome⟩
      cases hsome
    · exact ⟨fun _ => by omega, fun _ => ⟨_, rfl⟩⟩

/-- Making the missing prefixes panics exactly if some gap is to be extended by 45 bits or more. -/
theorem exists_missingPrefixes_iff {prefixLen : Int} {gaps : List Bitstr} :
    (∃ missing, missingPrefixes prefixLen gaps = some missing) ↔
      ∀ g ∈ gaps, prefixLen < g.length + 45 := by
  induction gaps with
  | nil => exact ⟨fun _ => nofun, fun _ => ⟨[], rfl⟩⟩
  | cons g gaps ih =>
    rw [forall_mem_cons, ← ih, ← fillGap_isSome_iff]
    constructor
    · rintro ⟨missing, h⟩
      obtain ⟨extended, hextended, h⟩ := Option.bind_eq_some_iff.mp h
      obtain ⟨rest, hrest, -⟩ := Option.bind_eq_some_iff.mp h
      exact ⟨⟨extended, hextended⟩, rest, hrest⟩
    · rintro ⟨⟨extended, hextended⟩, rest, hrest⟩
      exact ⟨extended ++ rest, by rw [missingPrefixes, hextended, hrest]; rfl⟩

variable {missing : List Bitstr}

/-- **What is missing** in a schedule. Nothing missing overlaps a scheduled prefix, and a key that
is not covered by the schedule is covered by what is missing. -/
theorem missing_spec {schedule : Trie Bitstr Duration} (h : schedule.WF) {order : Bit256}
    {prefixLen : Int}
    (hmissing : missingPrefixes prefixLen (trieGaps schedule [] order) = some missing) :
    (∀ p ∈ missing, ∀ q ∈ schedule.keys, ¬ Overlap p q) ∧
      ((∀ q ∈ schedule.keys, q.length ≤ keyLen) → prefixLen ≤ keyLen → ∀ k : Bit256,
        (∃ q ∈ schedule.keys, q <+: k.bits) ∨ ∃ p ∈ missing, p <+: k.bits) := by
  constructor
  · intro p hp q hq hov
    obtain ⟨g, hg, hpre, -⟩ := (mem_missingPrefixes hmissing).mp hp
    exact (trieGaps_sound h hg).1 q hq (hov.of_prefix_left hpre)
  · intro hkeys hlen k
    -- the identifier, continued in some way
    obtain ⟨x, hx⟩ := exists_startsWith k.bits
    have hlength : k.bits.length = keyLen := k.length_bits
    rcases trieGaps_complete order h (hx.of_prefix nil_prefix) with
      ⟨q, hq, hxq⟩ | ⟨g, hg, hxg⟩
    · have hshort : q.length ≤ k.bits.length := hlength ▸ hkeys q hq
      exact .inl ⟨q, hq, hxq.isPrefix hx hshort⟩
    · have hshort : g.length ≤ keyLen := by
        rcases (trieGaps_sound h hg).2 with hnil | ⟨q, hq, hle⟩
        · exact hnil.trans (Nat.zero_le _)
        · exact hle.trans (hkeys q hq)
      have hgk : g <+: k.bits := hxg.isPrefix hx (by omega)
      -- the part of the gap around the identifier
      set n := (max (g.length : Int) prefixLen).toNat with hn
      have hnk : n ≤ k.bits.length := by omega
      refine .inr ⟨k.bits.take n, (mem_missingPrefixes hmissing).mpr ⟨g, hg, ?_, ?_⟩,
        take_prefix _ _⟩
      · rw [prefix_iff_eq_take.mp hgk]
        exact take_prefix_take_left (by omega)
      · rw [length_take_of_le hnk]
        omega

/-! ## The schedule afterwards

The missing prefixes without stored keys are dropped. The others overlap neither each other nor what
is scheduled, so that scheduling one leaves the rest alone. -/

variable {stored : Set Multihash}

/-- With an exact keystore no test fails, and nothing is logged. -/
theorem keepStored_exact {ks : Keystore} (hexact : ks.Exact stored)
    (missing : List Bitstr) (s : State) :
    keepStored ks missing s = some (missing.filter fun p => (ks.containsPrefix p).1, s) := by
  induction missing with
  | nil => rfl
  | cons p missing ih =>
    rcases hp : ks.containsPrefix p with ⟨ok, err⟩
    have herr : err = none := by
      have hnone := (hexact p).1
      rwa [hp] at hnone
    subst herr
    rw [keepStored, hp]
    show (keepStored ks missing s).bind _ = _
    rw [ih, filter_cons, hp]
    rfl

/-- What `RefreshSchedule` is for: `before` and `after` are the scheduled prefixes. Afterwards every
stored key is covered by exactly one scheduled prefix. Every prefix that was scheduled is still
scheduled, and each new one matches a stored key and overlaps no prefix that was scheduled. -/
def Refreshed (stored : Set Multihash) (before after : List Bitstr) : Prop :=
  (∀ m ∈ stored, ∃! p, p ∈ after ∧ p <+: (mhToBit256 m).bits) ∧
  (∀ p ∈ before, p ∈ after) ∧
  ∀ p ∈ after, p ∉ before →
    (∃ m ∈ stored, p <+: (mhToBit256 m).bits) ∧ ∀ q ∈ before, ¬ Overlap p q

/-- The schedule covers the keystore once it has absorbed the missing prefixes that hold keys. -/
theorem refreshed_of_absorbAll {ks : Keystore} (hexact : ks.Exact stored)
    {order : Bit256} {n : Int} {s s' : State} (hs : s.Inv)
    (hkeys : ∀ p ∈ s.schedule.keys, p.length ≤ keyLen) (hlen : n ≤ keyLen)
    (hmissing : missingPrefixes n (trieGaps s.schedule [] order) = some missing) (hs' : s'.Inv)
    (hscheduled : {p | p ∈ s'.schedule.keys} = absorbAll {p | p ∈ s.schedule.keys}
      (missing.filter fun p => (ks.containsPrefix p).1)) :
    Refreshed stored s.schedule.keys s'.schedule.keys := by
  obtain ⟨hdisj, hcovers⟩ := missing_spec hs.schedule hmissing
  have hmem : ∀ p, p ∈ s'.schedule.keys ↔ p ∈ absorbAll {p | p ∈ s.schedule.keys}
      (missing.filter fun p => (ks.containsPrefix p).1) := Set.ext_iff.mp hscheduled
  have htoInsert : ∀ p, p ∈ (missing.filter fun p => (ks.containsPrefix p).1) ↔
      p ∈ missing ∧ ∃ m ∈ stored, p <+: (mhToBit256 m).bits := fun p => by
    rw [mem_filter, (hexact p).2]
  refine ⟨fun m hm => ?_, fun p hp => ?_, fun p hp hnew => ?_⟩
  · -- there is one, and scheduled prefixes are disjoint
    obtain ⟨p, hp, hpre⟩ : Covers {p | p ∈ s'.schedule.keys} (mhToBit256 m).bits := by
      rw [hscheduled, covers_absorbAll]
      rcases hcovers hkeys hlen (mhToBit256 m) with hold | ⟨p, hp, hpre⟩
      · exact .inl hold
      · exact .inr ⟨p, (htoInsert p).mpr ⟨hp, m, hm, hpre⟩, hpre⟩
    refine ⟨p, ⟨hp, hpre⟩, fun q hq => ?_⟩
    exact hs'.schedule.eq_of_overlap hq.1 hp (overlap_of_prefixes hq.2 hpre)
  · refine (hmem p).mpr (mem_absorbAll_of_mem hp fun q hq hpre => ?_)
    exact hdisj q ((htoInsert q).mp hq).1 p hp (.inl hpre)
  · rcases mem_or_mem_of_mem_absorbAll ((hmem p).mp hp) with hold | hins
    · exact absurd hold hnew
    · obtain ⟨hp, hstored⟩ := (htoInsert p).mp hins
      exact ⟨hstored, hdisj p hp⟩

section Schedule

variable [TrieLib]

theorem simulates_scheduleAll (env : Env) (ps : List Bitstr) :
    sweeping.Simulates (ps.forM fun p => schedulePrefixNoLock env p false)
      (fun v => ((), { v with scheduled := absorbAll v.scheduled ps })) := by
  induction ps with
  | nil => exact Simulates.pure ()
  | cons p ps ih =>
    exact Simulates.congr (Simulates.andThen (h := fun v => v.schedule p)
      (simulates_schedulePrefixNoLock env p false) ih) fun v => rfl

variable {s : State} {env : Env} {ks : Keystore} {bootstrapped : Bool}

theorem enqueueAll_runs (env : Env) (reprovideAll : Bool) (hs : s.Inv) :
    ∃ b s', enqueueAll env reprovideAll s = some (b, s') ∧ s'.Inv ∧ s'.schedule = s.schedule := by
  unfold enqueueAll
  cases reprovideAll with
  | false => exact ⟨false, s, rfl, hs, rfl⟩
  | true =>
    obtain ⟨q, heq, hinv, -⟩ :=
      PrefixQueue.pushAll_spec hs.reprovideQueue (allKeys s.schedule env.order)
    refine ⟨true, { s with reprovideQueue := q }, ?_, { hs with reprovideQueue := hinv }, rfl⟩
    rw [if_pos rfl, heq]
    rfl

/-- **Inserting prefixes** does not panic, and the schedule absorbs them. -/
theorem insertPrefixes_runs (env : Env) (ks : Keystore) (bootstrapped : Bool)
    (toInsert : List Bitstr) (hs : s.Inv) :
    ∃ b s', insertPrefixes env ks bootstrapped toInsert s = some (b, s') ∧ s'.Inv ∧
      {p | p ∈ s'.schedule.keys} = absorbAll {p | p ∈ s.schedule.keys} toInsert := by
  unfold insertPrefixes
  split
  · next hempty =>
    rw [isEmpty_iff.mp hempty]
    exact ⟨false, s, rfl, hs, rfl⟩
  · obtain ⟨s1, hrun1, hs1, hview1⟩ := simulates_scheduleAll env toInsert s hs
    obtain ⟨b, s2, hrun2, hs2, hschedule⟩ := enqueueAll_runs env
      (bootstrapped && ks.resettable && decide (toInsert.length > s.schedule.size)) hs1
    refine ⟨b, s2, ?_, hs2, ?_⟩
    · show ((toInsert.forM fun p => schedulePrefixNoLock env p false) s).bind _ = _
      rw [hrun1]
      exact hrun2
    · rw [hschedule]
      exact congrArg View.scheduled hview1

theorem refreshSchedule_eq {prefixLen : Int} (hopen : env.closed = false) (hlen : 0 ≤ prefixLen) :
    refreshSchedule env ks bootstrapped prefixLen s = insertMissing env ks bootstrapped
      (missingPrefixes prefixLen (trieGaps s.schedule [] env.order)) s := by
  rw [refreshSchedule, hopen, if_neg Bool.false_ne_true, if_neg (not_lt.mpr hlen)]
  rfl

/-- **`RefreshSchedule`.** If the missing prefixes can be computed, the method returns, and the
schedule has absorbed those that hold keys. -/
theorem refreshSchedule_runs (env : Env) {ks : Keystore}
    (hexact : ks.Exact stored) (bootstrapped : Bool) {prefixLen : Int} {s : State} (hs : s.Inv)
    (hopen : env.closed = false) (hlen : 0 ≤ prefixLen)
    (hmissing : missingPrefixes prefixLen (trieGaps s.schedule [] env.order) = some missing) :
    ∃ b s', refreshSchedule env ks bootstrapped prefixLen s = some (.ok b, s') ∧ s'.Inv ∧
      {p | p ∈ s'.schedule.keys} = absorbAll {p | p ∈ s.schedule.keys}
        (missing.filter fun p => (ks.containsPrefix p).1) := by
  obtain ⟨b, s', hinsert, hs', hscheduled⟩ := insertPrefixes_runs env ks bootstrapped
    (missing.filter fun p => (ks.containsPrefix p).1) hs
  refine ⟨b, s', ?_, hs', hscheduled⟩
  have hkeep := keepStored_exact hexact missing s
  rw [refreshSchedule_eq hopen hlen, hmissing]
  show (keepStored ks missing s).bind _ = _
  rw [hkeep]
  show (insertPrefixes env ks bootstrapped _ s).bind _ = _
  rw [hinsert]
  rfl

theorem refreshSchedule_panics (env : Env) (ks : Keystore) (bootstrapped : Bool) {prefixLen : Int}
    (hopen : env.closed = false) (hlen : 0 ≤ prefixLen)
    (hmissing : missingPrefixes prefixLen (trieGaps s.schedule [] env.order) = none) :
    refreshSchedule env ks bootstrapped prefixLen s = none := by
  rw [refreshSchedule_eq hopen hlen, hmissing]
  rfl

/-- **Refreshing covers the keystore.** The scheduled prefixes and the average length are at most
256, the length of a key; `ContainsPrefix` is exact and does not fail. Then `RefreshSchedule`
returns without an error and leaves the schedule as it should be, exactly if no gap of the schedule
is to be extended by 45 bits or more. Otherwise it panics. -/
theorem refreshSchedule_covers_iff (env : Env) {ks : Keystore} {stored : Set Multihash}
    (hexact : ks.Exact stored) (bootstrapped : Bool) {n : Int} {s : State} (hs : s.Inv)
    (hkeys : ∀ p ∈ s.schedule.keys, p.length ≤ keyLen) (hopen : env.closed = false) (hn : 0 ≤ n)
    (hlen : n ≤ keyLen) :
    (∃ b s', refreshSchedule env ks bootstrapped n s = some (.ok b, s') ∧
        Refreshed stored s.schedule.keys s'.schedule.keys) ↔
      ∀ g ∈ trieGaps s.schedule [] env.order, n < g.length + 45 := by
  rw [← exists_missingPrefixes_iff]
  constructor
  · rintro ⟨b, s', hrun, -⟩
    refine Option.ne_none_iff_exists'.mp fun hnone => ?_
    rw [refreshSchedule_panics env ks bootstrapped hopen hn hnone] at hrun
    cases hrun
  · rintro ⟨missing, hmissing⟩
    obtain ⟨b, s', hrun, hs', hscheduled⟩ :=
      refreshSchedule_runs env hexact bootstrapped hs hopen hn hmissing
    exact ⟨b, s', hrun, refreshed_of_absorbAll hexact hs hkeys hlen hmissing hs' hscheduled⟩

end Schedule

def listKeystore (stored : List Multihash) : Keystore where
  containsPrefix pfx := (stored.any fun m => isPrefix pfx (mhToBit256 m), none)
  resettable := true

theorem listKeystore_exact (stored : List Multihash) :
    (listKeystore stored).Exact {m | m ∈ stored} := by
  intro pfx
  refine ⟨rfl, ?_⟩
  show stored.any _ = true ↔ _
  simp only [any_eq_true, isPrefix_iff]
  rfl

/-- A schedule with the region `0` only, refreshed with regions of two bits. -/
theorem refreshSchedule_covers_sample :
    ∃ b s', @refreshSchedule binaryTrie (sampleEnv []) (listKeystore [[18, 1, 0]]) true 2
        (sampleState [[false]]) = some (.ok b, s') ∧
      Refreshed {m | m ∈ [[18, 1, 0]]} [[false]] s'.schedule.keys :=
  (@refreshSchedule_covers_iff binaryTrie (sampleEnv []) _ _ (listKeystore_exact _) true 2
    (sampleState [[false]]) (sampleState_inv (by decide)) (by decide) rfl (by decide)
    (by decide)).mpr (by decide)

/-- With nothing scheduled and an average length of 45 bits, the method panics. -/
theorem not_refreshSchedule_covers :
    (sampleState []).Inv ∧ (listKeystore [[18, 1, 0]]).Exact {m | m ∈ [[18, 1, 0]]} ∧
      @refreshSchedule binaryTrie (sampleEnv []) (listKeystore [[18, 1, 0]]) true 45
        (sampleState []) = none :=
  ⟨sampleState_inv (by decide), listKeystore_exact _,
    @refreshSchedule_panics binaryTrie (sampleState []) _ _ _ 45 rfl (by decide) (by decide)⟩

end SweepingProvider

end KadDht
