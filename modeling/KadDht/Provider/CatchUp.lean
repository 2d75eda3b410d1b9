import KadDht.Provider.Soonest

/-!
# Provider — catching up when the timer fires late (`provider/provider.go`)

When `handleReprovide` runs, other regions than the one under the cursor may be late already. They
are queued, and the cursor moves to the region that comes next.

* **`CaughtUp`** — no late region is lost, nothing is queued early, and the new cursor is right.
* **`catchesUp_iff`** — the loop is off by one when all regions are late.
-/

namespace KadDht

open BitKey List Trie

namespace SweepingProvider

/-! ## The property -/

/-- The time of an entry lies between the start of the timer and `t`. -/
def Late (config : Config) (t : Duration) (s : State) (e : Bitstr × Duration) : Prop :=
  s.scheduleTimerStartedAt.toInt + config.timeLeft s.scheduleTimerStartedAt e.2 < t.toInt

instance (config : Config) (t : Duration) (s : State) (e : Bitstr × Duration) :
    Decidable (Late config t s e) :=
  inferInstanceAs (Decidable (_ < _))

/-- At `t`, less than an interval after the timer was started for the first region that comes after
its start, the time of this region has come. -/
structure Due (env : Env) (t : Duration) (s : State) : Prop where
  inv : s.Inv
  several : 2 ≤ s.schedule.entries.length
  table : Timetable env.toConfig s.schedule.entries
  clock : env.StandsAt t
  off_clock : ∀ e ∈ s.schedule.entries, env.offset t ≠ e.2.toInt
  started : s.scheduleTimerStartedAt.toInt < t.toInt
  recent : t.toInt < s.scheduleTimerStartedAt.toInt + env.period
  cursor : ∃ d, (s.scheduleCursor, d) ∈ s.schedule.entries ∧
    (∀ e ∈ s.schedule.entries, env.timeLeft s.scheduleTimerStartedAt d
      ≤ env.timeLeft s.scheduleTimerStartedAt e.2) ∧
    Late env.toConfig t s (s.scheduleCursor, d)

structure CaughtUp (env : Env) (t : Duration) (s : State) (r : Option Bitstr) (s' : State) :
    Prop where
  /-- A late region is reprovided now, or queued. When the provider is closing, the region under
  the cursor is neither. -/
  late : ∀ e ∈ s.schedule.entries, Late env.toConfig t s e →
    r = some e.1 ∨ Covers {p | p ∈ s'.reprovideQueue.queue} e.1 ∨
      (env.closed = true ∧ e.1 = s.scheduleCursor)
  /-- No other region is queued. -/
  early : ∀ p ∈ s'.reprovideQueue.queue, p ∈ s.reprovideQueue.queue ∨
    ∃ e ∈ s.schedule.entries, Late env.toConfig t s e ∧ e.1 = p
  schedule : s'.schedule = s.schedule
  cursor : SoonestCursor env.toConfig t s'
  started : s'.scheduleTimerStartedAt = t
  timer : 1 ≤ s'.scheduleTimer.toInt ∧ s'.scheduleTimer.toInt ≤ env.period

def CatchesUp [TrieLib] (env : Env) (t : Duration) (s : State) : Prop :=
  ∀ q : PrefixQueue, q.Inv → ∃ r s',
    handleReprovide env { s with reprovideQueue := q } = some (r, s') ∧
      CaughtUp env t { s with reprovideQueue := q } r s'

def TestsLate (env : Env) (t : Duration) (s : State) (e : Bitstr × Duration) : Prop :=
  timeBetween env.toConfig (s.scheduleTimerStartedAt % env.reprovideInterval) e.2
    < timeBetween env.toConfig (s.scheduleTimerStartedAt % env.reprovideInterval)
        (t % env.reprovideInterval)

/-- The test in the loop tells the late regions from the soonest one, and the time until the
soonest one fits into a duration. -/
structure StopsInTime (env : Env) (t : Duration) (s : State) : Prop where
  late : ∀ e ∈ s.schedule.entries, e.1 ≠ s.scheduleCursor → Late env.toConfig t s e →
    TestsLate env t s e
  soonest : ∀ e ∈ s.schedule.entries,
    (∀ x ∈ s.schedule.entries, env.timeLeft t e.2 ≤ env.timeLeft t x.2) →
      ¬ TestsLate env t s e ∧ e.2.toInt - env.offset t + env.period ≤ 2 ^ 63

/-! ## The round -/

section Round

variable {env : Env} {t : Duration} {s : State} {e : Bitstr × Duration}

/-- The entries that are scheduled, in the order of the loop: `late` are the late ones but the
cursor, and `next` is the soonest one. -/
structure Round (env : Env) (t : Duration) (s : State) (late : List (Bitstr × Duration))
    (next : Bitstr × Duration) (rest : List (Bitstr × Duration)) : Prop where
  chain : List.IsChain (fun x y => (nextNonEmptyLeaf s.schedule x.1 env.order).join = some y)
    (late ++ next :: rest)
  head : (nextNonEmptyLeaf s.schedule s.scheduleCursor env.order).join
    = (late ++ next :: rest).head?
  head_ne : ∀ e, (late ++ next :: rest).head? = some e → e.1 ≠ s.scheduleCursor
  length_eq : (late ++ next :: rest).length = s.schedule.size + 1
  mem_late : ∀ x, x ∈ late ↔
    x ∈ s.schedule.entries ∧ Late env.toConfig t s x ∧ x.1 ≠ s.scheduleCursor
  length_late : late.length < s.schedule.size
  mem_next : next ∈ s.schedule.entries
  soonest : ∀ x ∈ s.schedule.entries, env.timeLeft t next.2 ≤ env.timeLeft t x.2
  next_late : Late env.toConfig t s next → next.1 = s.scheduleCursor ∧ next ∉ rest ∧
    ∀ x ∈ s.schedule.entries, Late env.toConfig t s x

theorem Timetable.eq_of_timeLeft_eq {config : Config} {sched : Trie Bitstr Duration}
    (h : Timetable config sched.entries) (hwf : sched.WF) {x y : Bitstr × Duration}
    (hx : x ∈ sched.entries) (hy : y ∈ sched.entries)
    (heq : config.timeLeft t x.2 = config.timeLeft t y.2) : x = y := by
  have hxr := h.range x hx
  have hyr := h.range y hy
  have hoffset := cycleDist_inj hxr.1 hxr.2 hyr.1 hyr.2 heq
  by_cases hov : Overlap x.1 y.1
  · exact hwf.entry_eq hx hy (hwf.eq_of_overlap (mem_keys_of_mem hx) (mem_keys_of_mem hy) hov)
  · exact absurd hoffset (h.offset_ne hx hy hov)

/-- How the time left changes from the start of the timer until `t`. -/
theorem Due.timeLeft_eq (h : Due env t s) (he : e ∈ s.schedule.entries) :
    (Late env.toConfig t s e → env.timeLeft t e.2
      = env.timeLeft s.scheduleTimerStartedAt e.2 - (t.toInt - s.scheduleTimerStartedAt.toInt)
        + env.period) ∧
    (¬ Late env.toConfig t s e → env.timeLeft t e.2
      = env.timeLeft s.scheduleTimerStartedAt e.2 - (t.toInt - s.scheduleTimerStartedAt.toInt)) := by
  have hrange := h.table.range e he
  have hstart := env.offset_range s.scheduleTimerStartedAt
  have hoffset := env.offset_range t
  have hstarted := h.started
  have hrecent := h.recent
  have hmod := env.offset_add s.scheduleTimerStartedAt t
  set passed := t.toInt - s.scheduleTimerStartedAt.toInt with hpassed
  obtain ⟨hahead, hover⟩ := cycleDist_later (t := passed) hstart.1 hstart.2
    hrange.1 hrange.2 (by omega) (by omega)
  rw [hmod] at hahead hover
  have hlate : Late env.toConfig t s e ↔
      cycleDist env.period (env.offset s.scheduleTimerStartedAt) e.2.toInt < passed := by
    unfold Late Config.timeLeft
    omega
  rw [hlate]
  refine ⟨fun hlt => hover hlt.le, fun hnot => hahead (lt_of_le_of_ne (not_lt.mp hnot) ?_)⟩
  -- an entry whose time is exactly now would be a full cycle ahead
  intro heq
  have hlt := cycleDist_lt hoffset.1 hrange.2 (h.off_clock e he)
  omega

variable {next : Bitstr × Duration}

/-- The entry that is next at `t`: the first one that is not late, or when all are, the first one
of all. -/
theorem Due.soonest (h : Due env t s) {next : Bitstr × Duration}
    (hmem : next ∈ s.schedule.entries)
    (hnext : ∀ x ∈ s.schedule.entries, (Late env.toConfig t s x → Late env.toConfig t s next →
        env.timeLeft s.scheduleTimerStartedAt next.2 ≤ env.timeLeft s.scheduleTimerStartedAt x.2) ∧
      (¬ Late env.toConfig t s x → ¬ Late env.toConfig t s next ∧
        env.timeLeft s.scheduleTimerStartedAt next.2 ≤ env.timeLeft s.scheduleTimerStartedAt x.2)) :
    ∀ x ∈ s.schedule.entries, env.timeLeft t next.2 ≤ env.timeLeft t x.2 := by
  intro x hx
  obtain ⟨hxlate, hxahead⟩ := h.timeLeft_eq hx
  obtain ⟨hnlate, hnahead⟩ := h.timeLeft_eq hmem
  by_cases hx' : Late env.toConfig t s x
  · by_cases hn : Late env.toConfig t s next
    · rw [hxlate hx', hnlate hn]
      have hle := (hnext x hx).1 hx' hn
      omega
    · -- what is late comes again only after a cycle
      have hoffset := env.offset_range s.scheduleTimerStartedAt
      have hpos : 0 < env.timeLeft s.scheduleTimerStartedAt x.2 :=
        cycleDist_pos hoffset.2 (h.table.range x hx).1
      have hle : env.timeLeft s.scheduleTimerStartedAt next.2 ≤ env.period :=
        cycleDist_le hoffset.1 (h.table.range next hmem).2
      rw [hxlate hx', hnahead hn]
      omega
  · obtain ⟨hn, hle⟩ := (hnext x hx).2 hx'
    rw [hxahead hx', hnahead hn]
    omega

/-- The entries in the order in which they come after the timer was started, the cursor being the
first one, and their successors in the schedule. -/
theorem Due.exists_others (h : Due env t s) :
    ∃ c others, c.1 = s.scheduleCursor ∧ Late env.toConfig t s c ∧
      (c :: others).Perm s.schedule.entries ∧
      ((c :: others).Pairwise fun x y => env.timeLeft s.scheduleTimerStartedAt x.2
        < env.timeLeft s.scheduleTimerStartedAt y.2) ∧
      CyclicSucc (fun e => (nextNonEmptyLeaf s.schedule e.1 env.order).join) (c :: others) := by
  obtain ⟨d, hc, hmin, hclate⟩ := h.cursor
  have hwf := h.inv.schedule
  have hperm := entriesIter_perm s.schedule env.order
  obtain ⟨before, after, hiter⟩ := append_of_mem (hperm.mem_iff.mpr hc)
  have hsorted := h.table.sorted hwf
  have hcyclic := cyclicSucc_nextNonEmptyLeaf hwf env.order fun k hk => by
    obtain ⟨d', hd'⟩ := mem_keys.mp hk
    exact (h.table.short _ hd').trans_eq env.order.length_bits.symm
  rw [hiter] at hsorted hcyclic hperm
  have hrange : ∀ x ∈ before ++ (s.scheduleCursor, d) :: after,
      0 ≤ x.2.toInt ∧ x.2.toInt < env.period := fun x hx => h.table.range x (hperm.mem_iff.mp hx)
  have hrotated : ((s.scheduleCursor, d) :: (after ++ before)).Perm s.schedule.entries :=
    (show (((s.scheduleCursor, d) :: after) ++ before).Perm _ from perm_append_comm).trans hperm
  have hlater : ∀ x ∈ after ++ before, env.timeLeft s.scheduleTimerStartedAt d
      < env.timeLeft s.scheduleTimerStartedAt x.2 := by
    intro x hx
    have hxs := hrotated.mem_iff.mp (mem_cons_of_mem _ hx)
    refine lt_of_le_of_ne (hmin x hxs) fun heq => ?_
    have hself := h.table.eq_of_timeLeft_eq hwf hc hxs heq
    have hnodup := (hrotated.nodup_iff.mpr hwf.entries_nodup)
    exact (nodup_cons.mp hnodup).1 (hself ▸ hx)
  refine ⟨(s.scheduleCursor, d), after ++ before, rfl, hclate, hrotated, ?_, hcyclic.rotate⟩
  refine pairwise_cons.mpr ⟨hlater, ?_⟩
  -- the way to each of them leads past the cursor
  have hadd : ∀ x ∈ after ++ before, env.timeLeft s.scheduleTimerStartedAt x.2
      = env.timeLeft s.scheduleTimerStartedAt d + cycleDist env.period d.toInt x.2.toInt := by
    intro x hx
    have hxs := hrotated.mem_iff.mp (mem_cons_of_mem _ hx)
    exact cycleDist_add (h.table.range _ hc).1 (h.table.range x hxs).2 (hlater x hx)
  refine (cycleDist_rotated hsorted hrange).imp_of_mem fun {x y} hx hy hxy => ?_
  rw [hadd x hx, hadd y hy]
  exact Int.add_lt_add_left hxy _

/-- **The round.** The loop comes past the late entries, and then to the soonest one. -/
theorem Due.exists_round (h : Due env t s) : ∃ late next rest, Round env t s late next rest := by
  obtain ⟨c, others, hcursor, hclate, hperm, hsorted, hcyclic⟩ := h.exists_others
  obtain ⟨hlater, hothers⟩ := pairwise_cons.mp hsorted
  have hlength : s.schedule.size = others.length + 1 := by
    rw [s.schedule.size_eq_length_entries, ← hperm.length_eq, length_cons]
  have hmem : ∀ x, x ∈ s.schedule.entries ↔ x = c ∨ x ∈ others := fun x => by
    rw [← hperm.mem_iff, mem_cons]
  have hc := (hmem c).mpr (.inl rfl)
  have hne : ∀ x ∈ others, x ≠ c := by
    rintro x hx rfl
    exact lt_irrefl _ (hlater x hx)
  have hkey : ∀ x ∈ others, x.1 ≠ s.scheduleCursor := by
    intro x hx heq
    exact hne x hx (h.inv.schedule.entry_eq ((hmem x).mpr (.inr hx)) hc (heq.trans hcursor.symm))
  have hlateIff : ∀ x, Late env.toConfig t s x ↔ env.timeLeft s.scheduleTimerStartedAt x.2
      < t.toInt - s.scheduleTimerStartedAt.toInt := by
    intro x
    unfold Late
    omega
  obtain ⟨late, next, rest, hround, hlate, hnext⟩ :=
    exists_next_appointment (c := c) (t.toInt - s.scheduleTimerStartedAt.toInt) hothers
  simp only [← hlateIff, ← not_lt] at hlate hnext
  cases hcases : others with
  | nil =>
    have hseveral := h.several
    rw [← s.schedule.size_eq_length_entries, hlength, hcases] at hseveral
    simp at hseveral
  | cons r others' =>
    rw [hcases] at hcyclic
    have hfirst := hcyclic [] c (r :: others') rfl
    have hchain := (isChain_cons_cons.mp hcyclic.isChain).2
    have hpath : late ++ next :: (rest ++ [r]) = r :: (others' ++ [c, r]) := by
      have happ := congrArg (· ++ [r]) hround
      rw [hcases] at happ
      simp only [append_assoc, cons_append, nil_append] at happ
      exact happ.symm
    have hcount : others.length + 1 = late.length + (rest.length + 1) := by
      have hlen := congrArg length hround
      simpa only [length_append, length_cons, length_nil, Nat.zero_add] using hlen
    have hnextMem : next ∈ s.schedule.entries := by
      rcases hnext with ⟨hnext, -⟩ | ⟨rfl, -⟩
      · exact (hmem next).mpr (.inr hnext)
      · exact hc
    refine ⟨late, next, rest ++ [r], ?_, ?_, ?_, ?_, ?_, by omega, hnextMem, ?_, ?_⟩
    · rw [hpath]
      exact hchain
    · rw [hpath, ← hcursor]
      exact hfirst
    · intro e he
      rw [hpath, head?_cons, Option.some.injEq] at he
      rw [← he]
      exact hkey r (by rw [hcases]; exact mem_cons_self)
    · rw [hpath, hlength, hcases]
      simp
    · intro x
      rw [hlate, hmem]
      constructor
      · rintro ⟨hx, hxlate⟩
        exact ⟨.inr hx, hxlate, hkey x hx⟩
      · rintro ⟨hx, hxlate, hother⟩
        rcases hx with rfl | hx
        · exact absurd hcursor hother
        · exact ⟨hx, hxlate⟩
    · refine h.soonest hnextMem fun x hx => ?_
      rcases hnext with ⟨-, hahead, hfirst⟩ | ⟨rfl, -, hall⟩
      · refine ⟨fun _ hn => absurd hn hahead, fun hx' => ⟨hahead, ?_⟩⟩
        rcases (hmem x).mp hx with rfl | hx
        · exact absurd hclate hx'
        · exact not_lt.mp (hfirst x hx hx')
      · rcases (hmem x).mp hx with rfl | hx
        · exact ⟨fun _ _ => le_refl _, fun hx' => absurd hclate hx'⟩
        · exact ⟨fun _ _ => (hlater x hx).le, fun hx' => absurd (hall x hx) hx'⟩
    · intro hnlate
      rcases hnext with ⟨-, hahead, -⟩ | ⟨rfl, hrest, hall⟩
      · exact absurd hnlate hahead
      · refine ⟨hcursor, ?_, fun x hx => ?_⟩
        · rw [hrest, nil_append, mem_singleton]
          exact (hne r (by rw [hcases]; exact mem_cons_self)).symm
        · rcases (hmem x).mp hx with rfl | hx
          · exact hclate
          · exact hall x hx

theorem Round.eq_next {late rest : List (Bitstr × Duration)}
    (h : Round env t s late next rest) (hdue : Due env t s) (he : e ∈ s.schedule.entries)
    (hmin : ∀ x ∈ s.schedule.entries, env.timeLeft t e.2 ≤ env.timeLeft t x.2) : e = next :=
  hdue.table.eq_of_timeLeft_eq hdue.inv.schedule he h.mem_next
    (le_antisymm (hmin next h.mem_next) (h.soonest e he))

theorem Round.walk_cases {late : List (Bitstr × Duration)}
    {rest passed : List (Bitstr × Duration)} {final first : Bitstr × Duration}
    {startedAt running : Duration} (h : Round env t s late next rest)
    (hfirst : nextNonEmptyLeaf s.schedule s.scheduleCursor env.order = some (some first))
    (hwalk : LateWalk env s.schedule startedAt running s.schedule.size first passed final) :
    (passed = late ∧ final = next) ∨ (passed.length < late.length ∧ final ∈ late) ∨
      (next ∈ passed ∧ final ∈ rest) := by
  have hhead := h.head
  rw [hfirst] at hhead
  obtain ⟨tail, htail⟩ := isPrefix_of_isChain hwalk.chain h.chain
    (hwalk.head.trans hhead) (by
      have hlen := hwalk.length_le
      rw [h.length_eq, length_append, length_singleton]
      omega)
  rw [append_assoc, singleton_append] at htail
  rcases append_eq_append_iff.mp htail with ⟨w, hw, hfinal⟩ | ⟨w, hw, hnext⟩
  · cases w with
    | nil =>
      rw [append_nil] at hw
      exact .inl ⟨hw.symm, (cons.inj hfinal).1⟩
    | cons y w =>
      cases hfinal
      refine .inr (.inl ⟨?_, ?_⟩)
      · rw [hw, length_append, length_cons]
        omega
      · rw [hw]
        simp
  · cases w with
    | nil =>
      rw [append_nil] at hw
      exact .inl ⟨hw, (cons.inj hnext).1.symm⟩
    | cons y w =>
      obtain ⟨rfl, hrest⟩ := cons.inj hnext
      refine .inr (.inr ⟨?_, ?_⟩)
      · rw [hw]
        simp
      · rw [hrest]
        simp

end Round

/-! ## The call -/

section Call

variable {env : Env} {t : Duration} {s : State}

variable {s' : State} {r : Option Bitstr}

/-- The queue after prefixes were enqueued and the batch reprovide was started. -/
theorem Started.queue {pfx : Bitstr} {ps : List Bitstr} {s1 : State}
    (hs : s.reprovideQueue.Inv) (henq : Enqueued ps s s1)
    (hstart : Started env pfx (s1.alarmFor env e) r s') :
    (r = some pfx ∨ Covers {p | p ∈ s'.reprovideQueue.queue} pfx ∨ env.closed = true) ∧
    (∀ p ∈ ps, ¬ pfx <+: p → Covers {p | p ∈ s'.reprovideQueue.queue} p) ∧
    (∀ p ∈ s'.reprovideQueue.queue, p ∈ s.reprovideQueue.queue ∨ p ∈ ps ∨ p = pfx) := by
  obtain ⟨q, hqinv, hq, rfl⟩ := henq
  have hset : {p | p ∈ q.queue} = absorbAll {p | p ∈ s.reprovideQueue.queue} ps := by
    rw [hq]
    exact setOf_foldl_pushPrefix hs.prefixFree ps
  have hcovers : ∀ p ∈ ps, Covers {p | p ∈ q.queue} p := by
    intro p hp
    rw [hset]
    exact covers_absorbAll.mpr (.inr ⟨p, hp, prefix_rfl⟩)
  have hold : ∀ p ∈ q.queue, p ∈ s.reprovideQueue.queue ∨ p ∈ ps := fun p hp =>
    mem_or_mem_of_mem_absorbAll ((Set.ext_iff.mp hset p).mp hp)
  cases hstart with
  | offline hoff s' henq =>
    obtain ⟨q', -, hq', rfl⟩ := henq
    have hset' : {p | p ∈ q'.queue} = absorb {p | p ∈ q.queue} pfx := by
      rw [hq']
      exact setOf_pushPrefix hqinv.prefixFree
    refine ⟨.inr (.inl ?_), fun p hp _ => ?_, fun p hp => ?_⟩
    · show Covers {p | p ∈ q'.queue} pfx
      rw [hset']
      exact covers_absorb.mpr (.inr prefix_rfl)
    · show Covers {p | p ∈ q'.queue} p
      rw [hset']
      exact covers_absorb.mpr (.inl (hcovers p hp))
    · rcases mem_or_eq_of_mem_absorb ((Set.ext_iff.mp hset' p).mp hp) with hp | hp
      · rcases hold p hp with hp | hp
        · exact .inl hp
        · exact .inr (.inl hp)
      · exact .inr (.inr hp)
  | online hon q' hinv hq' =>
    have hmem : ∀ p, p ∈ q'.queue ↔ p ∈ q.queue ∧ ¬ pfx <+: p := by
      intro p
      rw [hq', mem_filter, not_isPrefixOf_iff]
      exact Iff.rfl
    refine ⟨?_, fun p hp hpfx => ?_, fun p hp => ?_⟩
    · cases env.closed with
      | true => exact .inr (.inr rfl)
      | false => exact .inl rfl
    · -- removing the prefix leaves what does not lie below it
      obtain ⟨x, hx, hxp⟩ := hcovers p hp
      exact ⟨x, (hmem x).mpr ⟨hx, fun hpx => hpfx (hpx.trans hxp)⟩, hxp⟩
    · rcases hold p ((hmem p).mp hp).1 with hp | hp
      · exact .inl hp
      · exact .inr (.inl hp)

theorem Started.state_eq {pfx : Bitstr} (hstart : Started env pfx s r s') :
    s' = { s with reprovideQueue := s'.reprovideQueue } := by
  cases hstart with
  | offline hoff s' henq =>
    obtain ⟨q, -, -, rfl⟩ := henq
    rfl
  | online hon q hinv hq => rfl

/-- With several regions, and a timer that was started less than an interval ago, the call runs the
loop. -/
theorem Due.handled [TrieLib] (h : Due env t s) :
    ∃ first passed final s1 r s', handleReprovide env s = some (r, s') ∧
      nextNonEmptyLeaf s.schedule s.scheduleCursor env.order = some (some first) ∧
      LateWalk env s.schedule (s.scheduleTimerStartedAt % env.reprovideInterval)
        (timeBetween env.toConfig (s.scheduleTimerStartedAt % env.reprovideInterval)
          (t % env.reprovideInterval)) s.schedule.size first passed final ∧
      Enqueued (passed.map Prod.fst) (s.tick 2) s1 ∧
      Started env s.scheduleCursor (s1.alarmFor env final) r s' := by
  obtain ⟨d, hc, -, -⟩ := h.cursor
  obtain ⟨r, s', hrun, hh⟩ := handleReprovide_cases env h.inv fun _ => mem_keys_of_mem hc
  cases hh with
  | idle hnil =>
    rw [hnil] at hc
    cases hc
  | single next hnext hkey r s' hstart =>
    -- the cursor would be followed by itself
    obtain ⟨late, next', rest, hround⟩ := h.exists_round
    have hhead := hround.head
    rw [hnext] at hhead
    exact absurd hkey (hround.head_ne next hhead.symm)
  | overdue next hnext hkey hlong e he s1 henq =>
    rw [h.clock.clock] at hlong
    have hrecent := h.recent
    exact absurd hlong (not_lt.mpr hrecent.le)
  | due next hnext hkey hlong passed final hwalk s1 henq r s' hstart =>
    rw [h.clock.clock] at hwalk
    exact ⟨next, passed, final, s1, r, s', hrun, hnext, hwalk, henq, hstart⟩

variable [TrieLib]

/-- The loop of `handleReprovide`, if it stops in time, passes exactly the late prefixes, which are
queued, and sets the alarm for the next one. -/
theorem Due.caughtUp (h : Due env t s) (hstops : StopsInTime env t s) :
    ∃ r s', handleReprovide env s = some (r, s') ∧ CaughtUp env t s r s' := by
  obtain ⟨d, hc, -, hclate⟩ := h.cursor
  obtain ⟨late, next, rest, hround⟩ := h.exists_round
  obtain ⟨first, passed, final, s1, r, s', hrun, hfirst, hwalk, henq, hstart⟩ := h.handled
  have hsoonest := hstops.soonest next hround.mem_next hround.soonest
  have hend : passed = late ∧ final = next := by
    rcases hround.walk_cases hfirst hwalk with hend | ⟨hshort, hfinal⟩ | ⟨hnext, -⟩
    · exact hend
    · -- the loop does not stop at a late entry, and has rounds left
      obtain ⟨hmem, hlate, hkey⟩ := (hround.mem_late final).mp hfinal
      have htests := hstops.late final hmem hkey hlate
      rcases hwalk.stop with hstop | hstop
      · have hlen := hround.length_late
        omega
      · exact absurd htests hstop
    · exact absurd (hwalk.late next hnext) hsoonest.1
  obtain ⟨rfl, rfl⟩ := hend
  obtain ⟨hcursor, hqueued, hnew⟩ := Started.queue (s := s.tick 2) h.inv.reprovideQueue henq hstart
  have hrange := h.table.range final hround.mem_next
  have hoffset := env.offset_range t
  refine ⟨r, s', hrun, ?_⟩
  have hstate := hstart.state_eq
  obtain ⟨q, -, -, rfl⟩ := henq
  have halarm : SoonestCursor env.toConfig t
      (State.alarmFor env { s.tick 2 with reprovideQueue := q } final) :=
    soonestCursor_alarmFor h.clock hrange hsoonest.2 hround.mem_next hround.soonest
  have htimer : s'.scheduleTimer.toInt = env.timeLeft t final.2 := by
    rw [hstate]
    exact h.clock.toInt_timeBetween hrange hsoonest.2 _
  constructor
  case late =>
    intro x hx hxlate
    by_cases hkey : x.1 = s.scheduleCursor
    · rw [hkey]
      exact hcursor.imp id fun hor => hor.imp id fun hclosed => ⟨hclosed, rfl⟩
    · have hpassed := (hround.mem_late x).mpr ⟨hx, hxlate, hkey⟩
      refine .inr (.inl (hqueued x.1 (mem_map_of_mem hpassed) fun hpre => hkey ?_))
      exact (h.inv.schedule.eq_of_overlap (mem_keys_of_mem hc) (mem_keys_of_mem hx)
        (.inl hpre)).symm
  case early =>
    intro p hp
    rcases hnew p hp with hold | hpassed | rfl
    · exact .inl hold
    · obtain ⟨x, hx, rfl⟩ := mem_map.mp hpassed
      obtain ⟨hmem, hlate, -⟩ := (hround.mem_late x).mp hx
      exact .inr ⟨x, hmem, hlate, rfl⟩
    · exact .inr ⟨_, hc, hclate, rfl⟩
  case schedule =>
    rw [hstate]
    rfl
  case cursor =>
    rw [hstate]
    exact halarm
  case started =>
    rw [hstate]
    exact h.clock.clock _
  case timer =>
    rw [htimer]
    exact ⟨cycleDist_pos hoffset.2 hrange.1, cycleDist_le hoffset.1 hrange.2⟩

/-- When the call catches up with an empty queue, the loop stops in time. -/
theorem Due.stopsInTime (h : Due env t s) (hqueue : s.reprovideQueue.queue = [])
    (hrun : handleReprovide env s = some (r, s')) (hcaught : CaughtUp env t s r s') :
    StopsInTime env t s := by
  obtain ⟨d, hc, -, hclate⟩ := h.cursor
  have hwf := h.inv.schedule
  obtain ⟨late, next, rest, hround⟩ := h.exists_round
  obtain ⟨first, passed, final, s1, r', s'', hrun', hfirst, hwalk, henq, hstart⟩ := h.handled
  obtain ⟨rfl, rfl⟩ : r = r' ∧ s' = s'' := by
    rw [hrun] at hrun'
    exact Prod.ext_iff.mp (Option.some.inj hrun')
  obtain ⟨-, hqueued, hnew⟩ := Started.queue (s := s.tick 2) h.inv.reprovideQueue henq hstart
  have hstate := hstart.state_eq
  obtain ⟨q, -, -, rfl⟩ := henq
  -- the new cursor is the soonest entry
  obtain ⟨d', hd', hmin, htimer⟩ := hcaught.cursor
  rw [hcaught.schedule] at hd' hmin
  have hfinal : final = (s'.scheduleCursor, d') := hwf.entry_eq hwalk.mem hd' (by rw [hstate]; rfl)
  have hnext : final = next := hfinal.trans (hround.eq_next h hd' hmin)
  have hend : passed = late := by
    rcases hround.walk_cases hfirst hwalk with hend | ⟨-, hmem⟩ | ⟨hmem, hrest⟩
    · exact hend.1
    · -- a late entry is the soonest one only if it is the cursor
      rw [hnext] at hmem
      obtain ⟨-, hlate, hkey⟩ := (hround.mem_late next).mp hmem
      exact absurd (hround.next_late hlate).1 hkey
    · -- the loop went past the soonest entry, which was queued
      have hahead : ¬ Late env.toConfig t s next := fun hlate =>
        (hround.next_late hlate).2.1 (hnext ▸ hrest)
      have happart : ∀ e ∈ s.schedule.entries, Late env.toConfig t s e → ¬ e.1 <+: next.1 := by
        intro e he hlate hpre
        have heq := hwf.entry_eq he hround.mem_next (hwf.eq_of_overlap (mem_keys_of_mem he)
          (mem_keys_of_mem hround.mem_next) (.inl hpre))
        exact hahead (heq ▸ hlate)
      obtain ⟨p, hp, hpre⟩ := hqueued next.1 (mem_map_of_mem hmem) (happart _ hc hclate)
      rcases hcaught.early p hp with hold | ⟨e, he, hlate, rfl⟩
      · rw [hqueue] at hold
        cases hold
      · exact absurd hpre (happart e he hlate)
  refine ⟨fun e he hkey hlate => ?_, fun e he hsoonest => ?_⟩
  · apply hwalk.late
    rw [hend]
    exact (hround.mem_late e).mpr ⟨he, hlate, hkey⟩
  · obtain rfl := hround.eq_next h he hsoonest
    refine ⟨?_, ?_⟩
    · have hlen := hround.length_late
      rcases hwalk.stop with hstop | hstop
      · rw [hend] at hstop
        omega
      · rwa [hnext] at hstop
    · -- a duration that wrapped around is not the time left
      by_contra hover
      have hrange := h.table.range e he
      have hoffset := env.offset_range t
      have hmax := env.period_lt
      have hstart : (t % env.reprovideInterval).toInt = env.offset t :=
        toInt_mod_interval h.clock.nonneg
      have hwrapped := toInt_timeBetween_wrapped env.toConfig
        (a := t % env.reprovideInterval) (b := e.2) (by omega) hrange.2 (by omega)
      have hset : s'.scheduleTimer = timeBetween env.toConfig (t % env.reprovideInterval) e.2 := by
        rw [hstate, ← hnext, ← h.clock.clock (s.clock + 2)]
        rfl
      rw [hcaught.started, hset, show d' = e.2 by rw [← hnext, hfinal]] at htimer
      unfold Config.timeLeft cycleDist at htimer
      split at htimer <;> omega

end Call

/-! ## The main result -/

/-- As long as four times the interval fits into a duration, the test in the loop is right. -/
theorem Due.testsLate_iff {env : Env} {t : Duration} {s : State} (h : Due env t s)
    (hsmall : env.period ≤ 2 ^ 61) (he : e ∈ s.schedule.entries) :
    TestsLate env t s e ↔ Late env.toConfig t s e := by
  have hpos := env.period_pos
  have hrange := h.table.range e he
  have hstarted := h.started
  have hrecent := h.recent
  have hoffset := env.offset_range s.scheduleTimerStartedAt
  have hnow : (t % env.reprovideInterval).toInt = env.offset t := toInt_mod_interval h.clock.nonneg
  have hnowRange := env.offset_range t
  -- the remainder may be negative, but not by more than an interval
  have hrem : -env.period < (s.scheduleTimerStartedAt % env.reprovideInterval).toInt ∧
      (s.scheduleTimerStartedAt % env.reprovideInterval).toInt < env.period := by
    rw [Int64.toInt_mod]
    exact ⟨Int.lt_tmod_of_pos _ hpos, Int.tmod_lt_of_pos _ hpos⟩
  have hleft : (timeBetween env.toConfig (s.scheduleTimerStartedAt % env.reprovideInterval)
      e.2).toInt = env.timeLeft s.scheduleTimerStartedAt e.2 := by
    rw [toInt_timeBetween hrange (by omega) (by omega), offset_mod_interval]
    rfl
  have hrunning : (timeBetween env.toConfig (s.scheduleTimerStartedAt % env.reprovideInterval)
      (t % env.reprovideInterval)).toInt = t.toInt - s.scheduleTimerStartedAt.toInt := by
    rw [toInt_timeBetween (b := t % env.reprovideInterval) (by rw [hnow]; exact hnowRange)
      (by omega) (by omega), offset_mod_interval, hnow,
      ← env.offset_add s.scheduleTimerStartedAt t]
    exact cycleDist_emod_add hoffset.1 hoffset.2 (by omega) (by omega)
  unfold TestsLate Late
  rw [Int64.lt_iff_toInt_lt, hleft, hrunning]
  omega

/-- **Catching up.** A call of `handleReprovide` that comes late catches up exactly when its loop
stops in time; and unless the interval is longer than 73 years, this is the case exactly when not
all regions are late. -/
theorem catchesUp_iff [TrieLib] {env : Env} {t : Duration} {s : State} (h : Due env t s) :
    (CatchesUp env t s ↔ StopsInTime env t s) ∧
    (env.reprovideInterval.toInt ≤ 2 ^ 61 →
      (StopsInTime env t s ↔ ∃ e ∈ s.schedule.entries, ¬ Late env.toConfig t s e)) := by
  have hqueued : ∀ q : PrefixQueue, q.Inv → Due env t { s with reprovideQueue := q } := fun q hq =>
    { h with inv := ⟨h.inv.provideQueue, hq, h.inv.schedule, h.inv.activeReprovides⟩ }
  refine ⟨⟨fun hcatches => ?_, fun hstops q hq => ?_⟩, fun hsmall => ⟨fun hstops => ?_, ?_⟩⟩
  · obtain ⟨r, s', hrun, hcaught⟩ := hcatches .new PrefixQueue.inv_new
    have hstops := (hqueued .new PrefixQueue.inv_new).stopsInTime rfl hrun hcaught
    exact { hstops with }
  · exact (hqueued q hq).caughtUp { hstops with }
  · obtain ⟨late, next, rest, hround⟩ := h.exists_round
    have hnext := (hstops.soonest next hround.mem_next hround.soonest).1
    rw [h.testsLate_iff hsmall hround.mem_next] at hnext
    exact ⟨next, hround.mem_next, hnext⟩
  · rintro ⟨x, hx, hahead⟩
    obtain ⟨late, next, rest, hround⟩ := h.exists_round
    refine ⟨fun e he _ hlate => (h.testsLate_iff hsmall he).mpr hlate, fun e he hsoonest => ?_⟩
    obtain rfl := hround.eq_next h he hsoonest
    have hrange := h.table.range e he
    have hoffset := env.offset_range t
    have hperiod : env.reprovideInterval.toInt = env.period := rfl
    refine ⟨fun htests => ?_, by omega⟩
    have hlate := (h.testsLate_iff hsmall he).mp htests
    exact hahead ((hround.next_late hlate).2.2 x hx)

/-! ## Two regions -/

/-- Two regions, at the start and in the middle of the cycle. The timer was started ten hours into
the cycle, an hour before the time of the second region. -/
def twoRegions : State :=
  { State.new with
    schedule := .node (.leaf [false] 0) (.leaf [true] 39600000000000)
    scheduleCursor := [true]
    scheduleTimer := 3600000000000
    scheduleTimerStartedAt := 36000000000000 }

theorem twoRegions_due {t : Duration}
    (hnow : (39600000000000 : Int) < t.toInt ∧ t.toInt < 115200000000000)
    (hoff : defaultIntervalConfig.offset t ≠ 0 ∧ defaultIntervalConfig.offset t ≠ 39600000000000) :
    Due (standingEnv defaultIntervalConfig t) t twoRegions where
  inv :=
    { State.inv_new with schedule := ⟨prefix_rfl, prefix_rfl, .inl (by simp)⟩ }
  several := by decide
  table := by
    show Timetable defaultIntervalConfig twoRegions.schedule.entries
    decide +kernel
  clock := ⟨fun _ => rfl, by omega⟩
  off_clock := by
    simp only [twoRegions, entries_node, entries_leaf, singleton_append,
      forall_mem_cons, not_mem_nil, false_imp_iff, implies_true, and_true]
    exact hoff
  started := by
    show (36000000000000 : Int) < t.toInt
    omega
  recent := by
    show t.toInt < (36000000000000 : Int) + 79200000000000
    omega
  cursor := by
    refine ⟨39600000000000, by decide, ?_, ?_⟩
    · show ∀ e ∈ twoRegions.schedule.entries,
        defaultIntervalConfig.timeLeft twoRegions.scheduleTimerStartedAt 39600000000000
          ≤ defaultIntervalConfig.timeLeft twoRegions.scheduleTimerStartedAt e.2
      decide +kernel
    · have hleft : defaultIntervalConfig.timeLeft 36000000000000 39600000000000
          = 3600000000000 := by decide +kernel
      show (36000000000000 : Int)
        + defaultIntervalConfig.timeLeft 36000000000000 39600000000000 < t.toInt
      omega

/-- Twelve hours into the cycle the first region is not late, and the call catches up. -/
theorem catchesUp_twelve_hours :
    Due (standingEnv defaultIntervalConfig 43200000000000) 43200000000000 twoRegions ∧
    @CatchesUp binaryTrie (standingEnv defaultIntervalConfig 43200000000000) 43200000000000
      twoRegions := by
  have hdue : Due (standingEnv defaultIntervalConfig 43200000000000) 43200000000000 twoRegions :=
    twoRegions_due (by decide) (by decide)
  have hahead : ¬ Late defaultIntervalConfig 43200000000000 twoRegions ([false], 0) := by
    decide +kernel
  obtain ⟨hiff, hsmall⟩ := @catchesUp_iff binaryTrie _ _ _ hdue
  exact ⟨hdue, hiff.mpr ((hsmall (by decide)).mpr ⟨_, by decide, hahead⟩)⟩

/-- Thirty-one hours into the cycle both regions are late. The region `1` is reprovided, and comes
again in two hours; but the cursor moves to `0`, whose time comes in thirteen hours. -/
theorem catchUp_fails_all_late :
    Due (standingEnv defaultIntervalConfig 111600000000000) 111600000000000 twoRegions ∧
    (∃ s', @handleReprovide binaryTrie (standingEnv defaultIntervalConfig 111600000000000)
        twoRegions = some (some [true], s') ∧
      s'.scheduleCursor = [false] ∧ s'.scheduleTimer = 46800000000000 ∧
      ¬ SoonestCursor defaultIntervalConfig 111600000000000 s') ∧
    ¬ @CatchesUp binaryTrie (standingEnv defaultIntervalConfig 111600000000000) 111600000000000
      twoRegions := by
  have hrun : (@handleReprovide binaryTrie (standingEnv defaultIntervalConfig 111600000000000)
      twoRegions).any (fun r => decide (r.1 = some [true] ∧ r.2.scheduleCursor = [false] ∧
        r.2.scheduleTimer = 46800000000000 ∧
        ¬ SoonestCursor defaultIntervalConfig 111600000000000 r.2)) = true := by
    decide +kernel
  obtain ⟨⟨r, s'⟩, hs', hchecks⟩ := (Option.any_eq_true _ _).mp hrun
  rw [decide_eq_true_eq] at hchecks
  obtain ⟨rfl, hrest⟩ := hchecks
  refine ⟨twoRegions_due (by decide) (by decide), ⟨s', hs', hrest⟩, fun hcatches => ?_⟩
  obtain ⟨r, s'', hs'', hcaught⟩ := hcatches .new PrefixQueue.inv_new
  obtain rfl : s'' = s' := congrArg Prod.snd (Option.some.inj (hs''.symm.trans hs'))
  exact hrest.2.2 hcaught.cursor

end SweepingProvider

end KadDht
