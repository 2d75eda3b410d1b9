import KadDht.Provider.Cursor
import KadDht.Provider.Slots

/-!
# Provider — the cursor is the soonest region

The code never looks for the prefix whose time comes first. It keeps the cursor on it, by looking
at the successor of a prefix in the order of the keyspace, which is the order of time offsets in
the cycle.

* **`keepsSoonest_iff`** — when the scheduling functions keep it there.
-/

namespace KadDht

open BitKey List TrieLib Trie Machine

namespace SweepingProvider

/-! ## Time -/

/-- The reprovide interval, in nanoseconds. -/
def Config.period (config : Config) : Int := config.reprovideInterval.toInt

def Config.offset (config : Config) (t : Duration) : Int := t.toInt % config.period

theorem Config.period_pos (config : Config) : 0 < config.period := interval_pos config

theorem Config.period_lt (config : Config) : config.period < 2 ^ 63 :=
  config.reprovideInterval.toInt_lt

theorem Config.offset_range (config : Config) (t : Duration) :
    0 ≤ config.offset t ∧ config.offset t < config.period :=
  ⟨Int.emod_nonneg _ config.period_pos.ne', Int.emod_lt_of_pos _ config.period_pos⟩

theorem Config.offset_add (config : Config) (a b : Duration) :
    (config.offset a + (b.toInt - a.toInt)) % config.period = config.offset b := by
  unfold Config.offset
  rw [Int.emod_add_emod]
  congr 1
  omega

/-- The remainder the code takes is the offset, for times that are not before the first cycle. -/
theorem toInt_mod_interval {config : Config} {t : Duration} (ht : 0 ≤ t.toInt) :
    (t % config.reprovideInterval).toInt = config.offset t :=
  toInt_mod_eq ht

theorem offset_mod_interval (config : Config) (t : Duration) :
    config.offset (t % config.reprovideInterval) = config.offset t := by
  unfold Config.offset
  rw [Int64.toInt_mod, Int.tmod_def]
  exact Int.sub_mul_emod_self_left _ _ _

theorem toInt_timeBetween_sum (config : Config) (a b : Duration) :
    (b - a + config.reprovideInterval - 1).toInt
      = (b.toInt - a.toInt + config.period - 1).bmod (2 ^ 64) := by
  rw [Int64.toInt_sub, Int64.toInt_add, Int64.toInt_sub, Int64.toInt_one, Int.bmod_add_bmod,
    Int.bmod_sub_bmod]
  rfl

/-- **`timeBetween`** is the distance on the cycle. -/
theorem toInt_timeBetween {config : Config} {a b : Duration}
    (hb : 0 ≤ b.toInt ∧ b.toInt < config.period) (hlo : 0 < b.toInt - a.toInt + config.period)
    (hfit : b.toInt - a.toInt + config.period ≤ 2 ^ 63) :
    (timeBetween config a b).toInt = cycleDist config.period (config.offset a) b.toInt := by
  have hpos := config.period_pos
  have hmax := config.period_lt
  have hsum : (b - a + config.reprovideInterval - 1).toInt
      = b.toInt - a.toInt + config.period - 1 := by
    rw [toInt_timeBetween_sum]
    exact bmod_eq (by omega) (by omega)
  have hmod : ((b - a + config.reprovideInterval - 1) % config.reprovideInterval).toInt
      = (b.toInt - a.toInt + config.period - 1) % config.period := by
    rw [toInt_mod_eq (by rw [hsum]; omega), hsum]
    rfl
  have hnonneg := Int.emod_nonneg (b.toInt - a.toInt + config.period - 1) hpos.ne'
  have hlt := Int.emod_lt_of_pos (b.toInt - a.toInt + config.period - 1) hpos
  rw [timeBetween, toInt_add_eq, hmod, Int64.toInt_one, emod_eq_cycleDist hpos hb.1 hb.2]
  · rfl
  · rw [hmod, Int64.toInt_one]
    omega
  · rw [hmod, Int64.toInt_one]
    omega

theorem toInt_timeBetween_wrapped (config : Config) {a b : Duration}
    (ha : 0 ≤ a.toInt) (hb : b.toInt < config.period)
    (hover : 2 ^ 63 < b.toInt - a.toInt + config.period) :
    (timeBetween config a b).toInt ≤ 1 := by
  have hmax := config.period_lt
  have hsum : (b - a + config.reprovideInterval - 1).toInt ≤ 0 := by
    rw [toInt_timeBetween_sum, bmod_wrapped (by omega) (by omega)]
    omega
  obtain ⟨hnonpos, hlt⟩ := toInt_mod_nonpos hsum config.period_pos
  have hperiod : config.reprovideInterval.toInt = config.period := rfl
  rw [timeBetween, toInt_add_eq, Int64.toInt_one]
  · omega
  · rw [Int64.toInt_one]
    omega
  · rw [Int64.toInt_one]
    omega

/-! ## Timetables -/

/-- Prefixes of the keyspace with time offsets in the cycle that increase along the order around
`order`. -/
structure Timetable (config : Config) (es : List (Bitstr × Duration)) : Prop where
  short : ∀ e ∈ es, e.1.length ≤ keyLen
  range : ∀ e ∈ es, 0 ≤ e.2.toInt ∧ e.2.toInt < config.period
  mono : ∀ e ∈ es, ∀ e' ∈ es, XorBefore config.order.bits e.1 e'.1 → e.2.toInt < e'.2.toInt

instance (config : Config) (es : List (Bitstr × Duration)) : Decidable (Timetable config es) :=
  decidable_of_iff ((∀ e ∈ es, e.1.length ≤ keyLen) ∧
      (∀ e ∈ es, 0 ≤ e.2.toInt ∧ e.2.toInt < config.period) ∧
      ∀ e ∈ es, ∀ e' ∈ es, XorBefore config.order.bits e.1 e'.1 → e.2.toInt < e'.2.toInt)
    ⟨fun h => ⟨h.1, h.2.1, h.2.2⟩, fun h => ⟨h.short, h.range, h.mono⟩⟩

namespace Timetable

variable {config : Config} {es es' : List (Bitstr × Duration)}

theorem subset (h : Timetable config es) (hsub : ∀ e ∈ es', e ∈ es) : Timetable config es' :=
  ⟨fun e he => h.short e (hsub e he), fun e he => h.range e (hsub e he),
    fun e he e' he' => h.mono e (hsub e he) e' (hsub e' he')⟩

/-- Prefixes that do not overlap have different offsets, in their order. -/
theorem lt_iff (h : Timetable config es) {e e' : Bitstr × Duration} (he : e ∈ es) (he' : e' ∈ es)
    (hov : ¬ Overlap e.1 e'.1) :
    XorBefore config.order.bits e.1 e'.1 ↔ e.2.toInt < e'.2.toInt := by
  refine ⟨h.mono e he e' he', fun hlt => ?_⟩
  rcases xorBefore_or config.order.bits hov with hbefore | hafter
  · exact hbefore
  · have hgt := h.mono e' he' e he hafter
    omega

theorem offset_ne (h : Timetable config es) {e e' : Bitstr × Duration} (he : e ∈ es)
    (he' : e' ∈ es) (hov : ¬ Overlap e.1 e'.1) : e.2.toInt ≠ e'.2.toInt := by
  rcases xorBefore_or config.order.bits hov with hbefore | hafter
  · exact (h.mono e he e' he' hbefore).ne
  · exact (h.mono e' he' e he hafter).ne'

/-- The iteration over a schedule is sorted by time. -/
theorem sorted {t : Trie Bitstr Duration} (h : Timetable config t.entries) (ht : t.WF) :
    (entriesIter t config.order).Pairwise fun x y => x.2.toInt < y.2.toInt := by
  have hmem := fun e => (entriesIter_perm t config.order).mem_iff (a := e)
  exact (sorted_entriesIter ht config.order).imp_of_mem fun {x y} hx hy hxy =>
    h.mono x ((hmem x).mp hx) y ((hmem y).mp hy) hxy

/-- **The next leaf is the next appointment**, seen from the time of a prefix that is scheduled or
was. -/
theorem soonest_nextNonEmptyLeaf {t : Trie Bitstr Duration} {c : Bitstr × Duration}
    (h : Timetable config (c :: t.entries)) (ht : t.WF)
    (hc : ∀ e ∈ t.entries, Overlap e.1 c.1 → e = c) {e : Bitstr × Duration}
    (hnext : nextNonEmptyLeaf t c.1 config.order = some (some e)) :
    Soonest config.period c.2.toInt (fun x => x.2.toInt) t.entries e := by
  have hmem := fun e => (entriesIter_perm t config.order).mem_iff (a := e)
  have hentries : Timetable config t.entries := h.subset fun e he => mem_cons_of_mem c he
  have hacc : t.Accepts c.1 := by
    intro k hk hov
    obtain ⟨d, hd⟩ := mem_keys.mp hk
    exact congrArg Prod.fst (hc (k, d) hd hov)
  have hlen : ∀ k ∈ t.keys, bitLen k ≤ bitLen config.order := by
    intro k hk
    obtain ⟨d, hd⟩ := mem_keys.mp hk
    exact (hentries.short _ hd).trans_eq config.order.length_bits.symm
  -- after the prefix in the keyspace is after it in time
  have hafter : ∀ x ∈ entriesIter t config.order,
      isAfter config.order c.1 x = true ↔ c.2.toInt < x.2.toInt := by
    intro x hx
    have hxe := (hmem x).mp hx
    rw [isAfter_iff]
    by_cases hov : Overlap x.1 c.1
    · obtain rfl := hc x hxe hov
      exact ⟨fun hx => absurd (Overlap.refl _) hx.not_overlap, fun hx => absurd hx (lt_irrefl _)⟩
    · exact h.lt_iff mem_cons_self (mem_cons_of_mem c hxe) fun hov' => hov hov'.symm
  rw [nextNonEmptyLeaf_eq ht hacc config.order hlen, Option.some.injEq] at hnext
  obtain ⟨he, hmin⟩ := soonest_of_next (hentries.sorted ht)
    (fun x hx => hentries.range x ((hmem x).mp hx)) hafter hnext
  exact ⟨(hmem e).mp he, fun x hx => hmin x ((hmem x).mpr hx)⟩

end Timetable

/-! ## The cursor -/

/-- How long it takes from a point in time until a time offset comes next. -/
def Config.timeLeft (config : Config) (t d : Duration) : Int :=
  cycleDist config.period (config.offset t) d.toInt

/-- The clock stands still during a call, at a point in time after the first cycle started. -/
structure Env.StandsAt (env : Env) (t : Duration) : Prop where
  clock : ∀ i, env.sinceCycleStart i = t
  nonneg : 0 ≤ t.toInt

/-- At the point in time `t`, the cursor is the scheduled prefix whose time comes first, and the
timer was set such that it fires then. -/
def SoonestCursor (config : Config) (t : Duration) (s : State) : Prop :=
  ∃ d, (s.scheduleCursor, d) ∈ s.schedule.entries ∧
    (∀ e ∈ s.schedule.entries, config.timeLeft t d ≤ config.timeLeft t e.2) ∧
    s.scheduleTimerStartedAt.toInt + s.scheduleTimer.toInt = t.toInt + config.timeLeft t d

instance (config : Config) (t : Duration) (s : State) : Decidable (SoonestCursor config t s) :=
  decidable_of_iff (∃ c ∈ s.schedule.entries, c.1 = s.scheduleCursor ∧
      (∀ e ∈ s.schedule.entries, config.timeLeft t c.2 ≤ config.timeLeft t e.2) ∧
      s.scheduleTimerStartedAt.toInt + s.scheduleTimer.toInt = t.toInt + config.timeLeft t c.2)
    ⟨fun ⟨c, hc, hkey, hrest⟩ => ⟨c.2, hkey ▸ hc, hrest⟩, fun ⟨_, hd, hrest⟩ => ⟨_, hd, rfl, hrest⟩⟩

theorem Env.StandsAt.toInt_timeBetween {env : Env} {t d : Duration} (h : env.StandsAt t)
    (hrange : 0 ≤ d.toInt ∧ d.toInt < env.period)
    (hfit : d.toInt - env.offset t + env.period ≤ 2 ^ 63) (i : Nat) :
    (timeBetween env.toConfig (env.sinceCycleStart i % env.reprovideInterval) d).toInt
      = env.timeLeft t d := by
  have hoffset : (t % env.reprovideInterval).toInt = env.offset t := toInt_mod_interval h.nonneg
  have hlt := (env.offset_range t).2
  rw [h.clock, SweepingProvider.toInt_timeBetween hrange (by rw [hoffset]; omega)
    (by rw [hoffset]; exact hfit), offset_mod_interval]
  rfl

section Kept

variable {env : Env} {t : Duration} {pfx : Bitstr} {d : Duration} {s s' : State}

theorem fits_of_small (hsmall : env.period ≤ 2 ^ 62)
    (hrange : 0 ≤ d.toInt ∧ d.toInt < env.period) :
    d.toInt - env.offset t + env.period ≤ 2 ^ 63 := by
  have hoffset := env.offset_range t
  omega

theorem Env.StandsAt.toInt_timeUntil (h : env.StandsAt t) (hsmall : env.period ≤ 2 ^ 62)
    (hrange : 0 ≤ d.toInt ∧ d.toInt < env.period) (i : Nat) :
    (timeBetween env.toConfig (env.sinceCycleStart i % env.reprovideInterval) d).toInt
      = env.timeLeft t d := by
  exact h.toInt_timeBetween hrange (fits_of_small hsmall hrange) i

/-- The remainder that is compared with is the duration itself, as long as it is not a full
cycle. -/
theorem Env.StandsAt.toInt_timeUntil_mod (h : env.StandsAt t) (hsmall : env.period ≤ 2 ^ 62)
    (hrange : 0 ≤ d.toInt ∧ d.toInt < env.period) (hoff : env.offset t ≠ d.toInt) (i : Nat) :
    (timeBetween env.toConfig (env.sinceCycleStart i % env.reprovideInterval) d
      % env.reprovideInterval).toInt = env.timeLeft t d := by
  have hoffset := env.offset_range t
  have hpos : 0 < env.timeLeft t d := cycleDist_pos hoffset.2 hrange.1
  have hlt : env.timeLeft t d < env.period := cycleDist_lt hoffset.1 hrange.2 hoff
  have hleft := h.toInt_timeUntil hsmall hrange i
  rw [toInt_mod_eq (by rw [hleft]; exact hpos.le), hleft]
  exact Int.emod_eq_of_lt hpos.le hlt

theorem soonestCursor_alarmFor (hclock : env.StandsAt t) {e : Bitstr × Duration}
    (hrange : 0 ≤ e.2.toInt ∧ e.2.toInt < env.period)
    (hfit : e.2.toInt - env.offset t + env.period ≤ 2 ^ 63) (hmem : e ∈ s.schedule.entries)
    (hmin : ∀ x ∈ s.schedule.entries, env.timeLeft t e.2 ≤ env.timeLeft t x.2) :
    SoonestCursor env.toConfig t (s.alarmFor env e) := by
  refine ⟨e.2, hmem, hmin, ?_⟩
  show (env.sinceCycleStart (s.clock + 1)).toInt
    + (timeBetween env.toConfig (env.sinceCycleStart s.clock % env.reprovideInterval) e.2).toInt = _
  rw [hclock.toInt_timeBetween hrange hfit, hclock.clock]

/-- **`unscheduleSubsumedPrefixesNoLock`** keeps the cursor on the soonest prefix. -/
theorem Unscheduled.soonestCursor (hun : Unscheduled env pfx s s') (hclock : env.StandsAt t)
    (hsmall : env.period ≤ 2 ^ 62) (hs : s.schedule.WF)
    (htable : Timetable env.toConfig s.schedule.entries)
    (hcursor : s.schedule.entries ≠ [] → SoonestCursor env.toConfig t s)
    (hne : s'.schedule.entries ≠ []) : SoonestCursor env.toConfig t s' := by
  have hpruned := mem_pruneSubtrie hs pfx
  rw [hun.schedule_eq] at hne
  obtain ⟨x, hx⟩ := exists_mem_of_ne_nil _ hne
  obtain ⟨d, hmem, hmin, htimer⟩ := hcursor (ne_nil_of_mem ((hpruned x).mp hx).1)
  cases hun with
  | elsewhere hbelow =>
    exact ⟨d, (hpruned _).mpr ⟨hmem, hbelow⟩, fun e he => hmin e ((hpruned e).mp he).1, htimer⟩
  | emptied hbelow hempty timer startedAt clock =>
    exact absurd (congrArg entries hempty) hne
  | moved hbelow e hnext he =>
    have hsub : ∀ x ∈ (s.scheduleCursor, d) :: (pruneSubtrie s.schedule pfx).entries,
        x ∈ s.schedule.entries := by
      intro x hx
      rcases mem_cons.mp hx with rfl | hx
      · exact hmem
      · exact ((hpruned x).mp hx).1
    -- what is left is not below the prefix, while the old cursor is
    have hapart : ∀ x ∈ (pruneSubtrie s.schedule pfx).entries, ¬ Overlap x.1 s.scheduleCursor := by
      intro x hx hov
      have hxs := (hpruned x).mp hx
      have heq := hs.eq_of_overlap (mem_keys_of_mem hxs.1) (mem_keys_of_mem hmem) hov
      exact hxs.2 (heq ▸ hbelow)
    have hnear := (htable.subset hsub).soonest_nextNonEmptyLeaf (pruneSubtrie_wf hs pfx)
      (fun x hx hov => absurd hov (hapart x hx)) hnext
    have hlater : ∀ x ∈ (pruneSubtrie s.schedule pfx).entries,
        env.timeLeft t d < env.timeLeft t x.2 := by
      intro x hx
      have hxs := ((hpruned x).mp hx).1
      have hxr := htable.range x hxs
      have hdr := htable.range _ hmem
      refine lt_of_le_of_ne (hmin x hxs) fun heq => ?_
      have hoffset := cycleDist_inj hdr.1 hdr.2 hxr.1 hxr.2 heq
      exact htable.offset_ne hmem hxs (fun hov => hapart x hx hov.symm) hoffset
    have hsoonest := hnear.after (htable.range _ hmem).1
      (fun x hx => (htable.range x ((hpruned x).mp hx).1).2) hlater
    have her := htable.range e ((hpruned e).mp he).1
    exact soonestCursor_alarmFor hclock her (fits_of_small hsmall her) he hsoonest.2

variable [LeafTrieLib]

/-- **`advanceCursor`** moves the cursor to the new prefix if its time comes first. -/
theorem Advanced.soonestCursor
    (hadv : Advanced env pfx d { s with schedule := TrieLib.add s.schedule pfx d } s')
    (hclock : env.StandsAt t) (hsmall : env.period ≤ 2 ^ 62) (hs : s.schedule.WF)
    (hapart : ∀ k ∈ s.schedule.keys, ¬ Overlap k pfx)
    (htable : Timetable env.toConfig ((pfx, d) :: s.schedule.entries))
    (hoff : ∀ e ∈ (pfx, d) :: s.schedule.entries, env.offset t ≠ e.2.toInt)
    (hcursor : s.schedule.entries ≠ [] → SoonestCursor env.toConfig t s) :
    SoonestCursor env.toConfig t s' := by
  have hacc : s.schedule.Accepts pfx := fun k hk hov => absurd hov (hapart k hk)
  have hmem : ∀ e, e ∈ (add s.schedule pfx d).entries ↔
      e ∈ (pfx, d) :: s.schedule.entries := by
    intro e
    have hfresh : pfx ∉ s.schedule.keys := fun hk => hapart pfx hk (Overlap.refl pfx)
    rw [mem_add d e hs hacc, mem_cons, or_comm]
    simp only [hfresh, not_false_eq_true, true_and]
  have hdr := htable.range (pfx, d) mem_cons_self
  have hleft : ∀ i, (timeBetween env.toConfig
      (env.sinceCycleStart i % env.reprovideInterval) d).toInt = env.timeLeft t d :=
    hclock.toInt_timeUntil hsmall hdr
  have hsub : ∀ x ∈ (pfx, d) :: (add s.schedule pfx d).entries,
      x ∈ (pfx, d) :: s.schedule.entries := by
    intro x hx
    rcases mem_cons.mp hx with rfl | hx
    · exact mem_cons_self
    · exact (hmem x).mp hx
  cases hadv with
  | only k d' hleaf =>
    have hself : ∀ x ∈ (add s.schedule pfx d).entries, x = (pfx, d) := by
      have hpfx := (hmem (pfx, d)).mpr mem_cons_self
      have hleaf' : add s.schedule pfx d = .leaf k d' := hleaf
      rw [hleaf', entries_leaf, mem_singleton] at hpfx
      intro x hx
      rw [hleaf', entries_leaf, mem_singleton] at hx
      rw [hx, hpfx]
    refine soonestCursor_alarmFor hclock hdr (fits_of_small hsmall hdr)
      ((hmem _).mpr mem_cons_self) ?_
    intro x hx
    rw [hself x hx]
  | sooner following hnext hfollowing hfmem hlt =>
    have hf := (hmem following).mp hfmem
    rw [Int64.lt_iff_toInt_lt, hleft,
      hclock.toInt_timeUntil_mod hsmall (htable.range _ hf) (hoff _ hf)] at hlt
    have hold : following ∈ s.schedule.entries := by
      rcases mem_cons.mp hf with rfl | hold
      · exact absurd hlt (lt_irrefl _)
      · exact hold
    obtain ⟨dc, hcmem, hmin, -⟩ := hcursor (ne_nil_of_mem hold)
    have hdc : following.2 = dc := by
      rw [show s.scheduleCursor = following.1 from hfollowing.symm] at hcmem
      exact hs.data_unique hold hcmem
    rw [hdc] at hlt
    refine ⟨d, (hmem _).mpr mem_cons_self, fun e he => ?_, ?_⟩
    · rcases mem_cons.mp ((hmem e).mp he) with rfl | he
      · exact le_refl _
      · exact hlt.le.trans (hmin e he)
    · show (env.sinceCycleStart (s.clock + 2)).toInt + (timeBetween env.toConfig _ d).toInt = _
      rw [hleft, hclock.clock]
  | later hnode following hnext hfollowing hfmem hlt =>
    obtain ⟨dc, hcmem, hmin, htimer⟩ := hcursor (LeafTrieLib.entries_ne_nil_of_add hs hnode)
    have hdc : following.2 = dc := by
      rw [show s.scheduleCursor = following.1 from hfollowing.symm] at hcmem
      exact (add_wf d hs hacc).data_unique hfmem ((hmem _).mpr (mem_cons_of_mem _ hcmem))
    have hf := (hmem following).mp hfmem
    rw [Int64.lt_iff_toInt_lt, hleft,
      hclock.toInt_timeUntil_mod hsmall (htable.range _ hf) (hoff _ hf), hdc, not_lt] at hlt
    refine ⟨dc, (hmem _).mpr (mem_cons_of_mem _ hcmem), fun e he => ?_, htimer⟩
    rcases mem_cons.mp ((hmem e).mp he) with rfl | he
    · exact hlt
    · exact hmin e he
  | unrelated hnode following hnext hfollowing =>
    obtain ⟨dc, hcmem, hmin, htimer⟩ := hcursor (LeafTrieLib.entries_ne_nil_of_add hs hnode)
    have hwf := add_wf d hs hacc
    have hcmem' := (hmem _).mpr (mem_cons_of_mem (pfx, d) hcmem)
    -- the prefix that follows the new one is not the cursor, so the new one does not come first
    have hnear := (htable.subset hsub).soonest_nextNonEmptyLeaf hwf (fun x hx hov => by
      rcases mem_cons.mp ((hmem x).mp hx) with rfl | hx
      · rfl
      · exact absurd hov (hapart x.1 (mem_keys_of_mem hx))) hnext
    have hne : following.2.toInt ≠ dc.toInt := by
      refine htable.offset_ne ((hmem _).mp hnear.1) (mem_cons_of_mem _ hcmem) fun hov => ?_
      exact hfollowing (hwf.eq_of_overlap (mem_keys_of_mem hnear.1) (mem_keys_of_mem hcmem') hov)
    have hle : env.timeLeft t dc ≤ env.timeLeft t d := by
      have hsoonest : Soonest env.period (env.offset t) (fun x => x.2.toInt) s.schedule.entries
          (s.scheduleCursor, dc) := ⟨hcmem, hmin⟩
      have hothers : ∀ x ∈ (add s.schedule pfx d).entries,
          x.2.toInt = d.toInt ∨ x ∈ s.schedule.entries := by
        intro x hx
        rcases mem_cons.mp ((hmem x).mp hx) with rfl | hx
        · exact .inl rfl
        · exact .inr hx
      have hrange : ∀ x ∈ s.schedule.entries, 0 ≤ x.2.toInt ∧ x.2.toInt < env.period := fun x hx =>
        htable.range x (mem_cons_of_mem _ hx)
      -- the comparison is of `cycleDist`, which `timeLeft` abbreviates
      show cycleDist env.period (env.offset t) (s.scheduleCursor, dc).2.toInt ≤
        cycleDist env.period (env.offset t) (pfx, d).2.toInt
      exact hsoonest.le_of_not_next (p := (pfx, d)) hnear hdr.1 hrange hcmem' hothers hne
    refine ⟨dc, hcmem', fun e he => ?_, htimer⟩
    rcases mem_cons.mp ((hmem e).mp he) with rfl | he
    · exact hle
    · exact hmin e he

/-- **`schedulePrefixNoLock`** keeps the cursor on the soonest prefix. -/
theorem Scheduled.soonestCursor (hsch : Scheduled env pfx d s s') (hclock : env.StandsAt t)
    (hsmall : env.period ≤ 2 ^ 62) (hs : s.schedule.WF)
    (htable : Timetable env.toConfig s.schedule.entries)
    (hnew : (∀ k ∈ s.schedule.keys, ¬ k <+: pfx) →
      Timetable env.toConfig ((pfx, d) :: s.schedule.entries) ∧
        ∀ e ∈ (pfx, d) :: s.schedule.entries, env.offset t ≠ e.2.toInt)
    (hcursor : s.schedule.entries ≠ [] → SoonestCursor env.toConfig t s) :
    SoonestCursor env.toConfig t s' := by
  cases hsch with
  | covered hcov readings =>
    obtain ⟨k, hk, -⟩ := hcov
    obtain ⟨d', hd'⟩ := mem_keys.mp hk
    exact hcursor (ne_nil_of_mem hd')
  | added hcov readings s1 s2 hun hadv =>
    obtain ⟨htable', hoff⟩ := hnew hcov
    have hcursor1 := hun.soonestCursor hclock hsmall hs htable hcursor
    have hsub : ∀ e ∈ (pfx, d) :: s1.schedule.entries, e ∈ (pfx, d) :: s.schedule.entries := by
      intro e he
      rw [hun.schedule_eq] at he
      rcases mem_cons.mp he with rfl | he
      · exact mem_cons_self
      · exact mem_cons_of_mem _ ((mem_pruneSubtrie hs pfx e).mp he).1
    have hwf1 : s1.schedule.WF := hun.schedule_eq ▸ pruneSubtrie_wf hs pfx
    have hapart : ∀ k ∈ s1.schedule.keys, ¬ Overlap k pfx :=
      hun.schedule_eq ▸ not_overlap_pruneSubtrie hs hcov
    exact hadv.soonestCursor hclock hsmall hwf1 hapart (htable'.subset hsub)
      (fun e he => hoff e (hsub e he)) hcursor1

end Kept

/-! ## Intervals that are too long -/

def standingEnv (config : Config) (t : Duration) : Env :=
  { (sampleNetwork []).env config with sinceCycleStart := fun _ => t }

/-- The first bit of the order, which tells which half of the keyspace comes first. -/
def Config.firstBit (config : Config) : Bool := config.order.bits.getD 0 false

/-- The half of the keyspace that comes first has its time one nanosecond after a cycle starts, the
other half has it one nanosecond before the cycle ends. -/
def farApart (config : Config) : State :=
  { State.new with
    schedule :=
      .node (.leaf [false] (if config.firstBit then config.reprovideInterval - 1 else 1))
        (.leaf [true] (if config.firstBit then 1 else config.reprovideInterval - 1))
    scheduleCursor := [config.firstBit]
    scheduleTimer := 1 }

section TooLong

variable {config : Config}

theorem mem_farApart (config : Config) (e : Bitstr × Duration) :
    e ∈ (farApart config).schedule.entries ↔
      e = ([config.firstBit], 1) ∨ e = ([!config.firstBit], config.reprovideInterval - 1) := by
  cases hfirst : config.firstBit with
  | false => simp [farApart, hfirst]
  | true =>
    simp only [farApart, hfirst, entries_node, entries_leaf, mem_append,
      mem_singleton, Bool.not_true, if_true]
    exact or_comm

theorem farApart_wf (config : Config) : (farApart config).schedule.WF := by
  refine ⟨prefix_rfl, prefix_rfl, .inl ?_⟩
  simp

variable (hlong : 2 ^ 62 < config.period)

include hlong

theorem toInt_interval_sub_one : (config.reprovideInterval - 1).toInt = config.period - 1 := by
  have hmax := config.period_lt
  have hperiod : config.reprovideInterval.toInt = config.period := rfl
  rw [toInt_sub_eq, hperiod, Int64.toInt_one]
  · rw [hperiod, Int64.toInt_one]
    omega
  · rw [hperiod, Int64.toInt_one]
    omega

theorem farApart_timetable : Timetable config (farApart config).schedule.entries := by
  have hlast := toInt_interval_sub_one hlong
  have hone : (1 : Duration).toInt = 1 := rfl
  have hbefore : XorBefore config.order.bits [config.firstBit] [!config.firstBit] :=
    ⟨[], prefix_rfl, prefix_rfl⟩
  refine ⟨fun e he => ?_, fun e he => ?_, fun e he e' he' hlt => ?_⟩
  · have hkeyLen : 1 ≤ keyLen := by decide
    rcases (mem_farApart config e).mp he with rfl | rfl <;> exact hkeyLen
  · rcases (mem_farApart config e).mp he with rfl | rfl <;> dsimp only <;> omega
  · rcases (mem_farApart config e).mp he with rfl | rfl <;>
      rcases (mem_farApart config e').mp he' with rfl | rfl
    · exact absurd (Overlap.refl _) hlt.not_overlap
    · dsimp only
      omega
    · exact absurd hbefore hlt.asymm
    · exact absurd (Overlap.refl _) hlt.not_overlap

theorem farApart_timeLeft :
    config.timeLeft 0 1 = 1 ∧
      config.timeLeft 0 (config.reprovideInterval - 1) = config.period - 1 := by
  have hlast := toInt_interval_sub_one hlong
  have hone : (1 : Duration).toInt = 1 := rfl
  have hzero : config.offset 0 = 0 := Int.zero_emod _
  unfold Config.timeLeft cycleDist
  omega

theorem farApart_offset_ne :
    ∀ e ∈ (farApart config).schedule.entries, config.offset 0 ≠ e.2.toInt := by
  have hlast := toInt_interval_sub_one hlong
  have hone : (1 : Duration).toInt = 1 := rfl
  have hzero : config.offset 0 = 0 := Int.zero_emod _
  intro e he
  rcases (mem_farApart config e).mp he with rfl | rfl <;> dsimp only <;> omega

theorem farApart_soonestCursor : SoonestCursor config 0 (farApart config) := by
  obtain ⟨hfirst, hlast⟩ := farApart_timeLeft hlong
  refine ⟨1, (mem_farApart config _).mpr (.inl rfl), fun e he => ?_, ?_⟩
  · rcases (mem_farApart config e).mp he with rfl | rfl
    · exact le_refl _
    · dsimp only
      omega
  · rfl

/-- When the first half is unscheduled, the timer for the other half is set to a duration that is
not the time left. -/
theorem farApart_unschedule :
    ∃ s', unscheduleSubsumedPrefixesNoLock (standingEnv config 0) [config.firstBit]
        (farApart config) = some ((), s') ∧
      s'.schedule.entries ≠ [] ∧ ¬ SoonestCursor config 0 s' := by
  have hwf := farApart_wf config
  have hpruned : ∀ e, e ∈ (pruneSubtrie (farApart config).schedule [config.firstBit]).entries ↔
      e = ([!config.firstBit], config.reprovideInterval - 1) := by
    intro e
    rw [mem_pruneSubtrie hwf, mem_farApart]
    constructor
    · rintro ⟨rfl | rfl, hbelow⟩
      · exact absurd prefix_rfl hbelow
      · rfl
    · rintro rfl
      refine ⟨.inr rfl, fun hbelow => ?_⟩
      simp at hbelow
  obtain ⟨s', hrun, hun⟩ := unscheduleSubsumedPrefixesNoLock_cases (standingEnv config 0)
    [config.firstBit] hwf
  refine ⟨s', hrun, ?_⟩
  cases hun with
  | elsewhere hbelow => exact absurd prefix_rfl hbelow
  | emptied hbelow hempty timer startedAt clock =>
    have hleft := (hpruned _).mpr rfl
    rw [hempty] at hleft
    cases hleft
  | moved hbelow e hnext he =>
    obtain rfl := (hpruned e).mp he
    refine ⟨ne_nil_of_mem he, ?_⟩
    rintro ⟨d, hd, -, htimer⟩
    obtain rfl : d = config.reprovideInterval - 1 := congrArg Prod.snd ((hpruned _).mp hd)
    have hlast := toInt_interval_sub_one hlong
    have hstart : ((0 : Duration) % config.reprovideInterval).toInt = 0 :=
      (toInt_mod_eq (le_refl 0)).trans (Int.zero_emod _)
    have hwrapped := toInt_timeBetween_wrapped config
      (a := 0 % config.reprovideInterval) (b := config.reprovideInterval - 1) (by omega) (by omega)
      (by omega)
    have htimer' : (0 : Int) + (timeBetween config (0 % config.reprovideInterval)
        (config.reprovideInterval - 1)).toInt = 0 + config.timeLeft 0 _ := htimer
    rw [(farApart_timeLeft hlong).2] at htimer'
    omega

end TooLong

/-! ## The main result -/

/-- Whenever the cursor is the soonest prefix and the timer is set for its time, then this is so
again after a prefix was scheduled and after it was unscheduled. -/
def KeepsSoonest [TrieLib] (config : Config) : Prop :=
  ∀ (env : Env) (t : Duration) (s : State) (pfx : Bitstr),
    env.toConfig = config → env.StandsAt t → s.schedule.WF →
    Timetable config s.schedule.entries →
    (∀ e ∈ s.schedule.entries, config.offset t ≠ e.2.toInt) →
    (s.schedule.entries ≠ [] → SoonestCursor config t s) →
    (∀ justReprovided,
      -- the new prefix fits into the timetable, unless it is not scheduled at all
      ((∀ k ∈ s.schedule.keys, ¬ k <+: pfx) →
        Timetable config ((pfx, s.slot env pfx justReprovided) :: s.schedule.entries) ∧
          config.offset t ≠ (s.slot env pfx justReprovided).toInt) →
      ∃ s', schedulePrefixNoLock env pfx justReprovided s = some ((), s') ∧
        (s'.schedule.entries ≠ [] → SoonestCursor config t s')) ∧
    ∃ s', unscheduleSubsumedPrefixesNoLock env pfx s = some ((), s') ∧
      (s'.schedule.entries ≠ [] → SoonestCursor config t s')

/-- **The cursor stays the soonest region** under exactly those configurations in which twice the
interval fits into a duration. -/
theorem keepsSoonest_iff [LeafTrieLib] (config : Config) :
    KeepsSoonest config ↔ config.reprovideInterval.toInt ≤ 2 ^ 62 := by
  constructor
  · intro hkeeps
    by_contra hlong
    rw [not_le] at hlong
    obtain ⟨-, s', hrun, hkept⟩ := hkeeps (standingEnv config 0) 0 (farApart config)
      [config.firstBit] rfl ⟨fun _ => rfl, le_refl 0⟩ (farApart_wf config)
      (farApart_timetable hlong) (farApart_offset_ne hlong) fun _ => farApart_soonestCursor hlong
    obtain ⟨s'', hrun', hne, hlost⟩ := farApart_unschedule hlong
    obtain rfl : s' = s'' := by
      rw [hrun] at hrun'
      exact congrArg Prod.snd (Option.some.inj hrun')
    exact hlost (hkept hne)
  · rintro hsmall env t s pfx rfl hclock hs htable hoff hcursor
    refine ⟨fun justReprovided hnew => ?_, ?_⟩
    · obtain ⟨s', hrun, hsch⟩ := schedulePrefixNoLock_cases env pfx justReprovided hs
      refine ⟨s', hrun, fun _ => hsch.soonestCursor hclock hsmall hs htable ?_ hcursor⟩
      intro hcov
      refine ⟨(hnew hcov).1, fun e he => ?_⟩
      rcases mem_cons.mp he with rfl | he
      · exact (hnew hcov).2
      · exact hoff e he
    · obtain ⟨s', hrun, hun⟩ := unscheduleSubsumedPrefixesNoLock_cases env pfx hs
      exact ⟨s', hrun, hun.soonestCursor hclock hsmall hs htable hcursor⟩

def longIntervalConfig : Config :=
  { defaultIntervalConfig with
    reprovideInterval := 9222246136947933184
    reprovideInterval_pos := by decide }

/-- Five nanoseconds before the time of `01`. -/
def beforeQuarter : Duration := 2305561534236983291

/-- From an empty schedule, the alarm is set for `01`; then `1` is scheduled, and takes its place
although its time comes only after a quarter of the cycle. -/
theorem soonest_lost_long_interval :
    ∃ s s', @schedulePrefixNoLock binaryTrie (standingEnv longIntervalConfig beforeQuarter)
        [false, true] false State.new = some ((), s) ∧
      SoonestCursor longIntervalConfig beforeQuarter s ∧
      @schedulePrefixNoLock binaryTrie (standingEnv longIntervalConfig beforeQuarter)
        [true] false s = some ((), s') ∧
      Timetable longIntervalConfig s'.schedule.entries ∧
      s'.scheduleCursor = [true] ∧ ¬ SoonestCursor longIntervalConfig beforeQuarter s' := by
  have hrun : (@schedulePrefixNoLock binaryTrie (standingEnv longIntervalConfig beforeQuarter)
        [false, true] false State.new).any (fun r =>
      decide (SoonestCursor longIntervalConfig beforeQuarter r.2) &&
      (@schedulePrefixNoLock binaryTrie (standingEnv longIntervalConfig beforeQuarter)
        [true] false r.2).any (fun r' =>
          decide (Timetable longIntervalConfig r'.2.schedule.entries ∧
            r'.2.scheduleCursor = [true] ∧
            ¬ SoonestCursor longIntervalConfig beforeQuarter r'.2))) = true := by
    decide +kernel
  obtain ⟨⟨⟨⟩, s⟩, hs, hchecks⟩ := (Option.any_eq_true _ _).mp hrun
  simp only [Bool.and_eq_true, decide_eq_true_eq] at hchecks
  obtain ⟨⟨⟨⟩, s'⟩, hs', hchecks'⟩ := (Option.any_eq_true _ _).mp hchecks.2
  rw [decide_eq_true_eq] at hchecks'
  exact ⟨s, s', hs, hchecks.1, hs', hchecks'⟩

end SweepingProvider

end KadDht
