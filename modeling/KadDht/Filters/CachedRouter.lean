import Mathlib.Algebra.Order.Ring.Int
import Mathlib.Data.List.Chain
import Mathlib.Data.List.Induction

/-!
# Filters — the cached router (`dht_filters.go`)

The private filters ask a router for routes. `getCachedRouter` keeps one for two minutes. It reads
the cache under a read lock, and replaces what is too old under a write lock.

* **`getCachedRouter_returnsFresh_iff`** — the calls that return a router which is not too old, and
  the new one if they replace it.
-/

namespace KadDht.Filters

variable {R : Type}

/-- Two minutes, in nanoseconds. -/
def routerCacheTime : Int := 120000000000

/-- A router, with the time of its creation. -/
structure Router (R : Type) where
  router : R
  created : Int

/-- `routerCache`. There may be no router, and at first it has expired. -/
structure RouterCache (R : Type) where
  router : Option (Router R)
  expires : Int

/-- A call: the two times it reads, and the router that can be created, if any. -/
structure RouterCall (R : Type) where
  now : Int
  locked : Int
  new : Option R

def getCachedRouter (c : RouterCache R) (call : RouterCall R) :
    Option (Router R) × RouterCache R :=
  let router := c.router
  if call.now < c.expires then (router, c)
  else if call.locked < c.expires then (router, c)
  else (router, ⟨call.new.map (⟨·, call.locked⟩), call.locked + routerCacheTime⟩)

/-- The cache after some calls. -/
def cacheAfter (calls : List (RouterCall R)) : RouterCache R :=
  calls.foldl (fun c call => (getCachedRouter c call).2) ⟨none, 0⟩

/-- A router that was created at most `routerCacheTime` ago. -/
def Fresh (now : Int) (router : Option (Router R)) : Prop :=
  ∃ r, router = some r ∧ now ≤ r.created + routerCacheTime

/-- What a call should return, given the cache that it finds. If there is a fresh router or one can
be created, it returns a fresh one. If it puts a new router into the cache, it returns that one. -/
def ReturnsFresh (c : RouterCache R) (call : RouterCall R) : Prop :=
  (call.new ≠ none ∨ Fresh call.now c.router → Fresh call.now (getCachedRouter c call).1) ∧
  ∀ r, call.new = some r → (getCachedRouter c call).2.router = some ⟨r, call.locked⟩ →
    (getCachedRouter c call).1 = some ⟨r, call.locked⟩

/-- The times that the calls read do not decrease. The first one is not before the zero time. -/
def NonDecreasing (calls : List (RouterCall R)) : Prop :=
  List.IsChain (· ≤ ·) (0 :: calls.flatMap fun call => [call.now, call.locked])

/-! ## The last replacement

What is in the cache is what the last call created that found it expired. When that was follows from
the times of the calls alone. -/

/-- When the router of a call expires. -/
def expiry : Option (RouterCall R) → Int
  | none => 0
  | some call => call.locked + routerCacheTime

/-- The last of some calls that finds the router expired. -/
def lastRefresh (calls : List (RouterCall R)) : Option (RouterCall R) :=
  calls.foldl (fun last call =>
    if call.now < expiry last ∨ call.locked < expiry last then last else some call) none

theorem cacheAfter_eq (calls : List (RouterCall R)) :
    (cacheAfter calls).expires = expiry (lastRefresh calls) ∧
      (cacheAfter calls).router =
        (lastRefresh calls).bind fun last => last.new.map (⟨·, last.locked⟩) := by
  induction calls using List.reverseRecOn with
  | nil => exact ⟨rfl, rfl⟩
  | append_singleton calls call ih =>
    have hcache : cacheAfter (calls ++ [call]) = (getCachedRouter (cacheAfter calls) call).2 :=
      List.foldl_concat ..
    have hlast : lastRefresh (calls ++ [call]) =
        if call.now < expiry (lastRefresh calls) ∨ call.locked < expiry (lastRefresh calls) then
          lastRefresh calls else some call := List.foldl_concat ..
    rw [hcache, hlast, getCachedRouter, ih.1]
    by_cases hnow : call.now < expiry (lastRefresh calls)
    · rw [if_pos hnow, if_pos (.inl hnow)]
      exact ih
    by_cases hlocked : call.locked < expiry (lastRefresh calls)
    · rw [if_neg hnow, if_pos hlocked, if_pos (.inr hlocked)]
      exact ih
    · rw [if_neg hnow, if_neg hlocked, if_neg (not_or.mpr ⟨hnow, hlocked⟩)]
      exact ⟨rfl, rfl⟩

theorem getCachedRouter_fst (c : RouterCache R) (call : RouterCall R) :
    (getCachedRouter c call).1 = c.router := by
  rw [getCachedRouter]
  split
  · rfl
  split <;> rfl

/-- The cached router, if any, was created by the last replacement. -/
theorem fresh_cacheAfter_iff {calls : List (RouterCall R)} {now : Int} :
    Fresh now (cacheAfter calls).router ↔
      ∃ last, lastRefresh calls = some last ∧ last.new ≠ none ∧
        now ≤ last.locked + routerCacheTime := by
  rw [Fresh, (cacheAfter_eq calls).2]
  constructor
  · rintro ⟨r, hr, hnow⟩
    obtain ⟨last, hlast, hr⟩ := Option.bind_eq_some_iff.mp hr
    obtain ⟨new, hnew, rfl⟩ := Option.map_eq_some_iff.mp hr
    exact ⟨last, hlast, by simp [hnew], hnow⟩
  · rintro ⟨last, hlast, hne, hnow⟩
    obtain ⟨new, hnew⟩ := Option.ne_none_iff_exists'.mp hne
    exact ⟨⟨new, last.locked⟩, by simp [hlast, hnew], hnow⟩

/-- **The cached router is fresh** exactly in the calls at which no router can be created, and in
those that come before the expiry of the last replacement, if that one has created a router. Every
call returns the router of the last replacement before it, so that a call which replaces it returns
the one that has expired. -/
theorem getCachedRouter_returnsFresh_iff {calls : List (RouterCall R)} {call : RouterCall R}
    (htimes : NonDecreasing (calls ++ [call])) :
    ReturnsFresh (cacheAfter calls) call ↔
      call.new = none ∨ ∃ last, lastRefresh calls = some last ∧ last.new ≠ none ∧
        call.now < last.locked + routerCacheTime := by
  have hle : call.now ≤ call.locked := by
    rw [NonDecreasing, List.flatMap_append, ← List.cons_append, List.isChain_append] at htimes
    exact (List.isChain_cons_cons.mp htimes.2.1).1
  obtain ⟨hexpires, hrouter⟩ := cacheAfter_eq calls
  rw [ReturnsFresh, getCachedRouter_fst, fresh_cacheAfter_iff]
  constructor
  · rintro ⟨hfresh, hnew⟩
    by_contra hnot
    obtain ⟨hsome, hexpired⟩ := not_or.mp hnot
    obtain ⟨r, hr⟩ := Option.ne_none_iff_exists'.mp hsome
    obtain ⟨last, hlast, hne, hnow⟩ := hfresh (.inl hsome)
    -- the router is as old as it may get, and is replaced
    have heq : last.locked + routerCacheTime ≤ call.now :=
      not_lt.mp fun hlt => hexpired ⟨last, hlast, hne, hlt⟩
    have hdue : (cacheAfter calls).expires ≤ call.now := by
      rw [hexpires, hlast]
      exact heq
    have hold := hnew r hr (by
      rw [getCachedRouter, if_neg (not_lt.mpr hdue), if_neg (not_lt.mpr (hdue.trans hle)), hr]
      rfl)
    rw [hrouter, hlast] at hold
    obtain ⟨_, -, hcreated⟩ := Option.map_eq_some_iff.mp hold
    have hsame : last.locked = call.locked := congrArg Router.created hcreated
    have hpos : 0 < routerCacheTime := by decide
    omega
  · rintro (hnone | ⟨last, hlast, hne, hnow⟩)
    · exact ⟨fun h => h.resolve_left (not_not.mpr hnone), fun r hr => by rw [hnone] at hr; cases hr⟩
    · refine ⟨fun _ => ⟨last, hlast, hne, hnow.le⟩, fun r _ hcache => ?_⟩
      have hbefore : call.now < (cacheAfter calls).expires := by
        rw [hexpires, hlast]
        exact hnow
      rwa [getCachedRouter, if_pos hbefore] at hcache

/-- The first call creates a router; a minute later it is returned. -/
theorem getCachedRouter_returnsFresh_second :
    ReturnsFresh (cacheAfter [⟨1, 2, some ()⟩]) ⟨60000000000, 60000000000, some ()⟩ :=
  (getCachedRouter_returnsFresh_iff (by unfold NonDecreasing; decide)).mpr
    (.inr ⟨⟨1, 2, some ()⟩, rfl, nofun, by decide⟩)

/-- The first call creates a router, and returns none. -/
theorem getCachedRouter_stale :
    getCachedRouter (cacheAfter []) ⟨1, 1, some ()⟩
      = (none, ⟨some ⟨(), 1⟩, 1 + routerCacheTime⟩) := rfl

end KadDht.Filters
