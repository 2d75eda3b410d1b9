import KadDht.Keyspace.Key
import KadDht.Lib.Base32
import KadDht.Lib.Query
import KadDht.Lib.Trace
import KadDht.Lib.Varint

/-!
# Providers — the provider manager (`records/providers_manager.go`, `records/provider_set.go`)

One goroutine serves the requests and collects the garbage. A provider is a record in the datastore,
under a path made of its key and its peer identifier, with the time it was added. Sets of providers
that were read are kept in a cache, which may drop them at any time. When a timer fires, the cache
is emptied and a query over all records is started; its results come in between the requests, and
records that are too old are deleted. The timer is set again at the end of the round.

A time is in nanoseconds since 1970, as `UnixNano` has it.
-/

namespace KadDht.Providers

variable [Base32Lib]

/-! ## Records -/

def providersKeyPrefix : List Char := ['/', 'p', 'r', 'o', 'v', 'i', 'd', 'e', 'r', 's', '/']

def mkProvKey (k : Bytes) : List Char := providersKeyPrefix ++ Base32Lib.encode k

def mkProvKeyFor (k : Bytes) (p : PeerId) : List Char := mkProvKey k ++ '/' :: Base32Lib.encode p

def recordKey (k : Bytes) (p : PeerId) : DsKey := DsKey.new (mkProvKeyFor k p)

def timeValue (t : Int64) : Bytes := Varint.putVarint t.toInt

def readTimeValue (data : Bytes) : Option Int64 := (Varint.varint data).map Int64.ofInt

/-- `Time.Sub`: the difference, or the nearest duration when it is out of range. -/
def sub (t u : Int64) : Int64 :=
  Int64.ofInt (max (-2 ^ 63) (min (2 ^ 63 - 1) (t.toInt - u.toInt)))

def expired (validity now t : Int64) : Bool := decide (sub now t > validity)

/-! ## Sets of providers -/

/-- `providerSet`: the providers in order, and the times when they were added. -/
structure ProviderSet where
  providers : List PeerId
  set : PeerId → Option Int64
  nodup : providers.Nodup
  mem_iff : ∀ p, p ∈ providers ↔ (set p).isSome = true

namespace ProviderSet

def new : ProviderSet where
  providers := []
  set _ := none
  nodup := List.nodup_nil
  mem_iff := by simp

def setVal (ps : ProviderSet) (p : PeerId) (t : Int64) : ProviderSet where
  providers := if (ps.set p).isSome then ps.providers else ps.providers ++ [p]
  set := Function.update ps.set p (some t)
  nodup := by
    split
    · exact ps.nodup
    · next hfound =>
      rw [← List.concat_eq_append]
      exact ps.nodup.concat fun hp => hfound ((ps.mem_iff p).mp hp)
  mem_iff q := by
    by_cases hq : q = p
    · subst hq
      rw [Function.update_self]
      split
      · next hfound => simp [ps.mem_iff, hfound]
      · simp
    · rw [Function.update_of_ne hq]
      split
      · exact ps.mem_iff q
      · simp [hq, ps.mem_iff]

end ProviderSet

/-! ## The datastore -/

/-- What goes wrong on the datastore while a set is read: the query, a result of it, or the deletion
of a record. -/
structure Faults where
  query : Bool
  result : DsKey → Bool
  delete : DsKey → Bool

def Faults.none : Faults where
  query := false
  result _ := false
  delete _ := false

def lastComponent (path : List Char) : List Char := (path.reverse.takeWhile (· ≠ '/')).reverse

def readRecord (validity now : Int64) (e : DsKey × Bytes) : Option (PeerId × Int64) :=
  match readTimeValue e.2 with
  | none => none
  | some t =>
    if expired validity now t then none
    else (Base32Lib.decode (lastComponent e.1.path)).map fun pid => (pid, t)

/-- The loop of `loadProviderSet`. Records that cannot be read or are too old are deleted. -/
def loadLoop (validity now : Int64) (faults : Faults) :
    List (DsKey × Bytes) → Datastore → ProviderSet → Datastore × ProviderSet
  | [], d, out => (d, out)
  | e :: results, d, out =>
    if faults.result e.1 then loadLoop validity now faults results d out
    else
      match readRecord validity now e with
      | none =>
        loadLoop validity now faults results (if faults.delete e.1 then d else d.delete e.1) out
      | some (pid, t) => loadLoop validity now faults results d (out.setVal pid t)

def loadProviderSet (validity now : Int64) (order : MapOrder (DsKey × Bytes)) (faults : Faults)
    (d : Datastore) (k : Bytes) : Datastore × ProviderSet :=
  loadLoop validity now faults (order.visit (d.query (DsKey.new (mkProvKey k)))) d .new

/-! ## The manager -/

inductive Timer where
  | armed
  /-- The tick is still in the channel. -/
  | fired (t : Int64)
  | stopped
deriving DecidableEq

structure Round where
  /-- What `gcQueryRes` has left. -/
  results : List (DsKey × Bytes)
  gcSkip : List Char → Bool
  gcTime : Int64

structure Manager where
  cache : Bytes → Option ProviderSet
  dstore : Datastore
  gcTimer : Timer
  gcQuery : Option Round
  /-- What was sent to the requesters. -/
  responses : List (List PeerId)

inductive Label where
  | addProvider (k : Bytes) (p : PeerId) (now : Int64) (putFails : Bool)
  | getProviders (k : Bytes) (now : Int64) (order : MapOrder (DsKey × Bytes)) (faults : Faults)
  /-- The cache drops an entry. -/
  | evict (k : Bytes)
  | fire (now : Int64)
  /-- The tick is received. -/
  | gcStart (queryFails : Bool)
  /-- A result is received. -/
  | gcResult (i : Nat) (resultFails deleteFails : Bool)
  /-- The results are closed, after the last one or because the query has broken off. -/
  | gcEnd

def Label.time : Label → Option Int64
  | addProvider _ _ now _ => some now
  | getProviders _ now _ _ => some now
  | fire now => some now
  | _ => none

namespace Manager

def start (d : Datastore) : Manager where
  cache _ := none
  dstore := d
  gcTimer := .armed
  gcQuery := none
  responses := []

def updateCache (s : Manager) (k : Bytes) (p : PeerId) (now : Int64) : Bytes → Option ProviderSet :=
  match s.cache k with
  | none => s.cache
  | some pset => Function.update s.cache k (some (pset.setVal p now))

variable (caching : Bool) (validity : Int64)

/-- `getProviderSetForKey`; without caching, nothing is added to the cache. -/
def getProviderSetForKey (s : Manager) (k : Bytes) (now : Int64) (order : MapOrder (DsKey × Bytes))
    (faults : Faults) : Option ProviderSet × Manager :=
  match s.cache k with
  | some cached => (some cached, s)
  | none =>
    if faults.query then (none, s)
    else
      let (d, pset) := loadProviderSet validity now order faults s.dstore k
      (some pset,
        { s with
          dstore := d
          cache :=
            if caching ∧ pset.providers ≠ [] then Function.update s.cache k (some pset)
            else s.cache })

/-- A result of the query is deleted: it cannot be read, or it is too old. -/
def isGarbage (gcTime : Int64) (value : Bytes) : Bool :=
  match readTimeValue value with
  | none => true
  | some t => expired validity gcTime t

def step : Label → Manager → Option Manager
  | .addProvider k p now putFails, s =>
    let cache := s.updateCache k p now
    if putFails then some { s with cache := cache }
    else
      some { s with
        cache := cache
        dstore := s.dstore.put (recordKey k p) (timeValue now)
        gcQuery := s.gcQuery.map fun g =>
          { g with gcSkip := Function.update g.gcSkip (mkProvKeyFor k p) true } }
  | .getProviders k now order faults, s =>
    let (pset, s') := getProviderSetForKey caching validity s k now order faults
    some { s' with
      responses := s.responses ++ [match pset with
        | none => []
        | some pset => pset.providers] }
  | .evict k, s => some { s with cache := Function.update s.cache k none }
  | .fire now, s =>
    match s.gcTimer with
    | .armed => some { s with gcTimer := .fired now }
    | _ => none
  | .gcStart queryFails, s =>
    match s.gcTimer with
    | .fired t =>
      if queryFails then some { s with gcTimer := .stopped, cache := fun _ => none }
      else
        some { s with
          gcTimer := .stopped
          cache := fun _ => none
          gcQuery :=
            some ⟨s.dstore.query (DsKey.new providersKeyPrefix), fun _ => false, t⟩ }
    | _ => none
  | .gcResult i resultFails deleteFails, s =>
    match s.gcQuery with
    | none => none
    | some g =>
      match g.results[i]? with
      | none => none
      | some e =>
        let s' := { s with gcQuery := some { g with results := g.results.eraseIdx i } }
        if resultFails ∨ g.gcSkip e.1.path ∨ ¬ isGarbage validity g.gcTime e.2 ∨ deleteFails then
          some s'
        else some { s' with dstore := s.dstore.delete e.1 }
  | .gcEnd, s =>
    match s.gcQuery with
    | none => none
    | some _ => some { s with gcQuery := none, gcTimer := .armed }

/-! ## What a step does -/

variable (s : Manager)

inductive Move : Label → Manager → Prop where
  | add (k : Bytes) (p : PeerId) (now : Int64) :
    Move (.addProvider k p now false)
      { s with
        cache := s.updateCache k p now
        dstore := s.dstore.put (recordKey k p) (timeValue now)
        gcQuery := s.gcQuery.map fun g =>
          { g with gcSkip := Function.update g.gcSkip (mkProvKeyFor k p) true } }
  | addFails (k : Bytes) (p : PeerId) (now : Int64) :
    Move (.addProvider k p now true) { s with cache := s.updateCache k p now }
  | hit {k : Bytes} (now : Int64) (order : MapOrder (DsKey × Bytes)) (faults : Faults)
    {pset : ProviderSet} (hcache : s.cache k = some pset) :
    Move (.getProviders k now order faults) { s with responses := s.responses ++ [pset.providers] }
  | queryFails {k : Bytes} (now : Int64) (order : MapOrder (DsKey × Bytes))
    {faults : Faults} (hcache : s.cache k = none) (hquery : faults.query = true) :
    Move (.getProviders k now order faults) { s with responses := s.responses ++ [[]] }
  | miss {k : Bytes} (now : Int64) (order : MapOrder (DsKey × Bytes))
    {faults : Faults} {d : Datastore} {pset : ProviderSet} {cache : Bytes → Option ProviderSet}
    (hcache : s.cache k = none) (hquery : faults.query = false)
    (hload : loadProviderSet validity now order faults s.dstore k = (d, pset))
    (hkept : cache = s.cache ∨ caching = true ∧ cache = Function.update s.cache k (some pset)) :
    Move (.getProviders k now order faults)
      { s with dstore := d, cache := cache, responses := s.responses ++ [pset.providers] }
  | evict (k : Bytes) : Move (.evict k) { s with cache := Function.update s.cache k none }
  | fire (now : Int64) (htimer : s.gcTimer = .armed) :
    Move (.fire now) { s with gcTimer := .fired now }
  | gcQueryFails {t : Int64} (htimer : s.gcTimer = .fired t) :
    Move (.gcStart true) { s with gcTimer := .stopped, cache := fun _ => none }
  | gcStart {t : Int64} (htimer : s.gcTimer = .fired t) :
    Move (.gcStart false)
      { s with
        gcTimer := .stopped
        cache := fun _ => none
        gcQuery := some ⟨s.dstore.query (DsKey.new providersKeyPrefix), fun _ => false, t⟩ }
  | gcKeep {g : Round} {i : Nat} {e : DsKey × Bytes} (resultFails deleteFails : Bool)
    (hround : s.gcQuery = some g) (hresult : g.results[i]? = some e) :
    Move (.gcResult i resultFails deleteFails)
      { s with gcQuery := some { g with results := g.results.eraseIdx i } }
  | gcDelete {g : Round} {i : Nat} {e : DsKey × Bytes}
    (hround : s.gcQuery = some g) (hresult : g.results[i]? = some e)
    (hskip : g.gcSkip e.1.path = false) (hgarbage : isGarbage validity g.gcTime e.2 = true) :
    Move (.gcResult i false false)
      { s with
        gcQuery := some { g with results := g.results.eraseIdx i }
        dstore := s.dstore.delete e.1 }
  | gcEnd {g : Round} (hround : s.gcQuery = some g) :
    Move .gcEnd { s with gcQuery := none, gcTimer := .armed }

variable {caching validity s} {s' : Manager} {l : Label}

/-- A step is one of the moves; what is shown about steps goes by them. -/
theorem move_of_step (h : step caching validity l s = some s') : Move caching validity s l s' := by
  cases l with
  | addProvider k p now putFails =>
    cases putFails with
    | false => cases h; exact .add k p now
    | true => cases h; exact .addFails k p now
  | getProviders k now order faults =>
    rw [step, getProviderSetForKey] at h
    cases hcache : s.cache k with
    | some pset =>
      simp only [hcache] at h
      cases h
      exact .hit now order faults hcache
    | none =>
      simp only [hcache] at h
      cases hquery : faults.query with
      | true =>
        simp only [hquery] at h
        cases h
        exact .queryFails now order hcache hquery
      | false =>
        simp only [hquery] at h
        cases h
        refine .miss now order hcache hquery rfl ?_
        by_cases hkept : caching = true ∧
            (loadProviderSet validity now order faults s.dstore k).2.providers ≠ []
        · exact .inr ⟨hkept.1, if_pos hkept⟩
        · exact .inl (if_neg hkept)
  | evict k => cases h; exact .evict k
  | fire now =>
    rw [step] at h
    split at h
    · next htimer => cases h; exact .fire now htimer
    · cases h
  | gcStart queryFails =>
    rw [step] at h
    split at h
    · next htimer =>
      cases queryFails with
      | true => cases h; exact .gcQueryFails htimer
      | false => cases h; exact .gcStart htimer
    · cases h
  | gcResult i resultFails deleteFails =>
    rw [step] at h
    split at h
    · cases h
    · next g hround =>
      split at h
      · cases h
      · next e hresult =>
        split at h
        · cases h; exact .gcKeep resultFails deleteFails hround hresult
        · next hdelete =>
          cases h
          simp only [not_or, Bool.not_eq_true, Bool.not_eq_false] at hdelete
          obtain ⟨rfl, hskip, hgarbage, rfl⟩ := hdelete
          exact .gcDelete hround hresult hskip hgarbage
  | gcEnd =>
    rw [step] at h
    split at h
    · cases h
    · next g hround => cases h; exact .gcEnd hround

end Manager

end KadDht.Providers
