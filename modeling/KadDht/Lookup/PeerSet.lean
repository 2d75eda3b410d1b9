import KadDht.Keyspace.Closest
import KadDht.Lib.Datastore

/-!
# Lookup — the peers of a lookup (`qpeerset/qpeerset.go`)

A lookup keeps the peers it knows with their states. The peers are distinct, which is part of the
type; where the code panics, an operation has no result.
-/

namespace KadDht.Lookup

open List

/-! ## Model -/

inductive PeerState where
  | heard
  | waiting
  | queried
  | unreachable
deriving DecidableEq

structure QueryPeerState where
  id : PeerId
  distance : Nat
  state : PeerState
  referredBy : PeerId
deriving DecidableEq

/-- `QueryPeerset`. The peers are distinct. -/
structure QueryPeerset where
  key : Bit256
  all : List QueryPeerState
  nodup : (all.map QueryPeerState.id).Nodup
deriving DecidableEq

namespace QueryPeerset

/-- `NewQueryPeerset`. Keys are hashed as peer IDs are. -/
def new (key : Bytes) : QueryPeerset := ⟨peerIDToBit256 key, [], List.nodup_nil⟩

def find (qp : QueryPeerset) (p : PeerId) : Option QueryPeerState := qp.all.find? (·.id = p)

def distanceToKey (qp : QueryPeerset) (p : PeerId) : Nat := xorDist (peerIDToBit256 p) qp.key

theorem find_eq_none_iff {qp : QueryPeerset} {p : PeerId} :
    qp.find p = none ↔ p ∉ qp.all.map QueryPeerState.id := by
  unfold find
  rw [find?_eq_none, mem_map]
  constructor
  · rintro h ⟨e, he, hid⟩
    exact h e he (decide_eq_true hid)
  · exact fun h e he hid => h ⟨e, he, of_decide_eq_true hid⟩

/-- `TryAdd`, without its result. -/
def tryAdd (qp : QueryPeerset) (p referredBy : PeerId) : QueryPeerset :=
  if h : (qp.find p).isSome = true then qp
  else
    { qp with
      all := qp.all ++ [⟨p, qp.distanceToKey p, .heard, referredBy⟩]
      nodup := by
        have hnew := find_eq_none_iff.mp (Option.not_isSome_iff_eq_none.mp h)
        rw [List.map_append]
        exact qp.nodup.append (List.nodup_singleton p) (List.disjoint_singleton.mpr hnew) }

def getState (qp : QueryPeerset) (p : PeerId) : Option PeerState := (qp.find p).map (·.state)

def getReferrer (qp : QueryPeerset) (p : PeerId) : Option PeerId := (qp.find p).map (·.referredBy)

def withState (qp : QueryPeerset) (p : PeerId) (s : PeerState) : QueryPeerset where
  key := qp.key
  all := qp.all.map fun e => if e.id = p then { e with state := s } else e
  nodup := by
    rw [List.map_map]
    have hid : QueryPeerState.id ∘ (fun e => if e.id = p then { e with state := s } else e) =
        QueryPeerState.id := by
      funext e
      dsimp only [Function.comp]
      split <;> rfl
    rw [hid]
    exact qp.nodup

def setState (qp : QueryPeerset) (p : PeerId) (s : PeerState) : Option QueryPeerset :=
  (qp.find p).map fun _ => qp.withState p s

/-- `sort`. The order of peers at the same distance does not matter here. -/
def sorted (qp : QueryPeerset) : List QueryPeerState :=
  qp.all.insertionSort fun a b => a.distance ≤ b.distance

/-- The peers in the given states, sorted by their distance to the key. -/
def inStates (qp : QueryPeerset) (states : List PeerState) : List PeerId :=
  (qp.sorted.filter fun e => e.state ∈ states).map QueryPeerState.id

def getClosestNInStates (qp : QueryPeerset) (n : Int) (states : List PeerState) :
    Option (List PeerId) :=
  let result := qp.inStates states
  if n ≤ result.length then
    -- a slice with a negative bound
    if n < 0 then none else some (result.take n.toNat)
  else some result

/-- `GetClosestInStates`. The number is not negative. -/
def getClosestInStates (qp : QueryPeerset) (states : List PeerState) : List PeerId :=
  (qp.getClosestNInStates qp.all.length states).getD []

def numHeard (qp : QueryPeerset) : Nat := (qp.getClosestInStates [.heard]).length

def numWaiting (qp : QueryPeerset) : Nat := (qp.getClosestInStates [.waiting]).length

/-! ## The state of a peer -/

variable {qp qp' : QueryPeerset} {p q r : PeerId} {s : PeerState} {states : List PeerState}

theorem getState_eq_some_iff : qp.getState p = some s ↔ ∃ e ∈ qp.all, e.id = p ∧ e.state = s := by
  unfold getState find
  rw [Option.map_eq_some_iff]
  constructor
  · rintro ⟨e, he, rfl⟩
    exact ⟨e, mem_of_find?_eq_some he, by simpa using find?_some he, rfl⟩
  · rintro ⟨e, hmem, rfl, rfl⟩
    obtain ⟨e', he'⟩ : ∃ e', qp.all.find? (·.id = e.id) = some e' :=
      Option.isSome_iff_exists.mp (find?_isSome.mpr ⟨e, hmem, decide_eq_true rfl⟩)
    have hid : e'.id = e.id := by simpa using find?_some he'
    have hsame : e' = e := inj_on_of_nodup_map qp.nodup (mem_of_find?_eq_some he') hmem hid
    exact ⟨e', he', by rw [hsame]⟩

theorem getState_eq_none_iff : qp.getState p = none ↔ p ∉ qp.all.map QueryPeerState.id := by
  unfold getState
  rw [Option.map_eq_none_iff]
  exact find_eq_none_iff

@[simp]
theorem getState_new (key : Bytes) : (new key).getState p = none := rfl

theorem getState_tryAdd :
    (qp.tryAdd p r).getState q =
      if q = p then some ((qp.getState p).getD .heard) else qp.getState q := by
  unfold tryAdd
  split
  · next hfound =>
    split
    · next heq =>
      subst heq
      obtain ⟨e, he⟩ := Option.isSome_iff_exists.mp hfound
      rw [getState, he]
      rfl
    · rfl
  · next hfound =>
    have hnew := find_eq_none_iff.mp (Option.not_isSome_iff_eq_none.mp hfound)
    rw [getState_eq_none_iff.mpr hnew]
    apply Option.ext
    intro s
    rw [getState_eq_some_iff]
    split
    · next heq =>
      subst heq
      constructor
      · rintro ⟨e, he, hid, rfl⟩
        rcases mem_append.mp he with he | he
        · exact (hnew (mem_map.mpr ⟨e, he, hid⟩)).elim
        · rw [mem_singleton.mp he]
          rfl
      · rintro hs
        cases hs
        exact ⟨_, mem_append_right _ mem_cons_self, rfl, rfl⟩
    · next hne =>
      rw [getState_eq_some_iff]
      constructor
      · rintro ⟨e, he, rfl, rfl⟩
        rcases mem_append.mp he with he | he
        · exact ⟨e, he, rfl, rfl⟩
        · rw [mem_singleton.mp he] at hne
          exact (hne rfl).elim
      · rintro ⟨e, he, hid, hs⟩
        exact ⟨e, mem_append_left _ he, hid, hs⟩

theorem getState_withState (hp : qp.getState p ≠ none) :
    (qp.withState p s).getState q = if q = p then some s else qp.getState q := by
  apply Option.ext
  intro t
  have hmem : t ∈ (qp.withState p s).getState q ↔
      ∃ e ∈ qp.all, e.id = q ∧ (if e.id = p then s else e.state) = t := by
    rw [Option.mem_def, getState_eq_some_iff]
    constructor
    · rintro ⟨e', he', rfl, rfl⟩
      obtain ⟨e, he, rfl⟩ := mem_map.mp he'
      refine ⟨e, he, ?_, ?_⟩
      · split <;> rfl
      · split <;> rfl
    · rintro ⟨e, he, rfl, rfl⟩
      refine ⟨_, mem_map.mpr ⟨e, he, rfl⟩, ?_, ?_⟩
      · split <;> rfl
      · split <;> rfl
  rw [← Option.mem_def, hmem]
  by_cases heq : q = p
  · subst heq
    obtain ⟨u, hu⟩ := Option.ne_none_iff_exists'.mp hp
    obtain ⟨e, he, hid, -⟩ := getState_eq_some_iff.mp hu
    rw [if_pos rfl, Option.some.injEq]
    constructor
    · rintro ⟨e', -, hid', rfl⟩
      rw [if_pos hid']
    · rintro rfl
      exact ⟨e, he, hid, if_pos hid⟩
  · rw [if_neg heq, getState_eq_some_iff]
    constructor
    · rintro ⟨e, he, rfl, rfl⟩
      exact ⟨e, he, rfl, (if_neg heq).symm⟩
    · rintro ⟨e, he, rfl, rfl⟩
      exact ⟨e, he, rfl, if_neg heq⟩

theorem setState_eq_some_iff :
    qp.setState p s = some qp' ↔ qp.getState p ≠ none ∧ qp' = qp.withState p s := by
  unfold setState getState
  cases hfind : qp.find p with
  | none => simp
  | some e => simp [eq_comm]

/-! ## The peers in some states -/

theorem mem_inStates : p ∈ qp.inStates states ↔ ∃ s ∈ states, qp.getState p = some s := by
  unfold inStates sorted
  constructor
  · intro hp
    obtain ⟨e, he, rfl⟩ := mem_map.mp hp
    obtain ⟨hmem, hs⟩ := mem_filter.mp he
    exact ⟨e.state, of_decide_eq_true hs,
      getState_eq_some_iff.mpr ⟨e, (mem_insertionSort _).mp hmem, rfl, rfl⟩⟩
  · rintro ⟨s, hs, hstate⟩
    obtain ⟨e, he, rfl, rfl⟩ := getState_eq_some_iff.mp hstate
    exact mem_map.mpr ⟨e, mem_filter.mpr ⟨(mem_insertionSort _).mpr he, decide_eq_true hs⟩, rfl⟩

theorem nodup_inStates (qp : QueryPeerset) (states : List PeerState) :
    (qp.inStates states).Nodup := by
  have hsub : (qp.inStates states).Sublist (qp.sorted.map QueryPeerState.id) := filter_sublist.map _
  refine hsub.nodup ?_
  exact ((perm_insertionSort _ qp.all).map _).nodup_iff.mpr qp.nodup

theorem length_inStates_le (qp : QueryPeerset) (states : List PeerState) :
    (qp.inStates states).length ≤ qp.all.length := by
  unfold inStates sorted
  rw [length_map]
  exact length_filter_le _ _ |>.trans (length_insertionSort _ _).le

theorem closest_eq_none_iff {n : Int} : qp.getClosestNInStates n states = none ↔ n < 0 := by
  unfold getClosestNInStates
  dsimp only
  split
  · split
    · next hneg => exact iff_of_true rfl hneg
    · next hnonneg => exact iff_of_false nofun hnonneg
  · next hmore => exact iff_of_false nofun (by omega)

theorem closest_spec {n : Int} {ps : List PeerId}
    (h : qp.getClosestNInStates n states = some ps) :
    0 ≤ n ∧ ps = (qp.inStates states).take n.toNat := by
  unfold getClosestNInStates at h
  dsimp only at h
  split at h
  · split at h
    · cases h
    · next hnonneg => exact ⟨by omega, (Option.some.inj h).symm⟩
  · next hmore =>
    refine ⟨by omega, ?_⟩
    rw [← Option.some.inj h, take_of_length_le (by omega)]

theorem getClosestInStates_eq (qp : QueryPeerset) (states : List PeerState) :
    qp.getClosestInStates states = qp.inStates states := by
  have hlen := qp.length_inStates_le states
  unfold getClosestInStates
  cases h : qp.getClosestNInStates qp.all.length states with
  | none =>
    rw [closest_eq_none_iff] at h
    omega
  | some ps =>
    rw [(closest_spec h).2, Int.toNat_natCast, take_of_length_le hlen]
    rfl

theorem numWaiting_eq (qp : QueryPeerset) : qp.numWaiting = (qp.inStates [.waiting]).length := by
  rw [numWaiting, getClosestInStates_eq]

theorem numHeard_eq (qp : QueryPeerset) : qp.numHeard = (qp.inStates [.heard]).length := by
  rw [numHeard, getClosestInStates_eq]

theorem length_inStates_congr
    (h : ∀ p, qp'.getState p = some s ↔ qp.getState p = some s) :
    (qp'.inStates [s]).length = (qp.inStates [s]).length := by
  have hperm : (qp'.inStates [s]).Perm (qp.inStates [s]) := by
    rw [perm_ext_iff_of_nodup (nodup_inStates _ _) (nodup_inStates _ _)]
    intro p
    simpa only [mem_inStates, mem_singleton, exists_eq_left] using h p
  exact hperm.length_eq

theorem length_inStates_withState {t : PeerState} (hp : qp.getState p = some s) (hne : t ≠ s) :
    ((qp.withState p t).inStates [s]).length + 1 = (qp.inStates [s]).length := by
  have hstate (r : PeerId) := getState_withState (q := r) (s := t) (p := p)
    (by rw [hp]; exact Option.some_ne_none s)
  have hperm : (p :: (qp.withState p t).inStates [s]).Perm (qp.inStates [s]) := by
    have hnew : p ∉ (qp.withState p t).inStates [s] := by
      rw [mem_inStates]
      rintro ⟨u, hu, hget⟩
      rw [hstate, if_pos rfl, mem_singleton.mp hu] at hget
      exact hne (Option.some.inj hget)
    rw [perm_ext_iff_of_nodup (nodup_cons.mpr ⟨hnew, nodup_inStates _ _⟩) (nodup_inStates _ _)]
    intro r
    by_cases hr : r = p
    · subst hr
      simp [mem_inStates, hp]
    · simp [mem_inStates, hstate, hr]
  rw [← hperm.length_eq, length_cons]

end QueryPeerset

end KadDht.Lookup
