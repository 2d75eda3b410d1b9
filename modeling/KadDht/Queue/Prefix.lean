import KadDht.Keyspace.Trie
import KadDht.Lib.PrefixList
import KadDht.Lib.Simulation

/-!
# Queue — the prefix queue (`provider/internal/queue/prefix.go`)

`prefixQueue` keeps non-overlapping prefixes in the order they were enqueued: a deque holds
the order, a trie finds the members below or above a given prefix.

The deque is a list. Its `Index`, `Insert` and `Remove` work with positions; `Remove` panics
outside of the deque, and so does `indexes[len(indexes)-1]` when no index was found. A panic is
an outer `none`.
-/

namespace KadDht

open Abstraction BitKey List TrieLib Trie

structure PrefixQueue where
  queue : List Bitstr
  prefixes : Trie Bitstr Unit
deriving DecidableEq

/-- `deque.Remove`, which panics when the position is outside of the deque. -/
def dequeRemove (queue : List Bitstr) (index : Nat) : Option (List Bitstr) :=
  if index < queue.length then some (queue.eraseIdx index) else none

namespace PrefixQueue

def new : PrefixQueue := ⟨[], .emptyLeaf⟩

def size (q : PrefixQueue) : Nat := q.queue.length

/-- `Clear`, which returns how many prefixes there were. -/
def clear (q : PrefixQueue) : PrefixQueue × Nat := (new, q.size)

section Operations

variable [TrieLib]

/-- Remove the given prefixes from the deque and the trie; the position of the first removed
one is returned. -/
def removePrefixesFromQueue (q : PrefixQueue) (prefixes : List Bitstr) :
    Option (PrefixQueue × Nat) :=
  let trie := prefixes.foldl TrieLib.remove q.prefixes
  let indexes := prefixes.filterMap fun p => q.queue.findIdx? (· == p)
  -- descending order, so that a removal does not move the positions still to be removed
  let indexes := (indexes.insertionSort (· ≤ ·)).reverse
  match indexes.foldlM dequeRemove q.queue, indexes.getLast? with
  | some queue, some first => some (⟨queue, trie⟩, first)
  | _, _ => none

/-- Remove all superstrings of a prefix. The second component is the position of the first
removal, or `-1`. -/
def removeSuperstrings (q : PrefixQueue) (pfx : Bitstr) : Option (PrefixQueue × Int) :=
  let (subtrie, ok) := findSubtrie q.prefixes pfx
  if !ok then some (q, -1)
  else (q.removePrefixesFromQueue (allKeys subtrie zeroKey)).map fun r => (r.1, (r.2 : Int))

def push (q : PrefixQueue) (pfx : Bitstr) : Option PrefixQueue :=
  match q.removeSuperstrings pfx with
  | none => none
  | some (q, firstRemovedIndex) =>
    if firstRemovedIndex ≥ 0 then
      some ⟨q.queue.insertIdx firstRemovedIndex.toNat pfx, TrieLib.add q.prefixes pfx ()⟩
    else if (findPrefixOfKey q.prefixes pfx).isNone then
      some ⟨q.queue ++ [pfx], TrieLib.add q.prefixes pfx ()⟩
    else some q

def pushAll (q : PrefixQueue) (prefixes : List Bitstr) : Option PrefixQueue :=
  prefixes.foldlM push q

/-- `Pop`: the first prefix, or `none` where the source returns `false`. -/
def pop (q : PrefixQueue) : PrefixQueue × Option Bitstr :=
  match q.queue with
  | [] => (q, none)
  | pfx :: queue => (⟨queue, TrieLib.remove q.prefixes pfx⟩, some pfx)

def remove (q : PrefixQueue) (pfx : Bitstr) : Option (PrefixQueue × Bool) :=
  (q.removeSuperstrings pfx).map fun r => (r.1, decide (r.2 ≥ 0))

end Operations

/-! ## The invariant -/

/-- Deque and trie hold the same prefixes, without duplicates. -/
structure Inv (q : PrefixQueue) : Prop where
  wf : q.prefixes.WF
  nodup : q.queue.Nodup
  mem_iff : ∀ p, p ∈ q.queue ↔ p ∈ q.prefixes.keys

theorem inv_new : new.Inv where
  wf := wf_emptyLeaf
  nodup := nodup_nil
  mem_iff := fun p => by simp [new]

/-- The trie part of the invariant makes the queued prefixes disjoint. -/
theorem Inv.prefixFree {q : PrefixQueue} (h : q.Inv) : PrefixFree {p | p ∈ q.queue} := by
  refine h.wf.prefixFree.mono fun p hp => ?_
  exact ⟨p, (h.mem_iff p).mp hp, rfl⟩

/-! ## Removing members by position -/

theorem findIdx?_eq_some_iff {l : List Bitstr} (h : l.Nodup) (p : Bitstr) (i : Nat) :
    l.findIdx? (· == p) = some i ↔ l[i]? = some p := by
  rw [findIdx?_eq_some_iff_getElem, getElem?_eq_some_iff]
  constructor
  · rintro ⟨hi, hat, -⟩
    exact ⟨hi, beq_iff_eq.mp hat⟩
  · rintro ⟨hi, hat⟩
    refine ⟨hi, beq_iff_eq.mpr hat, fun j hj hbeq => ?_⟩
    have heq : l[j] = l[i] := (beq_iff_eq.mp hbeq).trans hat.symm
    have hji := (h.getElem_inj_iff).mp heq
    omega

theorem foldlM_dequeRemove (l : List Bitstr) (is : List Nat) (h : ∀ i ∈ is, i < l.length)
    (hdesc : is.Pairwise (· > ·)) :
    is.foldlM dequeRemove l = some (is.foldl eraseIdx l) := by
  induction is generalizing l with
  | nil => rfl
  | cons i is ih =>
    have hi : i < l.length := h i mem_cons_self
    rw [pairwise_cons] at hdesc
    have hlen : (l.eraseIdx i).length = l.length - 1 := length_eraseIdx_of_lt hi
    rw [foldlM_cons, dequeRemove, if_pos hi]
    refine ih (l.eraseIdx i) (fun j hj => ?_) hdesc.2
    have hlt := hdesc.1 j hj
    omega

variable {q : PrefixQueue}

/-- The positions `removePrefixesFromQueue` collects for members of the deque. -/
theorem mem_indexes (h : q.Inv) (ps : List Bitstr) (i : Nat) :
    i ∈ ps.filterMap (fun p => q.queue.findIdx? (· == p)) ↔
      ∃ p ∈ ps, q.queue[i]? = some p := by
  simp only [mem_filterMap, findIdx?_eq_some_iff h.nodup]

theorem indexes_descending (h : q.Inv) {ps : List Bitstr} (hps : ps.Nodup) :
    ((ps.filterMap fun p => q.queue.findIdx? (· == p)).insertionSort (· ≤ ·)).reverse.Pairwise
      (· > ·) := by
  set indexes := ps.filterMap fun p => q.queue.findIdx? (· == p) with hindexes
  have hnodup : indexes.Nodup := by
    refine hps.filterMap fun p p' i hi hi' => ?_
    rw [Option.mem_def, findIdx?_eq_some_iff h.nodup] at hi hi'
    exact Option.some.inj (hi.symm.trans hi')
  have hsorted : (indexes.insertionSort (· ≤ ·)).Pairwise (· ≤ ·) :=
    pairwise_insertionSort (· ≤ ·) indexes
  have hnodup' : (indexes.insertionSort (· ≤ ·)).Nodup :=
    (perm_insertionSort (· ≤ ·) indexes).nodup_iff.mpr hnodup
  rw [pairwise_reverse]
  exact (hsorted.and hnodup').imp fun hand => lt_of_le_of_ne hand.1 hand.2

theorem mem_allKeys_findSubtrie (h : q.Inv) (pfx : Bitstr)
    (hok : (findSubtrie q.prefixes pfx).2 = true) (p : Bitstr) :
    p ∈ allKeys (findSubtrie q.prefixes pfx).1 zeroKey ↔ p ∈ q.queue ∧ pfx <+: p := by
  rw [(allKeys_perm _ _).mem_iff, h.mem_iff, Trie.keys, findSubtrie_entries h.wf pfx hok]
  simp [Trie.mem_keys]

theorem findSubtrie_prefixes_ok (h : q.Inv) (pfx : Bitstr) :
    (findSubtrie q.prefixes pfx).2 = true ↔ ∃ p ∈ q.queue, pfx <+: p := by
  rw [findSubtrie_ok h.wf]
  simp only [h.mem_iff, Trie.mem_keys]
  constructor
  · rintro ⟨e, he, hpre⟩
    exact ⟨e.1, ⟨e.2, he⟩, hpre⟩
  · rintro ⟨p, ⟨d, hd⟩, hpre⟩
    exact ⟨(p, d), hd, hpre⟩

section Specs

variable [TrieLib]

variable (h : q.Inv)
include h

/-- **`removePrefixesFromQueue`.** Given members, it removes them wherever they sit and returns
the position of the first of them; there is no panic. -/
theorem removePrefixesFromQueue_spec {ps : List Bitstr} (hps : ps.Nodup) (hne : ps ≠ [])
    (hmem : ∀ p ∈ ps, p ∈ q.queue) :
    ∃ q', q.removePrefixesFromQueue ps = some (q', q.queue.findIdx (ps.contains ·)) ∧
      q'.Inv ∧ q'.queue = q.queue.filter fun p => !ps.contains p := by
  set indexes := ps.filterMap fun p => q.queue.findIdx? (· == p) with hindexes
  have hdesc := indexes_descending h hps
  set desc := (indexes.insertionSort (· ≤ ·)).reverse with hdescDef
  have hiff : ∀ i, i ∈ desc ↔ ∃ p ∈ ps, q.queue[i]? = some p := by
    intro i
    rw [hdescDef, mem_reverse, mem_insertionSort, hindexes, mem_indexes h]
  have hrange : ∀ i ∈ desc, i < q.queue.length := by
    intro i hi
    obtain ⟨p, -, hat⟩ := (hiff i).mp hi
    exact (List.getElem?_eq_some_iff.mp hat).1
  have hat : ∀ i (hi : i < q.queue.length), ps.contains q.queue[i] = true ↔ i ∈ desc := by
    intro i hi
    rw [hiff, contains_iff_mem]
    constructor
    · exact fun hp => ⟨_, hp, getElem?_eq_getElem hi⟩
    · rintro ⟨p, hp, hsome⟩
      rw [getElem?_eq_getElem hi] at hsome
      exact Option.some.inj hsome ▸ hp
  -- the position returned is the smallest one, which is the first member of `ps` in the deque
  have hlast : desc.getLast? = some (q.queue.findIdx (ps.contains ·)) := by
    obtain ⟨p, hp⟩ := exists_mem_of_ne_nil ps hne
    have hlt : q.queue.findIdx (ps.contains ·) < q.queue.length :=
      findIdx_lt_length_of_exists ⟨p, hmem p hp, contains_iff_mem.mpr hp⟩
    have hfirst : q.queue.findIdx (ps.contains ·) ∈ desc := (hat _ hlt).mp findIdx_getElem
    have hdne : desc ≠ [] := ne_nil_of_mem hfirst
    rw [getLast?_eq_some_getLast hdne, Option.some.injEq]
    have hlow := (hdesc.imp le_of_lt).rel_getLast hfirst
    have hin := getLast_mem hdne
    refine le_antisymm hlow (not_lt.mp fun hbefore => ?_)
    have hnot := not_of_lt_findIdx hbefore
    rw [(hat _ (hrange _ hin)).mpr hin] at hnot
    exact Bool.noConfusion hnot
  have hqueue : desc.foldlM dequeRemove q.queue
      = some (q.queue.filter fun p => !ps.contains p) := by
    rw [foldlM_dequeRemove _ _ hrange hdesc,
      foldl_eraseIdx_eq_filter (ps.contains ·) _ _ hrange hdesc hat]
  have haccepts : ∀ p ∈ ps, q.prefixes.Accepts p := fun p hp =>
    h.wf.accepts_of_mem ((h.mem_iff p).mp (hmem p hp))
  refine ⟨⟨q.queue.filter fun p => !ps.contains p, ps.foldl TrieLib.remove q.prefixes⟩, ?_, ?_, rfl⟩
  · unfold removePrefixesFromQueue
    simp only [← hindexes, ← hdescDef, hqueue, hlast]
  · refine ⟨(TrieLib.foldl_remove_spec ps h.wf haccepts).1, h.nodup.filter _, fun p => ?_⟩
    rw [mem_keys_foldl_remove ps h.wf haccepts, mem_filter, h.mem_iff]
    simp

/-- **`removeSuperstrings`, something found.** -/
theorem removeSuperstrings_of_below (pfx : Bitstr) (hbelow : ∃ p ∈ q.queue, pfx <+: p) :
    ∃ q', q.removeSuperstrings pfx = some (q', (q.queue.findIdx (pfx.isPrefixOf ·) : Int)) ∧
      q'.Inv ∧ q'.queue = q.queue.filter fun p => !pfx.isPrefixOf p := by
  have hok := (findSubtrie_prefixes_ok h pfx).mpr hbelow
  set ps := allKeys (findSubtrie q.prefixes pfx).1 zeroKey with hps
  have hmem : ∀ p, p ∈ ps ↔ p ∈ q.queue ∧ pfx <+: p := mem_allKeys_findSubtrie h pfx hok
  have hnodup : ps.Nodup := by
    rw [hps, (allKeys_perm _ _).nodup_iff, Trie.keys, findSubtrie_entries h.wf pfx hok]
    exact h.wf.keys_nodup.sublist (filter_sublist.map Prod.fst)
  have hne : ps ≠ [] := by
    obtain ⟨p, hp, hpre⟩ := hbelow
    exact ne_nil_of_mem ((hmem p).mpr ⟨hp, hpre⟩)
  obtain ⟨q', heq, hinv, hqueue⟩ :=
    removePrefixesFromQueue_spec h hnodup hne fun p hp => ((hmem p).mp hp).1
  -- on members, being found below the prefix is starting with it
  have hsame : ∀ p ∈ q.queue, ps.contains p = pfx.isPrefixOf p := by
    intro p hp
    rw [Bool.eq_iff_iff, contains_iff_mem, hmem, isPrefixOf_iff_prefix]
    exact ⟨And.right, fun hpre => ⟨hp, hpre⟩⟩
  refine ⟨q', ?_, hinv, ?_⟩
  · unfold removeSuperstrings
    simp only [hok, Bool.not_true, Bool.false_eq_true, if_false, ← hps, heq, Option.map_some]
    rw [findIdx_congr_of_mem hsame]
  · rw [hqueue]
    exact filter_congr fun p hp => by rw [hsame p hp]

/-- **`removeSuperstrings`, nothing found.** -/
theorem removeSuperstrings_of_none (pfx : Bitstr) (hnone : ∀ p ∈ q.queue, ¬ pfx <+: p) :
    q.removeSuperstrings pfx = some (q, -1) := by
  have hok : (findSubtrie q.prefixes pfx).2 = false := by
    rw [Bool.eq_false_iff, ne_eq, findSubtrie_prefixes_ok h]
    rintro ⟨p, hp, hpre⟩
    exact hnone p hp hpre
  unfold removeSuperstrings
  simp [hok]

/-! ## What the operations do -/

/-- **`Remove`.** Exactly the superstrings of the prefix go, and the flag tells whether there
were any. -/
theorem remove_spec (pfx : Bitstr) :
    ∃ q', q.remove pfx = some (q', decide (∃ p ∈ q.queue, pfx <+: p)) ∧ q'.Inv ∧
      q'.queue = q.queue.filter fun p => !pfx.isPrefixOf p := by
  by_cases hbelow : ∃ p ∈ q.queue, pfx <+: p
  · obtain ⟨q', heq, hinv, hqueue⟩ := removeSuperstrings_of_below h pfx hbelow
    refine ⟨q', ?_, hinv, hqueue⟩
    unfold remove
    simp [heq, hbelow]
  · have hnone : ∀ p ∈ q.queue, ¬ pfx <+: p := fun p hp hpre => hbelow ⟨p, hp, hpre⟩
    refine ⟨q, ?_, h, ?_⟩
    · unfold remove
      simp [removeSuperstrings_of_none h pfx hnone, hbelow]
    · rw [eq_comm, filter_eq_self]
      intro p hp
      rw [not_isPrefixOf_iff]
      exact hnone p hp

/-- Adding a prefix that overlaps no member, wherever it is put in the deque. -/
theorem Inv.add {pfx : Bitstr} (hnew : ∀ p ∈ q.queue, ¬ Overlap p pfx) {queue : List Bitstr}
    (hperm : queue.Perm (pfx :: q.queue)) :
    (PrefixQueue.mk queue (add q.prefixes pfx ())).Inv := by
  have haccepts : q.prefixes.Accepts pfx := fun p hp hov =>
    absurd hov (hnew p ((h.mem_iff p).mpr hp))
  have hfresh : pfx ∉ q.queue := fun hp => hnew pfx hp (Overlap.refl pfx)
  refine ⟨add_wf () h.wf haccepts, ?_, fun p => ?_⟩
  · rw [hperm.nodup_iff, nodup_cons]
    exact ⟨hfresh, h.nodup⟩
  · show p ∈ queue ↔ p ∈ (TrieLib.add q.prefixes pfx ()).keys
    rw [hperm.mem_iff, mem_cons, mem_keys_add () p h.wf haccepts, h.mem_iff]
    exact or_comm

/-- **`Push`.** It does not panic and consolidates the deque around the prefix. -/
theorem push_spec (pfx : Bitstr) :
    ∃ q', q.push pfx = some q' ∧ q'.Inv ∧ q'.queue = pushPrefix q.queue pfx := by
  by_cases hbelow : ∃ p ∈ q.queue, pfx <+: p
  · obtain ⟨q', heq, hinv, hqueue⟩ := removeSuperstrings_of_below h pfx hbelow
    obtain ⟨hlt, hpush⟩ := pushPrefix_of_below hbelow
    have hnew : ∀ p ∈ q'.queue, ¬ Overlap p pfx := by
      intro p hp hov
      rw [hqueue, mem_filter, not_isPrefixOf_iff] at hp
      obtain ⟨p', hp', hpre'⟩ := hbelow
      rcases hov with hpre | hpre
      · -- a member above the prefix would be above the members below it
        exact hp.2 (h.prefixFree p hp.1 p' hp' (hpre.trans hpre') ▸ hpre')
      · exact hp.2 hpre
    refine ⟨⟨pushPrefix q.queue pfx, add q'.prefixes pfx ()⟩, ?_, ?_, rfl⟩
    · rw [hpush, ← hqueue]
      unfold push
      simp [heq]
    · exact hinv.add hnew (hqueue ▸ pushPrefix_perm_of_below ⟨_, hbelow.choose_spec⟩)
  · have hnone : ∀ p ∈ q.queue, ¬ pfx <+: p := fun p hp hpre => hbelow ⟨p, hp, hpre⟩
    have hsuper := removeSuperstrings_of_none h pfx hnone
    have hfind := findPrefixOfKey_eq_none h.wf pfx
    simp only [← h.mem_iff, bits_list] at hfind
    by_cases hcov : ∃ p ∈ q.queue, p <+: pfx
    · have hsome : (findPrefixOfKey q.prefixes pfx).isNone = false := by
        rw [Bool.eq_false_iff, ne_eq, Option.isNone_iff_eq_none, hfind]
        obtain ⟨p, hp, hpre⟩ := hcov
        exact fun hall => hall p hp hpre
      refine ⟨q, ?_, h, (pushPrefix_of_covered hnone hcov).symm⟩
      unfold push
      simp [hsuper, hsome]
    · have hfresh : ∀ p ∈ q.queue, ¬ p <+: pfx := fun p hp hpre => hcov ⟨p, hp, hpre⟩
      have hisNone : (findPrefixOfKey q.prefixes pfx).isNone = true := by
        rw [Option.isNone_iff_eq_none, hfind]
        exact hfresh
      refine ⟨⟨q.queue ++ [pfx], add q.prefixes pfx ()⟩, ?_, ?_,
        (pushPrefix_of_fresh hnone hfresh).symm⟩
      · unfold push
        simp [hsuper, hisNone]
      · refine h.add (fun p hp hov => ?_) perm_append_comm
        rcases hov with hpre | hpre
        · exact hfresh p hp hpre
        · exact hnone p hp hpre

/-- **`Push` of several prefixes** pushes them one after the other. -/
theorem pushAll_spec (ps : List Bitstr) :
    ∃ q', q.pushAll ps = some q' ∧ q'.Inv ∧ q'.queue = ps.foldl pushPrefix q.queue := by
  induction ps generalizing q with
  | nil => exact ⟨q, rfl, h, rfl⟩
  | cons p ps ih =>
    obtain ⟨q1, heq1, hinv1, hqueue1⟩ := push_spec h p
    obtain ⟨q2, heq2, hinv2, hqueue2⟩ := ih hinv1
    refine ⟨q2, ?_, hinv2, ?_⟩
    · rw [pushAll, foldlM_cons, heq1]
      exact heq2
    · rw [hqueue2, hqueue1, foldl_cons]

/-- **`Pop`.** The first prefix goes. -/
theorem pop_spec : q.pop.2 = q.queue.head? ∧ q.pop.1.Inv ∧ q.pop.1.queue = q.queue.tail := by
  unfold pop
  split
  · next hnil => exact ⟨by simp [hnil], h, by simp [hnil]⟩
  · next p queue hcons =>
    have hp : p ∈ q.prefixes.keys := by
      rw [← h.mem_iff, hcons]
      exact mem_cons_self
    have haccepts := h.wf.accepts_of_mem hp
    have hnodup := h.nodup
    rw [hcons, nodup_cons] at hnodup
    refine ⟨by simp [hcons], ⟨remove_wf h.wf haccepts, hnodup.2, fun p' => ?_⟩,
      by simp [hcons]⟩
    show p' ∈ queue ↔ p' ∈ (TrieLib.remove q.prefixes p).keys
    rw [mem_keys_remove p' h.wf haccepts, ← h.mem_iff, hcons, mem_cons]
    constructor
    · exact fun hp' => ⟨.inr hp', fun heq => hnodup.1 (heq ▸ hp')⟩
    · rintro ⟨heq | hp', hne⟩
      · exact absurd heq hne
      · exact hp'

end Specs

end PrefixQueue

/-! ## `ReprovideQueue` (`provider/internal/queue/reprovide.go`) -/

namespace ReprovideQueue

/-- A call. It holds the mutex, so that calls run one after the other. -/
inductive Call where
  | enqueue (prefixes : List Bitstr)
  | dequeue
  | remove (pfx : Bitstr)
  | isEmpty
  | size
  | clear

inductive Answer where
  | done
  | dequeued (pfx : Option Bitstr)
  | flag (b : Bool)
  | count (n : Nat)

def run [TrieLib] : Call → StateT PrefixQueue Option Answer
  | .enqueue prefixes => fun q => (q.pushAll prefixes).map fun q => (.done, q)
  | .dequeue => fun q => some (.dequeued q.pop.2, q.pop.1)
  | .remove pfx => fun q => (q.remove pfx).map fun r => (.flag r.2, r.1)
  | .isEmpty => fun q => some (.flag (q.size == 0), q)
  | .size => fun q => some (.count q.size, q)
  | .clear => fun q => some (.count q.clear.2, q.clear.1)

/-- The call on an ordered list of prefixes. -/
def onList : Call → StateM (List Bitstr) Answer
  | .enqueue prefixes => fun l => (.done, prefixes.foldl pushPrefix l)
  | .dequeue => fun l => (.dequeued l.head?, l.tail)
  | .remove pfx => fun l => (.flag (l.any pfx.isPrefixOf), l.filter fun p => !pfx.isPrefixOf p)
  | .isEmpty => fun l => (.flag (l.length == 0), l)
  | .size => fun l => (.count l.length, l)
  | .clear => fun l => (.count l.length, [])

def ordered : Abstraction PrefixQueue (List Bitstr) := ⟨PrefixQueue.Inv, PrefixQueue.queue⟩

variable [TrieLib]

theorem simulates_run (call : Call) : ordered.Simulates (run call) (onList call) := by
  intro q hq
  cases call with
  | enqueue prefixes =>
    obtain ⟨q', heq, h⟩ := PrefixQueue.pushAll_spec hq prefixes
    exact ⟨q', by simp [run, onList, heq], h⟩
  | dequeue =>
    obtain ⟨hpop, h⟩ := PrefixQueue.pop_spec hq
    exact ⟨q.pop.1, by simp [run, onList, hpop, ordered], h⟩
  | remove pfx =>
    obtain ⟨q', heq, h⟩ := PrefixQueue.remove_spec hq pfx
    have hflag : decide (∃ p ∈ q.queue, pfx <+: p) = q.queue.any pfx.isPrefixOf := by
      rw [Bool.eq_iff_iff]
      simp
    exact ⟨q', by simp [run, onList, heq, ordered, ← hflag], h⟩
  | isEmpty | size => exact ⟨q, rfl, hq, rfl⟩
  | clear => exact ⟨.new, rfl, PrefixQueue.inv_new, rfl⟩

theorem simulates_mapM (calls : List Call) :
    ordered.Simulates (calls.mapM run) (calls.mapM onList) := by
  induction calls with
  | nil => exact Simulates.pure []
  | cons call calls ih =>
    rw [mapM_cons, mapM_cons]
    intro q hq
    refine (simulates_run call q hq).bind fun q1 hq1 hlist1 => ?_
    have hrest := ih q1 hq1
    rw [hlist1] at hrest
    exact hrest.bindPure _

/-- **The reprovide queue is an ordered list of disjoint prefixes.** In every sequence of calls
there is no panic, every answer is the one of the list, and so is what the queue holds. -/
theorem calls_refine (calls : List Call) : ∃ q,
    calls.mapM run .new = some (((calls.mapM onList).run []).1, q) ∧
      q.queue = ((calls.mapM onList).run []).2 ∧ q.queue.Nodup ∧ PrefixFree {p | p ∈ q.queue} := by
  obtain ⟨q, hrun, hq, hqueue⟩ := simulates_mapM calls .new PrefixQueue.inv_new
  exact ⟨q, hrun, hqueue, hq.nodup, hq.prefixFree⟩

end ReprovideQueue

end KadDht
