import KadDht.Keyspace.Trie

/-!
# Keyspace — allocating items to destinations (`provider/internal/keyspace/trie.go`)

`AllocateToKClosest` walks a trie of items and a trie of destinations together and hands every
item to the destinations closest to it, in batches that destinations share.

The result of the source is a map from destinations to batches; here it is a list with one entry
for each destination, in the order in which destinations were first given a batch.
-/

namespace KadDht

open BitKey List Trie

variable {K V0 V1 : Type} [BitKey K] [DecidableEq V1]

/-- `map[V1][][]V0`: the batches of each destination. -/
abbrev Allocations (V0 V1 : Type) := List (V1 × List (List V0))

def appendBatch (batch : List V0) : Allocations V0 V1 → V1 → Allocations V0 V1
  | [], dest => [(dest, [batch])]
  | (d, batches) :: rest, dest =>
    if d = dest then (d, batches ++ [batch]) :: rest
    else (d, batches) :: appendBatch batch rest dest

/-- The items on the side of bit `i`, or `none` where the loop of the source continues with the
next side. A single item is on the side its own bit tells. -/
def matchingItemsBranch (items : Trie K V0) (i : Bool) (depth : Nat) : Option (Trie K V0) :=
  match items with
  | .node b0 b1 =>
    if (Trie.child b0 b1 i).isEmptyLeaf then none else some (Trie.child b0 b1 i)
  | .leaf key d => if bit key depth = i then some (.leaf key d) else none
  | .emptyLeaf => none

/-- `items.Data()`, the zero value for anything but a leaf with a key. -/
def itemsData [Inhabited V0] : Trie K V0 → V0
  | .leaf _ d => d
  | _ => default

/-- The loop body of `allocateToKClosestAtDepth` for the side of bit `i`: `same` and `other` are
the two branches of the destinations, `intoSame` and `intoOther` the recursive calls. -/
def allocateSide [Inhabited V0] (items : Trie K V0) (same other : Trie K V1) (i : Bool)
    (k depth : Nat)
    (intoSame intoOther : Trie K V0 → Nat → Allocations V0 V1 → Allocations V0 V1)
    (result : Allocations V0 V1) : Allocations V0 V1 :=
  match matchingItemsBranch items i depth with
  | none => result
  | some matching =>
    if same.size ≤ k then
      let values := allValues matching zeroKey
      let batch := if values.isEmpty then [itemsData items] else values
      let result := (allValues same zeroKey).foldl (appendBatch batch) result
      if same.size = k ∨ other.size = 0 then result
      else
        let nMissingDests := k - same.size
        if other.size ≤ nMissingDests then (allValues other zeroKey).foldl (appendBatch batch) result
        else intoOther matching nMissingDests result
    else intoSame matching k result

def allocateToKClosestAtDepth [Inhabited V0] :
    Trie K V1 → Trie K V0 → Nat → Nat → Allocations V0 V1 → Allocations V0 V1
  | .emptyLeaf, _, _, _, result => result
  | .leaf _ dest, items, k, _, result =>
    if k = 0 then result
    else
      let values := allValues items zeroKey
      let batch := if values.isEmpty && items.isNonEmptyLeaf then [itemsData items] else values
      appendBatch batch result dest
  | .node d0 d1, items, k, depth, result =>
    if k = 0 then result
    else
      let into0 := fun items k result => allocateToKClosestAtDepth d0 items k (depth + 1) result
      let into1 := fun items k result => allocateToKClosestAtDepth d1 items k (depth + 1) result
      allocateSide items d1 d0 true k depth into1 into0
        (allocateSide items d0 d1 false k depth into0 into1 result)

def allocateToKClosest [Inhabited V0] (items : Trie K V0) (dests : Trie K V1) (k : Nat) :
    Allocations V0 V1 :=
  if dests.isEmptyLeaf || items.isEmptyLeaf || k == 0 then []
  else allocateToKClosestAtDepth dests items k 0 []

/-! ## What is allocated -/

def Allocated (result : Allocations V0 V1) (v : V0) : Prop :=
  ∃ e ∈ result, ∃ batch ∈ e.2, v ∈ batch

def Trie.HasValue (t : Trie K V0) (v : V0) : Prop := ∃ e ∈ t.entries, e.2 = v

omit [BitKey K] in
theorem mem_allValues (t : Trie K V0) (v : V0) : v ∈ allValues t zeroKey ↔ t.HasValue v := by
  rw [(allValues_perm t zeroKey).mem_iff, mem_map]
  exact Iff.rfl

omit [BitKey K] in
theorem allValues_ne_nil {t : Trie K V0} (h : t.entries ≠ []) : allValues t zeroKey ≠ [] := by
  obtain ⟨e, he⟩ := exists_mem_of_ne_nil _ h
  exact ne_nil_of_mem ((mem_allValues t e.2).mpr ⟨e, he, rfl⟩)

end KadDht
