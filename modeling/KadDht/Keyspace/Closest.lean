import KadDht.Keyspace.Allocate
import KadDht.Lib.Nearest
import Mathlib.Data.List.Perm.Subperm

/-!
# Keyspace — the allocation is exact (`provider/internal/keyspace/trie.go`)

`AllocateToKClosest` never computes a distance. It compares the sizes of the branches of the
destinations: those on the side of an item come before those on the other side (`chosen`). How many
these are does not depend on where the destinations hang. They are the nearest ones if both tries
hang at the same path.

* **`givesChosen_atDepth`** — in which batches an item is.
* **`allocateToKClosest_exact`** — the destinations of an item are the nearest ones.
-/

namespace KadDht

open BitKey List Trie

variable {K V0 V1 : Type} [BitKey K]

/-! ## Distance -/

def xorDist (a b : K) : Nat := bitsValue (xorBits (bits a) (bits b))

/-- Keys on the side of an item are nearer than those on the other side. -/
theorem xorDist_lt (path : List Bool) {a b x : K} (hlen : ∀ a b : K, bitLen a = bitLen b)
    (ha : path ++ [bit x path.length] <+: bits a) (hb : path ++ [!bit x path.length] <+: bits b) :
    xorDist x a < xorDist x b :=
  (xorBefore_iff_value (hlen a b) (hlen a x).le).mp ⟨path, ha, hb⟩

/-- Different keys are not equally far away. -/
theorem xorDist_ne {a b x : K} (hlen : ∀ a b : K, bitLen a = bitLen b)
    (hne : ¬ Overlap (bits a) (bits b)) : xorDist x a ≠ xorDist x b := by
  rcases xorBefore_or (bits x) hne with hbefore | hbefore
  · exact ((xorBefore_iff_value (hlen a b) (hlen a x).le).mp hbefore).ne
  · exact ((xorBefore_iff_value (hlen b a) (hlen b x).le).mp hbefore).ne'

/-! ## Batches

A result maps a destination to its batches. Only what is appended to the batches of one destination
matters, not the order of the destinations. -/

section Batches

variable [DecidableEq V1] {result : Allocations V0 V1}

def batchesOf : Allocations V0 V1 → V1 → List (List V0)
  | [], _ => []
  | (d, batches) :: rest, dest => if d = dest then batches else batchesOf rest dest

theorem batchesOf_appendBatch (batch : List V0) (result : Allocations V0 V1) (dest v : V1) :
    batchesOf (appendBatch batch result dest) v
      = batchesOf result v ++ if v = dest then [batch] else [] := by
  induction result with
  | nil =>
    rw [appendBatch, batchesOf, batchesOf, batchesOf, nil_append]
    simp only [eq_comm]
  | cons e rest ih =>
    rw [appendBatch]
    by_cases hdest : e.1 = dest
    · rw [if_pos hdest, batchesOf, batchesOf, hdest]
      by_cases hv : dest = v
      · rw [if_pos hv, if_pos hv, if_pos hv.symm]
      · rw [if_neg hv, if_neg hv, if_neg (Ne.symm hv), append_nil]
    · rw [if_neg hdest, batchesOf, batchesOf]
      by_cases hv : e.1 = v
      · rw [if_pos hv, if_pos hv, if_neg fun heq => hdest (hv.trans heq), append_nil]
      · rw [if_neg hv, if_neg hv, ih]

theorem batchesOf_foldl_appendBatch (batch : List V0) {dests : List V1} (hnodup : dests.Nodup)
    (result : Allocations V0 V1) (v : V1) :
    batchesOf (dests.foldl (appendBatch batch) result) v
      = batchesOf result v ++ if v ∈ dests then [batch] else [] := by
  induction dests generalizing result with
  | nil => simp
  | cons dest dests ih =>
    obtain ⟨hdest, hrest⟩ := nodup_cons.mp hnodup
    rw [foldl_cons, ih hrest, batchesOf_appendBatch, append_assoc]
    congr 1
    by_cases hv : v = dest
    · subst hv
      simp [hdest]
    · simp [hv]

theorem batchesOf_eq_nil {v : V1} (h : v ∉ result.map Prod.fst) :
    batchesOf result v = [] := by
  induction result with
  | nil => rfl
  | cons e rest ih =>
    rw [map_cons, mem_cons, not_or] at h
    rw [batchesOf, if_neg (Ne.symm h.1), ih h.2]

/-- Each destination has one entry. -/
theorem batchesOf_of_mem (h : (result.map Prod.fst).Nodup)
    {e : V1 × List (List V0)} (he : e ∈ result) : batchesOf result e.1 = e.2 := by
  induction result with
  | nil => cases he
  | cons e' rest ih =>
    obtain ⟨hne, hrest⟩ := nodup_cons.mp h
    rw [batchesOf]
    rcases mem_cons.mp he with rfl | he
    · rw [if_pos rfl]
    · rw [if_neg fun heq : e'.1 = e.1 => hne (heq ▸ mem_map_of_mem he), ih hrest he]

theorem map_fst_appendBatch (batch : List V0) (result : Allocations V0 V1) (dest : V1) :
    (appendBatch batch result dest).map Prod.fst = if dest ∈ result.map Prod.fst then
      result.map Prod.fst else result.map Prod.fst ++ [dest] := by
  induction result with
  | nil => rfl
  | cons e rest ih =>
    by_cases hdest : e.1 = dest
    · simp [appendBatch, hdest]
    · simp only [appendBatch, if_neg hdest, map_cons, ih, mem_cons, Ne.symm hdest, false_or]
      split <;> rfl

theorem nodup_foldl_appendBatch (batch : List V0) (dests : List V1)
    (h : (result.map Prod.fst).Nodup) :
    ((dests.foldl (appendBatch batch) result).map Prod.fst).Nodup := by
  induction dests generalizing result with
  | nil => exact h
  | cons dest dests ih =>
    refine ih ?_
    rw [map_fst_appendBatch]
    split
    · exact h
    · next hnew => exact nodup_append_comm.mp (nodup_cons.mpr ⟨hnew, h⟩)

end Batches

/-! ## The destinations of an item -/

/-- The destinations of an item: those on its side, and if there are too few, some of the others. -/
def chosen : Trie K V1 → Nat → Nat → K → List V1
  | .emptyLeaf, _, _, _ => []
  | .leaf _ d, _, k, _ => if k = 0 then [] else [d]
  | .node d0 d1, depth, k, x =>
    if bit x depth then chosen d1 (depth + 1) k x ++ chosen d0 (depth + 1) (k - d1.size) x
    else chosen d0 (depth + 1) k x ++ chosen d1 (depth + 1) (k - d0.size) x

def values (dests : Trie K V1) : List V1 := dests.entries.map Prod.snd

theorem chosen_node (d0 d1 : Trie K V1) (depth k : Nat) (x : K) :
    chosen (.node d0 d1) depth k x = chosen (child d0 d1 (bit x depth)) (depth + 1) k x ++
      chosen (child d0 d1 (!bit x depth)) (depth + 1) (k - (child d0 d1 (bit x depth)).size) x := by
  rw [chosen]
  cases bit x depth <;> rfl

theorem length_chosen (dests : Trie K V1) (depth k : Nat) (x : K) :
    (chosen dests depth k x).length = min k dests.size := by
  induction dests generalizing depth k with
  | emptyLeaf => rw [chosen, length_nil, Trie.size, Nat.min_zero]
  | leaf key d =>
    rw [chosen, Trie.size]
    split
    · next hzero => rw [hzero, Nat.zero_min, length_nil]
    · rw [length_singleton]
      omega
  | node d0 d1 ih0 ih1 =>
    rw [chosen, Trie.size]
    split
    · rw [length_append, ih1, ih0]
      omega
    · rw [length_append, ih0, ih1]
      omega

theorem chosen_subperm (dests : Trie K V1) (depth k : Nat) (x : K) :
    (chosen dests depth k x).Subperm (values dests) := by
  induction dests generalizing depth k with
  | emptyLeaf => exact Subperm.refl _
  | leaf key d =>
    rw [chosen]
    split
    · exact nil_subperm
    · exact Subperm.refl _
  | node d0 d1 ih0 ih1 =>
    rw [chosen, values, entries_node, map_append]
    split
    · exact ((ih1 _ _).append (ih0 _ _)).trans perm_append_comm.subperm
    · exact (ih0 _ _).append (ih1 _ _)

theorem chosen_subset (dests : Trie K V1) (depth k : Nat) (x : K) :
    chosen dests depth k x ⊆ values dests :=
  (chosen_subperm dests depth k x).subset

theorem chosen_zero (dests : Trie K V1) (depth : Nat) (x : K) : chosen dests depth 0 x = [] :=
  length_eq_zero_iff.mp ((length_chosen dests depth 0 x).trans (Nat.zero_min _))

/-- If there are not more than `k`, all are chosen. -/
theorem chosen_perm {dests : Trie K V1} {k : Nat} (h : dests.size ≤ k) (depth : Nat) (x : K) :
    (chosen dests depth k x).Perm (values dests) := by
  refine (chosen_subperm dests depth k x).perm_of_length_le ?_
  rw [length_chosen, values, length_map, ← size_eq_length_entries, Nat.min_eq_right h]

/-! ## The items of one side -/

def sideItems (items : Trie K V0) (i : Bool) (depth : Nat) : List (K × V0) :=
  match matchingItemsBranch items i depth with
  | none => []
  | some matching => matching.entries

/-- A trie of items that may be met at some depth: it hangs at a path of that length, or it is a
single item. -/
def ItemsAt (items : Trie K V0) (depth : Nat) : Prop :=
  ∃ path, items.WFAt path ∧ (path.length = depth ∨ items.isNonEmptyLeaf = true)

theorem sideItems_perm (items : Trie K V0) (depth : Nat) :
    (sideItems items false depth ++ sideItems items true depth).Perm items.entries := by
  cases items with
  | emptyLeaf => exact List.Perm.refl _
  | leaf key d =>
    unfold sideItems matchingItemsBranch
    cases hbit : bit key depth <;> simp [hbit]
  | node b0 b1 =>
    have hside : ∀ i, sideItems (.node b0 b1) i depth = (child b0 b1 i).entries := by
      intro i
      unfold sideItems matchingItemsBranch
      by_cases hempty : (child b0 b1 i).isEmptyLeaf = true
      · simp only [if_pos hempty]
        rw [(isEmptyLeaf_iff _).mp hempty]
        rfl
      · simp only [if_neg hempty]
    rw [hside, hside]
    exact List.Perm.refl _

/-- The items of one side have the bit of that side, and may be met one level deeper. -/
theorem ItemsAt.matching {items m : Trie K V0} {i : Bool} {depth : Nat}
    (h : ItemsAt items depth) (hm : matchingItemsBranch items i depth = some m) :
    ItemsAt m (depth + 1) ∧ m.entries ≠ [] ∧ ∀ e ∈ m.entries, bit e.1 depth = i := by
  obtain ⟨path, hwf, hat⟩ := h
  cases items with
  | emptyLeaf => cases hm
  | leaf key d =>
    rw [matchingItemsBranch] at hm
    split at hm
    · next hbit =>
      cases hm
      refine ⟨⟨path, hwf, .inr rfl⟩, by simp, fun e he => ?_⟩
      rw [entries_leaf, mem_singleton] at he
      rw [he]
      exact hbit
    · cases hm
  | node b0 b1 =>
    have hlen : path.length = depth := hat.resolve_right (by simp [isNonEmptyLeaf])
    rw [matchingItemsBranch] at hm
    split at hm
    · cases hm
    · next hne =>
      cases hm
      have hchild := hwf.child i
      refine ⟨⟨path ++ [i], hchild, .inl (by simp [hlen])⟩, fun hnil => hne ?_, fun e he => ?_⟩
      · rw [isEmptyLeaf_iff]
        exact hchild.entries_eq_nil.mp hnil
      · rw [← hlen]
        exact bit_of_prefix (hchild.prefix_of_mem he)

theorem bit_of_mem_sideItems {items : Trie K V0} {i : Bool} {depth : Nat} (h : ItemsAt items depth)
    {e : K × V0} (he : e ∈ sideItems items i depth) : bit e.1 depth = i := by
  unfold sideItems at he
  split at he
  · cases he
  · next hm => exact (h.matching hm).2.2 e he

/-! ## What a call gives to a destination -/

section Given

variable [DecidableEq V1]

/-- From one result to the other, a destination was given some items, in batches that are not
empty. -/
def Given (result result' : Allocations V0 V1) (v : V1) (es : List (K × V0)) : Prop :=
  ∃ new, batchesOf result' v = batchesOf result v ++ new ∧
    new.flatten.Perm (es.map Prod.snd) ∧ ∀ batch ∈ new, batch ≠ []

variable {result result' result'' : Allocations V0 V1} {v : V1} {es es' : List (K × V0)}

omit [BitKey K] in
theorem Given.trans (h : Given result result' v es) (h' : Given result' result'' v es') :
    Given result result'' v (es ++ es') := by
  obtain ⟨new, heq, hperm, hne⟩ := h
  obtain ⟨new', heq', hperm', hne'⟩ := h'
  refine ⟨new ++ new', by rw [heq', heq, append_assoc], ?_, ?_⟩
  · rw [flatten_append, map_append]
    exact hperm.append hperm'
  · intro batch hbatch
    rcases mem_append.mp hbatch with hbatch | hbatch
    · exact hne batch hbatch
    · exact hne' batch hbatch

omit [BitKey K] in
theorem Given.perm (h : Given result result' v es) (hperm : es.Perm es') :
    Given result result' v es' := by
  obtain ⟨new, heq, hflat, hne⟩ := h
  exact ⟨new, heq, hflat.trans (hperm.map _), hne⟩

/-- Each item is given to its destinations, and to no others. Destinations keep one entry. -/
structure Gives (items : List (K × V0)) (dests : K → List V1) (result result' : Allocations V0 V1) :
    Prop where
  given : ∀ v, Given result result' v (items.filter fun e => decide (v ∈ dests e.1))
  nodup : (result.map Prod.fst).Nodup → (result'.map Prod.fst).Nodup

variable {items items' : List (K × V0)} {dests dests' : K → List V1}

omit [BitKey K] in
theorem gives_none (h : ∀ e ∈ items, dests e.1 = []) (result : Allocations V0 V1) :
    Gives items dests result result := by
  refine ⟨fun v => ?_, id⟩
  have hnil : items.filter (fun e => decide (v ∈ dests e.1)) = [] :=
    filter_eq_nil_iff.mpr fun e he => by simp [h e he]
  exact hnil ▸ ⟨[], by rw [append_nil], List.Perm.refl _, by simp⟩

omit [BitKey K] in
theorem Gives.congr (h : Gives items dests result result')
    (heq : ∀ e ∈ items, (dests e.1).Perm (dests' e.1)) : Gives items dests' result result' := by
  refine ⟨fun v => ?_, h.nodup⟩
  rw [← filter_congr fun e he => decide_eq_decide.mpr (heq e he).mem_iff]
  exact h.given v

omit [BitKey K] in
/-- Two calls for the same items, and destinations of different parts. -/
theorem Gives.append (h : Gives items dests result result')
    (h' : Gives items dests' result' result'') {l l' : List V1} (hdisj : (l ++ l').Nodup)
    (hl : ∀ x, dests x ⊆ l) (hl' : ∀ x, dests' x ⊆ l') :
    Gives items (fun x => dests x ++ dests' x) result result'' := by
  refine ⟨fun v => ((h.given v).trans (h'.given v)).perm ?_, h'.nodup ∘ h.nodup⟩
  have hnot : v ∉ l ∨ v ∉ l' := by
    by_contra hboth
    rw [not_or, not_not, not_not] at hboth
    exact (nodup_append.mp hdisj).2.2 v hboth.1 v hboth.2 rfl
  refine List.Perm.of_eq ?_
  rcases hnot with hnot | hnot
  · have hno : ∀ x, v ∉ dests x := fun x hv => hnot (hl x hv)
    simp [hno]
  · have hno : ∀ x, v ∉ dests' x := fun x hv => hnot (hl' x hv)
    simp [hno]

omit [BitKey K] in
/-- Two calls for different items. -/
theorem Gives.both (h : Gives items dests result result')
    (h' : Gives items' dests result' result'') {all : List (K × V0)}
    (hperm : (items ++ items').Perm all) : Gives all dests result result'' := by
  refine ⟨fun v => ((h.given v).trans (h'.given v)).perm ?_, h'.nodup ∘ h.nodup⟩
  rw [← filter_append]
  exact hperm.filter _

omit [BitKey K] in
theorem gives_all {m : Trie K V0} (hm : m.entries ≠ []) (dests : Trie K V1)
    (hdata : (values dests).Nodup) (result : Allocations V0 V1) :
    Gives m.entries (fun _ => values dests) result
      ((allValues dests zeroKey).foldl (appendBatch (allValues m zeroKey)) result) := by
  have hperm := allValues_perm dests zeroKey
  refine ⟨fun v => ?_, nodup_foldl_appendBatch _ _⟩
  have hbatches := batchesOf_foldl_appendBatch (allValues m zeroKey) (hperm.nodup_iff.mpr hdata)
    result v
  by_cases hv : v ∈ values dests
  · rw [if_pos (hperm.mem_iff.mpr hv)] at hbatches
    refine ⟨[allValues m zeroKey], hbatches, ?_, ?_⟩
    · rw [flatten_singleton, filter_eq_self.mpr fun _ _ => decide_eq_true hv]
      exact allValues_perm m zeroKey
    · intro batch hbatch
      rw [mem_singleton.mp hbatch]
      exact allValues_ne_nil hm
  · rw [if_neg (mt hperm.mem_iff.mp hv)] at hbatches
    refine ⟨[], hbatches, ?_, by simp⟩
    rw [filter_eq_nil_iff.mpr fun _ _ => by simpa using hv]
    exact List.Perm.refl _

/-- A call into the destinations gives each item to the chosen ones. -/
def GivesChosen (dests : Trie K V1) (depth : Nat)
    (into : Trie K V0 → Nat → Allocations V0 V1 → Allocations V0 V1) : Prop :=
  ∀ items k result, ItemsAt items depth → items.entries ≠ [] →
    Gives items.entries (chosen dests depth k) result (into items k result)

end Given

/-! ## One side of the loop -/

section Side

variable [DecidableEq V1] [Inhabited V0] {items : Trie K V0} {same other : Trie K V1} {i : Bool}
  {k depth : Nat} {intoSame intoOther : Trie K V0 → Nat → Allocations V0 V1 → Allocations V0 V1}

/-- One side of the loop, given what the calls for the two branches of the destinations do: the
items go into the branch of their side, and into the other one for what is missing. -/
theorem allocateSide_gives (hdata : (values same ++ values other).Nodup)
    (hitems : ItemsAt items depth) (hintoSame : GivesChosen same (depth + 1) intoSame)
    (hintoOther : GivesChosen other (depth + 1) intoOther) (result : Allocations V0 V1) :
    Gives (sideItems items i depth) (fun x => chosen same (depth + 1) k x ++
        chosen other (depth + 1) (k - same.size) x) result
      (allocateSide items same other i k depth intoSame intoOther result) := by
  unfold allocateSide sideItems
  cases hmatch : matchingItemsBranch items i depth with
  | none => exact gives_none (by simp) result
  | some m =>
    obtain ⟨hm, hne, -⟩ := hitems.matching hmatch
    have hvalues : (allValues m zeroKey).isEmpty = false := by
      rw [Bool.eq_false_iff, ne_eq, List.isEmpty_iff]
      exact allValues_ne_nil hne
    simp only [hvalues, Bool.false_eq_true, if_false]
    obtain ⟨hsameData, hotherData, -⟩ := nodup_append.mp hdata
    have happend {r1 r2 : Allocations V0 V1}
        (h : Gives m.entries (chosen same (depth + 1) k) result r1)
        (h' : Gives m.entries (chosen other (depth + 1) (k - same.size)) r1 r2) :=
      h.append h' hdata (chosen_subset same _ _) (chosen_subset other _ _)
    split
    · next hfew =>
      -- every destination on the same side gets the batch
      refine happend ((gives_all hne same hsameData result).congr fun e _ =>
        (chosen_perm hfew _ e.1).symm) ?_
      split
      · next hstop =>
        refine gives_none (fun e _ => length_eq_zero_iff.mp ?_) _
        rw [length_chosen]
        omega
      · split
        · next hrest =>
          exact (gives_all hne other hotherData _).congr fun e _ => (chosen_perm hrest _ e.1).symm
        · exact hintoOther m (k - same.size) _ hm hne
    · next hmany =>
      refine happend (hintoSame m k result hm hne) (gives_none (fun e _ => ?_) _)
      rw [Nat.sub_eq_zero_of_le (not_le.mp hmany).le, chosen_zero]

/-- **At every depth** a call gives each item to the chosen destinations. The induction is on the
destinations, as an item may be sent to the branch its key does not belong to. -/
theorem givesChosen_atDepth (dests : Trie K V1) (hdata : (values dests).Nodup) (depth : Nat) :
    GivesChosen dests depth fun (items : Trie K V0) k result =>
      allocateToKClosestAtDepth dests items k depth result := by
  induction dests generalizing depth with
  | emptyLeaf => exact fun items k result _ _ => gives_none (fun _ _ => rfl) result
  | leaf key dest =>
    intro items k result hitems hne
    have hvalues : (allValues items zeroKey).isEmpty = false := by
      rw [Bool.eq_false_iff, ne_eq, List.isEmpty_iff]
      exact allValues_ne_nil hne
    simp only [allocateToKClosestAtDepth, hvalues, Bool.false_and, Bool.false_eq_true, if_false]
    split
    · next hzero => exact gives_none (fun e _ => by rw [hzero, chosen_zero]) result
    · next hpos =>
      refine (gives_all hne (.leaf key dest) hdata result).congr fun e _ => ?_
      rw [chosen, if_neg hpos]
      exact List.Perm.refl _
  | node d0 d1 ih0 ih1 =>
    intro items k result hitems hne
    have hboth : (values d0 ++ values d1).Nodup := by
      rwa [values, entries_node, map_append] at hdata
    obtain ⟨hdata0, hdata1, -⟩ := nodup_append.mp hboth
    have hside : ∀ i, ∀ e ∈ sideItems items i depth,
        chosen (.node d0 d1) depth k e.1 = chosen (child d0 d1 i) (depth + 1) k e.1 ++
          chosen (child d0 d1 !i) (depth + 1) (k - (child d0 d1 i).size) e.1 := by
      intro i e he
      rw [chosen_node, bit_of_mem_sideItems hitems he]
    simp only [allocateToKClosestAtDepth]
    split
    · next hzero =>
      rw [hzero]
      exact gives_none (fun e _ => chosen_zero _ depth e.1) result
    · have hfirst := (allocateSide_gives hboth hitems (ih0 hdata0 _) (ih1 hdata1 _) result).congr
        fun e he => .of_eq (hside false e he).symm
      have hsecond := fun result => (allocateSide_gives (nodup_append_comm.mp hboth) hitems
        (ih1 hdata1 _) (ih0 hdata0 _) result).congr fun e he => .of_eq (hside true e he).symm
      exact hfirst.both (hsecond _) (sideItems_perm items depth)

/-- **What is allocated** to which destinations, whatever path they hang at. -/
theorem allocateToKClosest_gives {items : Trie K V0} (hitems : items.WF) {dests : Trie K V1}
    (hdata : (values dests).Nodup) (k : Nat) :
    Gives items.entries (chosen dests 0 k) [] (allocateToKClosest items dests k) := by
  unfold allocateToKClosest
  split
  · next hnothing =>
    rw [Bool.or_eq_true, Bool.or_eq_true, isEmptyLeaf_iff, isEmptyLeaf_iff, beq_iff_eq] at hnothing
    rcases hnothing with (rfl | rfl) | rfl
    · exact gives_none (fun _ _ => rfl) []
    · exact gives_none (by simp) []
    · exact gives_none (fun e _ => chosen_zero dests 0 e.1) []
  · next hsome =>
    have hne : items.entries ≠ [] := by
      intro hnil
      rw [hitems.entries_eq_nil.mp hnil] at hsome
      simp [isEmptyLeaf] at hsome
    exact givesChosen_atDepth dests hdata 0 items k [] ⟨[], hitems, .inl rfl⟩ hne

end Side

/-! ## Copies -/

section Copies

variable [DecidableEq V1] {items : List (K × V0)} {dests : K → List V1} {result : Allocations V0 V1}

omit [BitKey K] in
/-- An item is in the batches of its destinations. -/
theorem Gives.mem_batch_iff (h : Gives items dests [] result) {job : V1 × List (List V0)}
    (hjob : job ∈ result) (m : V0) :
    m ∈ job.2.flatten ↔ ∃ e ∈ items, job.1 ∈ dests e.1 ∧ e.2 = m := by
  obtain ⟨new, hnew, hflat, -⟩ := h.given job.1
  rw [← batchesOf_of_mem (h.nodup nodup_nil) hjob, hnew]
  simp [batchesOf, hflat.mem_iff, and_assoc]

omit [BitKey K] in
theorem Gives.exists_job (h : Gives items dests [] result) {e : K × V0} (he : e ∈ items) {v : V1}
    (hv : v ∈ dests e.1) : ∃ job ∈ result, job.1 = v := by
  by_contra hnone
  have hnil : batchesOf result v = [] := batchesOf_eq_nil fun hmem => hnone (by simpa using hmem)
  obtain ⟨new, hnew, hflat, -⟩ := h.given v
  rw [hnil] at hnew
  obtain rfl : new = [] := hnew.symm
  have hfilter := (map_eq_nil_iff.mp hflat.nil_eq.symm)
  exact filter_eq_nil_iff.mp hfilter e he (decide_eq_true hv)

omit [BitKey K] in
theorem Gives.allocated_iff (h : Gives items dests [] result) (m : V0) :
    Allocated result m ↔ ∃ e ∈ items, e.2 = m ∧ dests e.1 ≠ [] := by
  have hallocated : Allocated result m ↔ ∃ job ∈ result, m ∈ job.2.flatten := by
    simp [Allocated, mem_flatten]
  rw [hallocated]
  constructor
  · rintro ⟨job, hjob, hm⟩
    obtain ⟨e, he, hv, heq⟩ := (h.mem_batch_iff hjob m).mp hm
    exact ⟨e, he, heq, ne_nil_of_mem hv⟩
  · rintro ⟨e, he, heq, hne⟩
    obtain ⟨v, hv⟩ := exists_mem_of_ne_nil _ hne
    obtain ⟨job, hjob, rfl⟩ := h.exists_job he hv
    exact ⟨job, hjob, (h.mem_batch_iff hjob m).mpr ⟨e, he, hv, heq⟩⟩

/-- How many copies of an item there are. -/
def holders [BEq V0] (result : Allocations V0 V1) (m : V0) : Nat :=
  (result.flatMap fun job => job.2.flatten).count m

omit [BitKey K] in
/-- Each destination of an item has one copy. -/
theorem Gives.holders_eq [BEq V0] [LawfulBEq V0] (h : Gives items dests [] result)
    (hitems : (items.map Prod.snd).Nodup) {e : K × V0} (he : e ∈ items)
    (hnodup : (dests e.1).Nodup) : holders result e.2 = (dests e.1).length := by
  have hjob : ∀ job ∈ result, job.2.flatten.count e.2 = if job.1 ∈ dests e.1 then 1 else 0 := by
    intro job hjob
    obtain ⟨new, hnew, hflat, -⟩ := h.given job.1
    have hone : job.2.flatten.Nodup := by
      rw [← batchesOf_of_mem (h.nodup nodup_nil) hjob, hnew]
      exact hflat.nodup_iff.mpr (hitems.sublist (filter_sublist.map _))
    rw [hone.count]
    refine if_congr ((h.mem_batch_iff hjob e.2).trans ?_) rfl rfl
    constructor
    · rintro ⟨e', he', hv, heq⟩
      rwa [← inj_on_of_nodup_map hitems he' he heq]
    · exact fun hv => ⟨e, he, hv, rfl⟩
  have hcount : ∀ l : Allocations V0 V1, l ⊆ result →
      holders l e.2 = ((l.map Prod.fst).filter fun v => decide (v ∈ dests e.1)).length := by
    intro l hl
    induction l with
    | nil => rfl
    | cons job l ih =>
      obtain ⟨hmem, hl⟩ := cons_subset.mp hl
      have hrest := ih hl
      unfold holders at hrest ⊢
      rw [flatMap_cons, count_append, hjob job hmem, hrest, map_cons, filter_cons]
      split <;> simp_all [Nat.add_comm]
  rw [hcount result fun _ => id]
  refine ((perm_ext_iff_of_nodup ((h.nodup nodup_nil).filter _) hnodup).mpr fun v => ?_).length_eq
  rw [mem_filter, decide_eq_true_iff, and_iff_right_iff_imp]
  intro hv
  obtain ⟨job, hjob, rfl⟩ := h.exists_job he hv
  exact mem_map_of_mem hjob

end Copies

/-! ## The nearest destinations -/

/-- If the destinations hang at the path of the item, the chosen ones are the nearest ones. -/
theorem mem_chosen_iff (hlen : ∀ a b : K, bitLen a = bitLen b) (dests : Trie K V1)
    {path : List Bool} (hwf : dests.WFAt path) (hdata : (values dests).Nodup) (k : Nat) (x : K)
    {d : K × V1} (hd : d ∈ dests.entries) : d.2 ∈ chosen dests path.length k x ↔
      nearer (fun d' => xorDist x d'.1) dests.entries (xorDist x d.1) < k := by
  induction dests using childInduction generalizing path k with
  | emptyLeaf => cases hd
  | leaf key dest =>
    obtain rfl := mem_singleton.mp hd
    simp [chosen, nearer, Nat.pos_iff_ne_zero]
  | node d0 d1 ih =>
    rw [chosen_node, mem_append]
    set b := bit x path.length with hb
    have hperm : ((child d0 d1 b).entries ++ (child d0 d1 !b).entries).Perm
        (Trie.node d0 d1).entries := by
      cases b
      · exact .refl _
      · exact perm_append_comm
    have hvalues := (hperm.map Prod.snd).nodup_iff.mpr hdata
    rw [map_append] at hvalues
    obtain ⟨hsame, hother, hdisj⟩ := nodup_append.mp hvalues
    have hparts : ∀ a ∈ (child d0 d1 b).entries, ∀ a' ∈ (child d0 d1 !b).entries,
        xorDist x a.1 < xorDist x a'.1 := fun a ha a' ha' =>
      xorDist_lt path hlen ((hwf.child b).prefix_of_mem ha) ((hwf.child !b).prefix_of_mem ha')
    have hchosen := fun b k hnodup hd => ih b (hwf.child b) hnodup k hd
    simp only [length_append, length_singleton] at hchosen
    rw [← nearer_perm hperm]
    rcases mem_append.mp (hperm.mem_iff.mpr hd) with hd | hd
    · rw [nearer_append_left hparts hd, ← hchosen b k hsame hd, or_iff_left]
      exact fun hmem => hdisj d.2 (mem_map_of_mem hd) d.2 (chosen_subset _ _ _ x hmem) rfl
    · rw [nearer_append_right hparts hd, or_iff_right, hchosen (!b) _ hother hd,
        size_eq_length_entries]
      · omega
      · exact fun hmem => hdisj d.2 (chosen_subset _ _ _ x hmem) d.2 (mem_map_of_mem hd) rfl

/-! ## The main result -/

section Exact

variable [DecidableEq V1] [Inhabited V0]

/-- **`AllocateToKClosest` is exact.** Each destination is given, in batches that are not empty,
exactly the items it is one of the `k` nearest destinations to; and to each item there are `k`
nearest destinations, or as many as there are. -/
theorem allocateToKClosest_exact {items : Trie Bit256 V0} {dests : Trie Bit256 V1}
    (hitems : items.WF) (hdests : dests.WF) (hdata : (dests.entries.map Prod.snd).Nodup) (k : Nat) :
    (∀ d ∈ dests.entries,
      (batchesOf (allocateToKClosest items dests k) d.2).flatten.Perm
        ((items.entries.filter fun e =>
          d ∈ nearest (fun d' => xorDist e.1 d'.1) k dests.entries).map Prod.snd)) ∧
    (∀ v ∉ dests.entries.map Prod.snd, batchesOf (allocateToKClosest items dests k) v = []) ∧
    (∀ v, ∀ batch ∈ batchesOf (allocateToKClosest items dests k) v, batch ≠ []) ∧
    ∀ e ∈ items.entries,
      (nearest (fun d => xorDist e.1 d.1) k dests.entries).length = min k dests.size ∧
      ∀ d ∈ nearest (fun d => xorDist e.1 d.1) k dests.entries, ∀ d' ∈ dests.entries,
        d' ∉ nearest (fun d => xorDist e.1 d.1) k dests.entries →
          xorDist e.1 d.1 < xorDist e.1 d'.1 := by
  have hlen : ∀ a b : Bit256, bitLen a = bitLen b := fun a b =>
    a.length_bits.trans b.length_bits.symm
  have hdist : ∀ x : Bit256, (dests.entries.map fun d => xorDist x d.1).Nodup := fun x =>
    pairwise_map.mpr (hdests.pairwise.imp fun hov => xorDist_ne hlen hov)
  have hgives := allocateToKClosest_gives hitems hdata k
  refine ⟨fun d hd => ?_, fun v hv => ?_, fun v batch hbatch => ?_, fun e he => ⟨?_, ?_⟩⟩
  · obtain ⟨new, hnew, hflat, -⟩ := hgives.given d.2
    rw [hnew]
    refine hflat.trans (.of_eq (congrArg _ (filter_congr fun e _ => ?_)))
    rw [decide_eq_decide, mem_nearest]
    exact (mem_chosen_iff hlen dests hdests hdata k e.1 hd).trans (and_iff_right hd).symm
  · refine eq_nil_iff_forall_not_mem.mpr fun batch hbatch => ?_
    obtain ⟨new, hnew, hflat, hne⟩ := hgives.given v
    rw [filter_eq_nil_iff.mpr fun e _ => by
      simpa using fun hmem => hv (chosen_subset dests 0 k e.1 hmem)] at hflat
    rw [hnew] at hbatch
    exact hne batch hbatch (flatten_eq_nil_iff.mp hflat.eq_nil batch hbatch)
  · obtain ⟨new, hnew, -, hne⟩ := hgives.given v
    rw [hnew] at hbatch
    exact hne batch hbatch
  · rw [length_nearest (hdist e.1), size_eq_length_entries]
  · intro d hd d' hd' hnot
    have hlt := lt_of_mem_nearest hd hd' hnot
    exact hlt

end Exact

def onesKey : Bit256 := ⟨List.replicate 256 true, List.length_replicate⟩

def farDests : Trie Bit256 Nat := .node (.leaf zeroKey 0) (.leaf onesKey 1)

/-- An item at the end of the keyspace is given to the destination there, and to no other one. -/
theorem allocateToKClosest_exact_far :
    farDests.WF ∧
    (batchesOf (allocateToKClosest (.leaf onesKey 7) farDests 1) 1).flatten.Perm
      (([(onesKey, 7)].filter fun e =>
        (onesKey, 1) ∈ nearest (fun d' => xorDist e.1 d'.1) 1 farDests.entries).map Prod.snd) ∧
    (batchesOf (allocateToKClosest (.leaf onesKey 7) farDests 1) 0).flatten.Perm
      (([(onesKey, 7)].filter fun e =>
        (zeroKey, 0) ∈ nearest (fun d' => xorDist e.1 d'.1) 1 farDests.entries).map Prod.snd) := by
  have hdests : farDests.WF :=
    ⟨⟨replicate 255 false, rfl⟩, ⟨replicate 255 true, rfl⟩, .inl (by simp)⟩
  have hitems : (leaf onesKey 7).WF := nil_prefix
  have hexact := allocateToKClosest_exact hitems hdests (by decide) 1
  exact ⟨hdests, hexact.1 (onesKey, 1) (by simp [farDests]),
    hexact.1 (zeroKey, 0) (by simp [farDests])⟩

end KadDht
