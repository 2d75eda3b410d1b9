import KadDht.Keyspace.Key
import Mathlib.Data.List.Perm.Basic
import Mathlib.Data.List.Sort

/-!
# Keyspace — searching and pruning tries (`provider/internal/keyspace/trie.go`)

The functions of `trie.go` that walk a trie along a key, with what each of them computes on a
well-formed trie. When `findSubtrie` finds nothing, the trie it returns is *not* empty in general.
`pruneSubtrie` does not fold nodes with a single leaf, so it leaves tries behind that the library's
own operations would not build.

A Go runtime panic is an outer `none`: `nextNonEmptyLeaf` reads the bits of the key it is given
without a bound check of its own.
-/

namespace KadDht

open BitKey List Trie

variable {K0 K1 D : Type} [BitKey K1]

/-! ## Iterating in the order of a key -/

/-- `trieIterAtDepth`: the extracted values, at each node the branch of the order's bit first. -/
def trieIterAtDepth {T : Type} (order : K1) (extract : K0 → D → T) : Trie K0 D → Nat → List T
  | .emptyLeaf, _ => []
  | .leaf k d, _ => [extract k d]
  | .node b0 b1, depth =>
    match bit order depth with
    | false => trieIterAtDepth order extract b0 (depth + 1)
        ++ trieIterAtDepth order extract b1 (depth + 1)
    | true => trieIterAtDepth order extract b1 (depth + 1)
        ++ trieIterAtDepth order extract b0 (depth + 1)

def entriesIter (t : Trie K0 D) (order : K1) : List (K0 × D) :=
  trieIterAtDepth order (fun k d => (k, d)) t 0

def valuesIter (t : Trie K0 D) (order : K1) : List D :=
  trieIterAtDepth order (fun _ d => d) t 0

def keysIter (t : Trie K0 D) (order : K1) : List K0 :=
  trieIterAtDepth order (fun k _ => k) t 0

def allEntries (t : Trie K0 D) (order : K1) : List (K0 × D) :=
  if t.isEmptyLeaf then [] else entriesIter t order

def allValues (t : Trie K0 D) (order : K1) : List D :=
  if t.isEmptyLeaf then [] else valuesIter t order

def allKeys (t : Trie K0 D) (order : K1) : List K0 :=
  if t.isEmptyLeaf then [] else keysIter t order

theorem trieIterAtDepth_perm {T : Type} (order : K1) (extract : K0 → D → T) (t : Trie K0 D)
    (depth : Nat) :
    (trieIterAtDepth order extract t depth).Perm (t.entries.map fun e => extract e.1 e.2) := by
  induction t generalizing depth with
  | emptyLeaf => exact List.Perm.nil
  | leaf k d => exact List.Perm.refl _
  | node b0 b1 ih0 ih1 =>
    rw [trieIterAtDepth, entries_node, map_append]
    cases bit order depth with
    | false => exact (ih0 _).append (ih1 _)
    | true => exact ((ih1 _).append (ih0 _)).trans perm_append_comm

theorem valuesIter_perm (t : Trie K0 D) (order : K1) :
    (valuesIter t order).Perm (t.entries.map Prod.snd) :=
  trieIterAtDepth_perm order _ t 0

theorem trieIterAtDepth_node {T : Type} (order : K1) (extract : K0 → D → T) (b0 b1 : Trie K0 D)
    (depth : Nat) :
    trieIterAtDepth order extract (.node b0 b1) depth
      = trieIterAtDepth order extract (child b0 b1 (bit order depth)) (depth + 1)
        ++ trieIterAtDepth order extract (child b0 b1 !bit order depth) (depth + 1) := by
  rw [trieIterAtDepth]
  cases bit order depth <;> rfl

def entriesFrom (order : K1) (t : Trie K0 D) (depth : Nat) : List (K0 × D) :=
  trieIterAtDepth order (fun k d => (k, d)) t depth

theorem entriesFrom_node (order : K1) (b0 b1 : Trie K0 D) (depth : Nat) :
    entriesFrom order (.node b0 b1) depth
      = entriesFrom order (child b0 b1 (bit order depth)) (depth + 1)
        ++ entriesFrom order (child b0 b1 !bit order depth) (depth + 1) :=
  trieIterAtDepth_node order _ b0 b1 depth

theorem entriesFrom_perm (order : K1) (t : Trie K0 D) (depth : Nat) :
    (entriesFrom order t depth).Perm t.entries := by
  have hperm := trieIterAtDepth_perm order (fun k d => (k, d)) t depth
  rwa [map_id'] at hperm

theorem mem_entriesFrom {order : K1} {t : Trie K0 D} {e : K0 × D} {depth : Nat} :
    e ∈ entriesFrom order t depth ↔ e ∈ t.entries :=
  (entriesFrom_perm order t depth).mem_iff

theorem entriesIter_perm (t : Trie K0 D) (order : K1) : (entriesIter t order).Perm t.entries :=
  entriesFrom_perm order t 0

theorem ite_isEmptyLeaf {T : Type} (order : K1) (extract : K0 → D → T) (t : Trie K0 D) :
    (if t.isEmptyLeaf then [] else trieIterAtDepth order extract t 0) =
      trieIterAtDepth order extract t 0 := by
  cases t <;> rfl

theorem allKeys_perm (t : Trie K0 D) (order : K1) : (allKeys t order).Perm t.keys := by
  rw [allKeys, keysIter, ite_isEmptyLeaf]
  exact trieIterAtDepth_perm order _ t 0

theorem allEntries_eq (t : Trie K0 D) (order : K1) : allEntries t order = entriesIter t order :=
  ite_isEmptyLeaf order _ t

theorem allEntries_perm (t : Trie K0 D) (order : K1) : (allEntries t order).Perm t.entries := by
  rw [allEntries_eq]
  exact entriesIter_perm t order

theorem allValues_perm (t : Trie K0 D) (order : K1) :
    (allValues t order).Perm (t.entries.map Prod.snd) := by
  rw [allValues, valuesIter, ite_isEmptyLeaf]
  exact valuesIter_perm t order

/-! ## Walking along a key -/

variable [BitKey K0]

/-! ## `FindPrefixOfKey` -/

/-- The stored key that is a prefix of `k`. The source returns a key with a flag; the key is
only read when the flag is true. -/
def findPrefixOfKeyAtDepth (k : K1) : Trie K0 D → Nat → Option K0
  | .emptyLeaf, _ => none
  | .leaf key _, _ =>
    if commonPrefixLength (bits key) (bits k) = bitLen key then some key else none
  | .node b0 b1, depth =>
    if depth = bitLen k then none
    else match bit k depth with
      | false => findPrefixOfKeyAtDepth k b0 (depth + 1)
      | true => findPrefixOfKeyAtDepth k b1 (depth + 1)

def findPrefixOfKey (t : Trie K0 D) (k : K1) : Option K0 := findPrefixOfKeyAtDepth k t 0

theorem findPrefixOfKeyAtDepth_node (k : K1) (b0 b1 : Trie K0 D) (depth : Nat)
    (h : depth ≠ bitLen k) :
    findPrefixOfKeyAtDepth k (.node b0 b1) depth
      = findPrefixOfKeyAtDepth k (child b0 b1 (bit k depth)) (depth + 1) := by
  rw [findPrefixOfKeyAtDepth, if_neg h]
  cases bit k depth <;> rfl

/-- The search goes down along the key only. What it finds is a prefix of the key, and a key of the
trie that is one is met on this way. -/
theorem findPrefixOfKeyAtDepth_eq_some (k : K1) (t : Trie K0 D) (path : List Bool)
    (h : t.WFAt path) (hpath : path <+: bits k) (key : K0) :
    findPrefixOfKeyAtDepth k t path.length = some key ↔
      key ∈ t.keys ∧ bits key <+: bits k := by
  induction t using childInduction generalizing path with
  | emptyLeaf => simp [findPrefixOfKeyAtDepth]
  | leaf key' d =>
    rw [findPrefixOfKeyAtDepth, Option.ite_none_right_eq_some, Option.some.injEq]
    have hcpl : commonPrefixLength (bits key') (bits k) = bitLen key' ↔ bits key' <+: bits k :=
      commonPrefixLength_eq_length (bits key') (bits k)
    rw [hcpl, Trie.keys, entries_leaf, map_singleton, mem_singleton]
    constructor
    · rintro ⟨hpre, rfl⟩
      exact ⟨rfl, hpre⟩
    · rintro ⟨rfl, hpre⟩
      exact ⟨hpre, rfl⟩
  | node b0 b1 ih =>
    by_cases hend : path.length = bitLen k
    · -- the key ends at this node: everything below is longer than it
      simp only [findPrefixOfKeyAtDepth, hend, if_true, reduceCtorEq, false_iff]
      intro hand
      obtain ⟨d, hd⟩ := mem_keys.mp hand.1
      have hlong : path.length < bitLen key := h.length_lt hd
      exact hlong.not_ge (hend ▸ hand.2.length_le)
    · have hlt : path.length < bitLen k := lt_of_le_of_ne hpath.length_le hend
      have hstep := prefix_step hpath hlt
      set b := bit k path.length with hb
      have hlen : path.length + 1 = (path ++ [b]).length := by simp
      rw [findPrefixOfKeyAtDepth_node k b0 b1 _ hend, ← hb, hlen, ih b _ (h.child b) hstep]
      -- a key of the other branch is no prefix of `k`
      simp only [Trie.mem_keys, mem_entries_node b]
      constructor
      · intro hand
        obtain ⟨⟨d, hd⟩, hpre⟩ := hand
        exact ⟨⟨d, .inl hd⟩, hpre⟩
      · intro hand
        obtain ⟨⟨d, hd | hd⟩, hpre⟩ := hand
        · exact ⟨⟨d, hd⟩, hpre⟩
        · exact absurd (.inl hpre) (h.not_overlap_other hstep hd)

variable {t : Trie K0 D}

/-- **`FindPrefixOfKey`.** It finds exactly the stored key that is a prefix of `k`. -/
theorem findPrefixOfKey_eq_some (h : t.WF) (k : K1) (key : K0) :
    findPrefixOfKey t k = some key ↔ key ∈ t.keys ∧ bits key <+: bits k :=
  findPrefixOfKeyAtDepth_eq_some k t [] h nil_prefix key

theorem findPrefixOfKey_eq_none (h : t.WF) (k : K1) :
    findPrefixOfKey t k = none ↔ ∀ key ∈ t.keys, ¬ bits key <+: bits k := by
  rw [Option.eq_none_iff_forall_ne_some]
  constructor
  · intro hnone key hkey hpre
    exact hnone key ((findPrefixOfKey_eq_some h k key).mpr ⟨hkey, hpre⟩)
  · intro hall key hsome
    obtain ⟨hkey, hpre⟩ := (findPrefixOfKey_eq_some h k key).mp hsome
    exact hall key hkey hpre

/-! ## `FindSubtrie` -/

/-- The loop of `FindSubtrie` over the bits of `k` that are left. `t` is the whole trie, which
is what an empty branch on the way makes the function return. -/
def findSubtrieLoop (t : Trie K0 D) (k : K1) : Trie K0 D → List Bool → Trie K0 D × Bool
  | branch, [] => (branch, !branch.isEmptyLeaf)
  | .emptyLeaf, _ :: _ => (t, false)
  | .leaf key d, _ :: _ => (.leaf key d, commonPrefixLength (bits key) (bits k) == bitLen k)
  | .node b0 b1, b :: rest => findSubtrieLoop t k (Trie.child b0 b1 b) rest

def findSubtrie (t : Trie K0 D) (k : K1) : Trie K0 D × Bool :=
  if t.isEmptyLeaf then (t, false) else findSubtrieLoop t k t (bits k)

/-- What the loop of `FindSubtrie` computes at a branch hanging at `path`: the flag tells
whether an entry below the branch starts with `k`, and then the subtrie holds those entries. -/
theorem findSubtrieLoop_spec (t : Trie K0 D) (k : K1) (branch : Trie K0 D) (rest : List Bool)
    (path : List Bool) (h : branch.WFAt path) (hk : bits k = path ++ rest) :
    ((findSubtrieLoop t k branch rest).2 = true ↔ ∃ e ∈ branch.entries, bits k <+: bits e.1) ∧
      ((findSubtrieLoop t k branch rest).2 = true → (findSubtrieLoop t k branch rest).1.entries
        = branch.entries.filter fun e => decide (bits k <+: bits e.1)) := by
  fun_induction findSubtrieLoop t k branch rest generalizing path with
  | case1 branch =>
    rw [append_nil] at hk
    have hall : ∀ e ∈ branch.entries, bits k <+: bits e.1 := fun e he =>
      hk ▸ h.prefix_of_mem he
    refine ⟨?_, fun _ => ?_⟩
    · rw [Bool.not_eq_true', Bool.eq_false_iff, ne_eq, isEmptyLeaf_iff, ← h.entries_eq_nil]
      constructor
      · intro hne
        obtain ⟨e, he⟩ := exists_mem_of_ne_nil _ hne
        exact ⟨e, he, hall e he⟩
      · intro hex
        obtain ⟨e, he, -⟩ := hex
        exact ne_nil_of_mem he
    · rw [filter_eq_self.mpr]
      intro e he
      exact decide_eq_true (hall e he)
  | case2 b rest => simp
  | case3 key d b rest =>
    have hcpl := commonPrefixLength_eq_length (bits k) (bits key)
    rw [commonPrefixLength_comm] at hcpl
    have hflag : (commonPrefixLength (bits key) (bits k) == bitLen k) = true ↔
        bits k <+: bits key := by
      rw [beq_iff_eq]
      exact hcpl
    refine ⟨by simpa using hflag, fun hok => ?_⟩
    simp [hflag.mp hok]
  | case4 b0 b1 b rest ih =>
    have hk' : bits k = (path ++ [b]) ++ rest := by simpa using hk
    have hstep : path ++ [b] <+: bits k := ⟨rest, hk'.symm⟩
    obtain ⟨hflag, hsub⟩ := ih (path ++ [b]) (h.child b) hk'
    have hother : ∀ e ∈ (child b0 b1 !b).entries, ¬ bits k <+: bits e.1 := fun e he hpre =>
      h.not_overlap_other hstep he (.inr hpre)
    refine ⟨hflag.trans ?_, fun hok => (hsub hok).trans ?_⟩
    · simp only [mem_entries_node b]
      constructor
      · intro hex
        obtain ⟨e, he, hpre⟩ := hex
        exact ⟨e, .inl he, hpre⟩
      · intro hex
        obtain ⟨e, he | he, hpre⟩ := hex
        · exact ⟨e, he, hpre⟩
        · exact absurd hpre (hother e he)
    · have hnil : (child b0 b1 !b).entries.filter (fun e => decide (bits k <+: bits e.1)) = [] := by
        rw [filter_eq_nil_iff]
        intro e he
        simpa using hother e he
      cases b with
      | false | true => simpa [child] using hnil

/-- **`FindSubtrie`, the flag.** It is true exactly when a stored key starts with `k`. -/
theorem findSubtrie_ok (h : t.WF) (k : K1) :
    (findSubtrie t k).2 = true ↔ ∃ e ∈ t.entries, bits k <+: bits e.1 := by
  unfold findSubtrie
  split
  · next hempty => simp [(t.isEmptyLeaf_iff).mp hempty]
  · exact (findSubtrieLoop_spec t k t (bits k) [] h rfl).1

/-- **`FindSubtrie`, the subtrie.** When the flag is true it holds exactly the entries whose
keys start with `k`. -/
theorem findSubtrie_entries (h : t.WF) (k : K1) (hok : (findSubtrie t k).2 = true) :
    (findSubtrie t k).1.entries = t.entries.filter fun e => decide (bits k <+: bits e.1) := by
  unfold findSubtrie at hok ⊢
  split
  · next hempty => simp [hempty] at hok
  · next hempty =>
    rw [if_neg hempty] at hok
    exact (findSubtrieLoop_spec t k t (bits k) [] h rfl).2 hok

/-! ## `PruneSubtrie` -/

/-- The trie without the keys starting with `k`, and whether this node was emptied. -/
def pruneSubtrieAtDepth (k : K1) : Trie K0 D → Nat → Trie K0 D × Bool
  | .emptyLeaf, _ => (.emptyLeaf, false)
  | .leaf key d, _ => if isPrefix k key then (.emptyLeaf, true) else (.leaf key d, false)
  | .node b0 b1, depth =>
    if depth = bitLen k then (.emptyLeaf, true)
    else match bit k depth with
      | false =>
        let (t, pruned) := pruneSubtrieAtDepth k b0 (depth + 1)
        if pruned && b1.isEmptyLeaf then (.emptyLeaf, true) else (.node t b1, false)
      | true =>
        let (t, pruned) := pruneSubtrieAtDepth k b1 (depth + 1)
        if pruned && b0.isEmptyLeaf then (.emptyLeaf, true) else (.node b0 t, false)

def pruneSubtrie (t : Trie K0 D) (k : K1) : Trie K0 D := (pruneSubtrieAtDepth k t 0).1

theorem pruneSubtrieAtDepth_node (k : K1) (b0 b1 : Trie K0 D) (depth : Nat)
    (h : depth ≠ bitLen k) :
    pruneSubtrieAtDepth k (.node b0 b1) depth
      = let r := pruneSubtrieAtDepth k (child b0 b1 (bit k depth)) (depth + 1)
        if r.2 && (child b0 b1 !bit k depth).isEmptyLeaf then (.emptyLeaf, true)
        else (setChild b0 b1 (bit k depth) r.1, false) := by
  rw [pruneSubtrieAtDepth, if_neg h]
  cases bit k depth <;> rfl

/-- Pruning at a branch hanging at `path`: the branch keeps its place, loses exactly the keys
starting with `k`, and reports `true` exactly when it was emptied by this. -/
theorem pruneSubtrieAtDepth_spec (k : K1) (t : Trie K0 D) (path : List Bool) (h : t.WFAt path)
    (hpath : path <+: bits k) :
    (pruneSubtrieAtDepth k t path.length).1.WFAt path ∧
      (pruneSubtrieAtDepth k t path.length).1.entries
        = t.entries.filter (fun e => decide (¬ bits k <+: bits e.1)) ∧
      ((pruneSubtrieAtDepth k t path.length).2 = false →
        (pruneSubtrieAtDepth k t path.length).1 = .emptyLeaf → t = .emptyLeaf) ∧
      ((pruneSubtrieAtDepth k t path.length).2 = true →
        (pruneSubtrieAtDepth k t path.length).1 = .emptyLeaf) := by
  induction t using childInduction generalizing path with
  | emptyLeaf => simp [pruneSubtrieAtDepth, Trie.WFAt]
  | leaf key d =>
    by_cases hpre : bits k <+: bits key
    · have hflag := (isPrefix_iff k key).mpr hpre
      simp [pruneSubtrieAtDepth, hflag, hpre, Trie.WFAt]
    · have hflag : isPrefix k key = false := by
        rw [Bool.eq_false_iff, ne_eq, isPrefix_iff]
        exact hpre
      simp only [pruneSubtrieAtDepth, hflag]
      exact ⟨h, by simp [hpre], by simp, by simp⟩
  | node b0 b1 ih =>
    by_cases hend : path.length = bitLen k
    · -- the prefix ends at this node: everything below starts with it
      have heq : path = bits k := hpath.eq_of_length hend
      have hall : ∀ e ∈ (node b0 b1).entries, bits k <+: bits e.1 := fun e he =>
        heq ▸ h.prefix_of_mem he
      have hnil : (node b0 b1).entries.filter (fun e => decide (¬ bits k <+: bits e.1)) = [] := by
        rw [filter_eq_nil_iff]
        intro e he
        simpa using hall e he
      simp only [pruneSubtrieAtDepth, hend, if_true]
      exact ⟨trivial, hnil.symm, by simp, by simp⟩
    · have hlt : path.length < bitLen k := lt_of_le_of_ne hpath.length_le hend
      have hstep := prefix_step hpath hlt
      rw [pruneSubtrieAtDepth_node k b0 b1 _ hend]
      set b := bit k path.length
      have hbranch := ih b _ (h.child b) hstep
      rw [length_append, length_singleton] at hbranch
      set r := pruneSubtrieAtDepth k (child b0 b1 b) (path.length + 1)
      obtain ⟨hwf, hentries, hkept, hemptied⟩ := hbranch
      -- the other branch holds no key starting with `k`
      have hother : (child b0 b1 !b).entries.filter
          (fun e => decide (¬ bits k <+: bits e.1)) = (child b0 b1 !b).entries := by
        rw [filter_eq_self]
        intro e he
        exact decide_eq_true fun hpre => h.not_overlap_other hstep he (.inr hpre)
      have hset : (setChild b0 b1 b r.1).entries
          = (node b0 b1).entries.filter (fun e => decide (¬ bits k <+: bits e.1)) := by
        cases hbit : b with
        | false =>
          rw [hbit] at hentries hother
          rw [entries_node, filter_append]
          exact congrArg₂ _ hentries hother.symm
        | true =>
          rw [hbit] at hentries hother
          rw [entries_node, filter_append]
          exact congrArg₂ _ hother.symm hentries
      simp only []
      split
      · next hcond =>
        -- both branches are empty now, and the node folds to an empty leaf
        rw [Bool.and_eq_true, isEmptyLeaf_iff] at hcond
        have hnil : (setChild b0 b1 b r.1).entries = [] := by
          rw [eq_nil_iff_forall_not_mem]
          intro e he
          rw [mem_entries_setChild, hemptied hcond.1, hcond.2] at he
          simp at he
        rw [hset] at hnil
        exact ⟨trivial, hnil.symm, by simp, by simp⟩
      · next hcond =>
        refine ⟨h.setChild hwf ?_, hset, ?_, by simp⟩
        · by_cases hoth : child b0 b1 (!b) = .emptyLeaf
          · -- the node was not hollow, so this branch had an entry, and it was not emptied
            left
            have hflag : r.2 = false := by
              rw [Bool.and_eq_true, isEmptyLeaf_iff, not_and] at hcond
              rw [Bool.eq_false_iff]
              exact fun htrue => hcond htrue hoth
            intro hnil
            have hchild := hkept hflag ((hwf.entries_eq_nil).mp hnil)
            have hne := h.entries_ne_nil
            apply hne
            rw [eq_nil_iff_forall_not_mem]
            intro e he
            rw [mem_entries_node b, hchild, hoth] at he
            simp at he
          · exact .inr fun hnil => hoth (((h.child !b).entries_eq_nil).mp hnil)
        · intro _ hempty
          cases hbit : b <;> simp [hbit, setChild] at hempty

theorem pruneSubtrie_wf (h : t.WF) (k : K1) : (pruneSubtrie t k).WF :=
  (pruneSubtrieAtDepth_spec k t [] h nil_prefix).1

/-- **`PruneSubtrie`.** Exactly the entries whose keys start with `k` are removed; the others
stay, in their order. -/
theorem pruneSubtrie_entries (h : t.WF) (k : K1) :
    (pruneSubtrie t k).entries
      = t.entries.filter (fun e => decide (¬ bits k <+: bits e.1)) :=
  (pruneSubtrieAtDepth_spec k t [] h nil_prefix).2.1

theorem mem_pruneSubtrie (h : t.WF) (k : K1) (e : K0 × D) :
    e ∈ (pruneSubtrie t k).entries ↔ e ∈ t.entries ∧ ¬ bits k <+: bits e.1 := by
  simp [pruneSubtrie_entries h]

theorem mem_keys_pruneSubtrie (h : t.WF) (k : K1) (key : K0) :
    key ∈ (pruneSubtrie t k).keys ↔ key ∈ t.keys ∧ ¬ bits k <+: bits key := by
  simp only [Trie.mem_keys, mem_pruneSubtrie h, exists_and_right]

/-- **Search and pruning** on tries in which every internal node has a key below it, folded or
not. -/
theorem search_prune_exact (h : t.WF) (k : K1) :
    ((∃ key, findPrefixOfKey t k = some key) ↔ ∃ key ∈ t.keys, bits key <+: bits k) ∧
      (∀ key, findPrefixOfKey t k = some key → key ∈ t.keys ∧ bits key <+: bits k ∧
        ∀ key' ∈ t.keys, bits key' <+: bits k → key' = key) ∧
      ((findSubtrie t k).2 = true ↔ ∃ e ∈ t.entries, bits k <+: bits e.1) ∧
      ((findSubtrie t k).2 = true →
        (findSubtrie t k).1.entries = t.entries.filter fun e => bits k <+: bits e.1) ∧
      (pruneSubtrie t k).WF ∧
      (pruneSubtrie t k).entries = (t.entries.filter fun e => ¬ bits k <+: bits e.1) ∧
      ((pruneSubtrie t k).entries = [] → pruneSubtrie t k = .emptyLeaf) := by
  have hfind := findPrefixOfKey_eq_some h k
  have hwf := pruneSubtrie_wf h k
  refine ⟨exists_congr hfind, fun key hkey => ?_, findSubtrie_ok h k, findSubtrie_entries h k, hwf,
    pruneSubtrie_entries h k, hwf.entries_eq_nil.mp⟩
  obtain ⟨hmem, hpre⟩ := (hfind key).mp hkey
  refine ⟨hmem, hpre, fun key' hmem' hpre' => h.eq_of_overlap hmem' hmem ?_⟩
  exact overlap_of_prefixes hpre' hpre

/-- A trie with a node that is not folded. -/
def unfoldedTrie : Trie Bitstr Nat := .node (.node (.leaf [false, false] 1) .emptyLeaf) .emptyLeaf

theorem search_prune_unfoldedTrie :
    unfoldedTrie.WF ∧ pruneSubtrie unfoldedTrie [false] = .emptyLeaf := by
  have hwf : unfoldedTrie.WF :=
    ⟨⟨prefix_rfl, trivial, .inl (cons_ne_nil _ _)⟩, trivial, .inl (cons_ne_nil _ _)⟩
  obtain ⟨-, -, -, -, -, -, hempty⟩ := search_prune_exact hwf [false]
  exact ⟨hwf, hempty rfl⟩

theorem findPrefixOfKey_isNone {t : Trie Bitstr D} (h : t.WF) (pfx : Bitstr) :
    (findPrefixOfKey t pfx).isNone = true ↔ ¬ Covers {k | k ∈ t.keys} pfx := by
  rw [Option.isNone_iff_eq_none, findPrefixOfKey_eq_none h, not_covers]
  rfl

theorem not_overlap_pruneSubtrie {t : Trie Bitstr D} (h : t.WF) {pfx : Bitstr}
    (hcov : ∀ k ∈ t.keys, ¬ k <+: pfx) : ∀ k ∈ (pruneSubtrie t pfx).keys, ¬ Overlap k pfx := by
  intro k hk hov
  obtain ⟨hmem, hbelow⟩ := (mem_keys_pruneSubtrie h pfx k).mp hk
  rcases hov with hov | hov
  · exact hcov k hmem hov
  · exact hbelow hov

/-- **Pruning before adding.** A prefix that no key covers is added to what is left of the trie
once the keys below the prefix are gone: the trie absorbs it. -/
theorem add_pruneSubtrie [TrieLib] {t : Trie Bitstr D} (h : t.WF) {pfx : Bitstr}
    (hcov : ¬ Covers {k | k ∈ t.keys} pfx) (d : D) :
    (TrieLib.add (pruneSubtrie t pfx) pfx d).WF ∧
      {k | k ∈ (TrieLib.add (pruneSubtrie t pfx) pfx d).keys} = absorb {k | k ∈ t.keys} pfx := by
  have hwf := pruneSubtrie_wf h pfx
  have haccepts : (pruneSubtrie t pfx).Accepts pfx := fun p hp hov =>
    absurd hov (not_overlap_pruneSubtrie h (not_covers.mp hcov) p hp)
  refine ⟨TrieLib.add_wf d hwf haccepts, ?_⟩
  ext p
  rw [Set.mem_ofPred_eq, TrieLib.mem_keys_add d p hwf haccepts, mem_keys_pruneSubtrie h,
    mem_absorb_of_not_covers hcov, or_comm]
  exact Iff.rfl

/-! ## `NextNonEmptyLeaf` -/

/-- The entry following `k`. With `hitBottom` the walk looks for the first entry of a branch;
without it, it still descends along `k`. The outer `none` is the panic of reading a bit of `k`
past its end; the inner `none` is the nil entry. -/
def nextNonEmptyLeafAtDepth (k : K0) (order : K1) :
    Trie K0 D → Nat → Bool → Option (Option (K0 × D))
  | .leaf key d, _, true => some (some (key, d))
  | .emptyLeaf, _, true => some none
  | .node b0 b1, depth, true =>
    let down (b : Bool) : Option (Option (K0 × D)) := match b with
      | false => nextNonEmptyLeafAtDepth k order b0 (depth + 1) true
      | true => nextNonEmptyLeafAtDepth k order b1 (depth + 1) true
    match down (bit order depth) with
    | none => none
    | some (some next) => some (some next)
    | some none => down (!bit order depth)
  | .emptyLeaf, _, false => some none
  | .leaf key d, depth, false =>
    if depth = 0 then some (some (key, d))
    else
      let cpl := commonPrefixLength (bits k) (bits key)
      -- `k` is closer to `order` than the stored key, so the stored key comes after `k`
      if cpl < bitLen k ∧ cpl < bitLen order ∧ bit order cpl = bit k cpl then some (some (key, d))
      else some none
  | .node b0 b1, depth, false =>
    let down (b hitBottom : Bool) : Option (Option (K0 × D)) := match b with
      | false => nextNonEmptyLeafAtDepth k order b0 (depth + 1) hitBottom
      | true => nextNonEmptyLeafAtDepth k order b1 (depth + 1) hitBottom
    match (bits k)[depth]? with
    | none => none
    | some kBit =>
      match down kBit false with
      | none => none
      | some (some next) => some (some next)
      | some none =>
        if kBit = bit order depth ∨ depth = 0 then
          match down (!kBit) true with
          | none => none
          | some (some next) => some (some next)
          | some none => if depth = 0 then down kBit true else some none
        else some none

def nextNonEmptyLeaf (t : Trie K0 D) (k : K0) (order : K1) : Option (Option (K0 × D)) :=
  nextNonEmptyLeafAtDepth k order t 0 false

theorem nextNonEmptyLeafAtDepth_node (k : K0) (order : K1) (b0 b1 : Trie K0 D) {depth : Nat}
    {kBit : Bool} (hbit : (bits k)[depth]? = some kBit) :
    nextNonEmptyLeafAtDepth k order (.node b0 b1) depth false =
      match nextNonEmptyLeafAtDepth k order (child b0 b1 kBit) (depth + 1) false with
      | none => none
      | some (some next) => some (some next)
      | some none =>
        if kBit = bit order depth ∨ depth = 0 then
          match nextNonEmptyLeafAtDepth k order (child b0 b1 !kBit) (depth + 1) true with
          | none => none
          | some (some next) => some (some next)
          | some none =>
            if depth = 0 then
              nextNonEmptyLeafAtDepth k order (child b0 b1 kBit) (depth + 1) true
            else some none
        else some none := by
  rw [nextNonEmptyLeafAtDepth, hbit]
  cases kBit <;> rfl

theorem nextNonEmptyLeafAtDepth_bottom_eq (k : K0) (order : K1) (t : Trie K0 D)
    (depth : Nat) :
    nextNonEmptyLeafAtDepth k order t depth true = some (entriesFrom order t depth).head? := by
  induction t using childInduction generalizing depth with
  | emptyLeaf => rfl
  | leaf key d => rfl
  | node b0 b1 ih =>
    have h0 : nextNonEmptyLeafAtDepth k order b0 (depth + 1) true = _ := ih false (depth + 1)
    have h1 : nextNonEmptyLeafAtDepth k order b1 (depth + 1) true = _ := ih true (depth + 1)
    rw [entriesFrom_node, nextNonEmptyLeafAtDepth]
    cases bit order depth with
    | false =>
      simp only [h0, h1, Bool.not_false]
      cases entriesFrom order (child b0 b1 false) (depth + 1) with
      | nil => rfl
      | cons e es => rfl
    | true =>
      simp only [h0, h1, Bool.not_true]
      cases entriesFrom order (child b0 b1 true) (depth + 1) with
      | nil => rfl
      | cons e es => rfl

theorem nextNonEmptyLeafAtDepth_bottom (k : K0) (order : K1) (t : Trie K0 D) (depth : Nat) :
    ∃ next, nextNonEmptyLeafAtDepth k order t depth true = some next ∧
      (next = none → t.entries = []) ∧ ∀ e, next = some e → e ∈ t.entries := by
  refine ⟨_, nextNonEmptyLeafAtDepth_bottom_eq k order t depth, fun hnone => ?_, fun e he => ?_⟩
  · have hperm := entriesFrom_perm order t depth
    rw [head?_eq_none_iff.mp hnone] at hperm
    exact hperm.nil_eq.symm
  · exact mem_entriesFrom.mp (mem_of_head? he)

/-- A key below which nothing is stored: no stored key properly extends it. -/
def NothingBelow (t : Trie K0 D) (k : K0) : Prop :=
  ∀ e ∈ t.entries, bits k <+: bits e.1 → e.1 = k

/-- At an internal node the key is not over yet: an entry below would properly extend it. -/
theorem NothingBelow.lt_bitLen {b0 b1 : Trie K0 D} {k : K0} (hk : NothingBelow (.node b0 b1) k)
    {path : List Bool} (h : (node b0 b1).WFAt path) (hpath : path <+: bits k) :
    path.length < bitLen k := by
  refine lt_of_le_of_ne hpath.length_le fun hend => ?_
  have heq : path = bits k := hpath.eq_of_length hend
  obtain ⟨e, he⟩ := exists_mem_of_ne_nil _ h.entries_ne_nil
  have hlong := h.length_lt he
  rw [hk e he (heq ▸ h.prefix_of_mem he)] at hlong
  exact hlong.ne hend

/-- Descending along a key with nothing stored below it never reads past the key's end, and an
entry that is found is a stored one. -/
theorem nextNonEmptyLeafAtDepth_descend (k : K0) (order : K1) (t : Trie K0 D)
    (path : List Bool) (h : t.WFAt path) (hpath : path <+: bits k) (hk : NothingBelow t k) :
    ∃ next, nextNonEmptyLeafAtDepth k order t path.length false = some next ∧
      (path = [] → next = none → t.entries = []) ∧ ∀ e, next = some e → e ∈ t.entries := by
  induction t using childInduction generalizing path with
  | emptyLeaf => exact ⟨none, rfl, fun _ _ => rfl, by simp⟩
  | leaf key d =>
    rw [nextNonEmptyLeafAtDepth]
    split
    · exact ⟨some (key, d), rfl, by simp, by simp⟩
    · next hroot =>
      have hne : path ≠ [] := fun heq => hroot (by simp [heq])
      simp only []
      split
      · exact ⟨some (key, d), rfl, by simp, by simp⟩
      · exact ⟨none, rfl, fun heq => absurd heq hne, by simp⟩
  | node b0 b1 ih =>
    have hlt : path.length < bitLen k := hk.lt_bitLen h hpath
    have hstep := prefix_step hpath hlt
    rw [nextNonEmptyLeafAtDepth_node k order b0 b1 (getElem?_bits k _ hlt)]
    set b := bit k path.length with hb
    obtain ⟨next, hnext, -, hmem⟩ := ih b _ (h.child b) hstep fun e he =>
      hk e (mem_entries_of_child he)
    rw [length_append, length_singleton] at hnext
    obtain ⟨other, hother, hotherNone, hotherMem⟩ :=
      nextNonEmptyLeafAtDepth_bottom k order (child b0 b1 !b) (path.length + 1)
    obtain ⟨again, hagain, hagainNone, hagainMem⟩ :=
      nextNonEmptyLeafAtDepth_bottom k order (child b0 b1 b) (path.length + 1)
    simp only [hnext, hother, hagain]
    cases next with
    | some e =>
      refine ⟨some e, rfl, by simp, fun e' he' => ?_⟩
      cases he'
      exact mem_entries_of_child (hmem e rfl)
    | none =>
      simp only []
      split
      · cases other with
        | some e =>
          refine ⟨some e, rfl, by simp, fun e' he' => ?_⟩
          cases he'
          exact mem_entries_of_child (hotherMem e rfl)
        | none =>
          simp only []
          split
          · refine ⟨again, rfl, fun _ hnone => ?_, fun e he => ?_⟩
            · rw [eq_nil_iff_forall_not_mem]
              intro e he
              rw [mem_entries_node b, hagainNone hnone, hotherNone rfl] at he
              simp at he
            · exact mem_entries_of_child (hagainMem e he)
          · next hroot =>
            exact ⟨none, rfl, fun heq => absurd (by simp [heq]) hroot, by simp⟩
      · next hcond =>
        refine ⟨none, rfl, fun heq => absurd (.inr (by simp [heq])) hcond, by simp⟩

/-- **`NextNonEmptyLeaf`.** On a key with nothing stored below it the function returns, and it
returns an entry of the trie unless the trie is empty. -/
theorem nextNonEmptyLeaf_spec (h : t.WF) (k : K0) (order : K1) (hk : NothingBelow t k) :
    ∃ next, nextNonEmptyLeaf t k order = some next ∧
      (next = none → t.entries = []) ∧ ∀ e, next = some e → e ∈ t.entries := by
  obtain ⟨next, hnext, hnone, hmem⟩ := nextNonEmptyLeafAtDepth_descend k order t [] h nil_prefix hk
  exact ⟨next, hnext, hnone rfl, hmem⟩

/-! ## `TrieGaps` -/

/-- The comparison of `sortBitstrKeysByOrder`, over the bits of the two keys and of the order that
are left: negative when `a` comes first. -/
def compareByOrder : Bitstr → Bitstr → List Bool → Int
  | _, _, [] => 0
  | [], [], _ => 0
  | [], _ :: _, _ => 1
  | _ :: _, [], _ => -1
  | a :: as, b :: bs, o :: os =>
    if a = b then compareByOrder as bs os else if a = o then -1 else 1

/-- `sortBitstrKeysByOrder`. Keys that compare equal are the same on all bits of the order, so
that it does not matter that the source's sort is not stable. -/
def sortBitstrKeysByOrder (keys : List Bitstr) (order : K1) : List Bitstr :=
  keys.insertionSort fun a b => compareByOrder a b (bits order) ≤ 0

/-- The gaps in the branch for bit `i` of a node at `depth`, relative to that node. `deeper` are
the gaps of the branch itself when it is an internal node. -/
def branchGaps (depth : Nat) (target : Bitstr) (order : K1) (i : Bool) (branch : Trie Bitstr D)
    (deeper : List Bitstr) : List Bitstr :=
  -- above the target, only the branch towards it counts
  if depth < target.length ∧ i ≠ bit target depth then []
  else match branch with
    | .emptyLeaf => [[i]]
    | .leaf k _ =>
      if k.length > depth + 1 then
        (sortBitstrKeysByOrder ((siblingPrefixes k).drop (depth + 1)) order).map (List.drop depth)
      else []
    | .node _ _ => deeper.map (i :: ·)

/-- `trieGapsAtDepth`, which is only called on internal nodes. -/
def trieGapsAtDepth (target : Bitstr) (order : K1) : Trie Bitstr D → Nat → List Bitstr
  | .node b0 b1, depth =>
    let gaps0 := branchGaps depth target order false b0
      (trieGapsAtDepth target order b0 (depth + 1))
    let gaps1 := branchGaps depth target order true b1
      (trieGapsAtDepth target order b1 (depth + 1))
    match bit order depth with
    | false => gaps0 ++ gaps1
    | true => gaps1 ++ gaps0
  | _, _ => []

/-- `TrieGaps`: the prefixes below `target` that no key of the trie covers. -/
def trieGaps (t : Trie Bitstr D) (target : Bitstr) (order : K1) : List Bitstr :=
  match t with
  | .emptyLeaf => [target]
  | .leaf k _ =>
    if isBitstrPrefix target k then
      sortBitstrKeysByOrder ((siblingPrefixes k).drop target.length) order
    else if isBitstrPrefix k target then []
    else [target]
  | .node _ _ => trieGapsAtDepth target order t 0

end KadDht
