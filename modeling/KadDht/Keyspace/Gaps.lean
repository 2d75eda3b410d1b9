import KadDht.Keyspace.Trie
import KadDht.Lib.Cover

/-!
# Keyspace — the gaps of a trie (`provider/internal/keyspace/trie.go`)

`TrieGaps` lists the prefixes that are missing in a trie of prefixes, and `ExtendBinaryPrefix` fills
a gap with prefixes of a given length. At a leaf the gaps are the siblings along its key; at a node
the gaps of the branches come one after the other.

* **`trieGaps_complete`**, **`trieGaps_sound`** — the gaps are exact below the target.
* **`trieGaps_law`** — they need not be below it: when the walk towards the target ends above it,
  what is listed there is all that is missing below the end of the walk.
-/

namespace KadDht

open BitKey List Trie

variable {D K1 : Type} [BitKey K1]

/-! ## Siblings -/

variable {k g : Bitstr} {n : Nat} {x : Nat → Bool}

theorem flipLastBit_take {i : Nat} (hi : i < k.length) :
    flipLastBit (k.take (i + 1)) = k.take i ++ [!k[i]] := by
  rw [take_succ_eq_append_getElem hi, flipLastBit, getLast?_concat]
  show (k.take i ++ [k[i]]).dropLast ++ [!k[i]] = _
  rw [dropLast_concat]

theorem mem_drop_siblingPrefixes :
    g ∈ (siblingPrefixes k).drop n ↔
      ∃ i, ∃ hi : i < k.length, n ≤ i ∧ g = k.take i ++ [!k[i]] := by
  have hlen : (siblingPrefixes k).length = k.length := by simp [siblingPrefixes]
  rw [mem_drop_iff_getElem]
  constructor
  · rintro ⟨i, hi, rfl⟩
    have hlt : n + i < k.length := by omega
    refine ⟨n + i, hlt, by omega, ?_⟩
    simp only [siblingPrefixes, getElem_map, getElem_range]
    exact flipLastBit_take hlt
  · rintro ⟨i, hi, hle, rfl⟩
    refine ⟨i - n, by omega, ?_⟩
    simp only [siblingPrefixes, getElem_map, getElem_range]
    rw [show n + (i - n) = i by omega]
    exact flipLastBit_take hi

theorem sibling_spec (hg : g ∈ (siblingPrefixes k).drop n) :
    k.take n <+: g ∧ g.length ≤ k.length ∧ n < g.length ∧ ¬ Overlap g k := by
  obtain ⟨i, hi, hle, rfl⟩ := mem_drop_siblingPrefixes.mp hg
  have hlen : (k.take i ++ [!k[i]]).length = i + 1 := by simp; omega
  refine ⟨?_, by omega, by omega, ?_⟩
  · exact (take_prefix_take_left hle).trans (prefix_append _ _)
  · have hkey : k.take i ++ [k[i]] <+: k := by
      rw [← take_succ_eq_append_getElem hi]
      exact take_prefix _ _
    exact fun hov => not_overlap_of_branches hkey prefix_rfl hov.symm

/-- **The siblings along a key** are what is missing: a string that starts as the key does starts
with the key or with a sibling. -/
theorem startsWith_sibling (hx : StartsWith x (k.take n)) :
    StartsWith x k ∨ ∃ g ∈ (siblingPrefixes k).drop n, StartsWith x g := by
  -- walk along the key until the string leaves it
  induction hrest : k.length - n generalizing n with
  | zero =>
    rw [take_of_length_le (by omega)] at hx
    exact .inl hx
  | succ rest ih =>
    have hn : n < k.length := by omega
    by_cases hbit : x n = k[n]
    · have hnext : StartsWith x (k.take (n + 1)) := by
        rw [take_succ_eq_append_getElem hn, startsWith_append_singleton, length_take_of_le hn.le]
        exact ⟨hx, hbit⟩
      rcases ih hnext (by omega) with hk | ⟨g, hg, hxg⟩
      · exact .inl hk
      · obtain ⟨i, hi, hle, rfl⟩ := mem_drop_siblingPrefixes.mp hg
        exact .inr ⟨_, mem_drop_siblingPrefixes.mpr ⟨i, hi, by omega, rfl⟩, hxg⟩
    · refine .inr ⟨_, mem_drop_siblingPrefixes.mpr ⟨n, hn, le_refl n, rfl⟩, ?_⟩
      rw [startsWith_append_singleton, length_take_of_le hn.le]
      exact ⟨hx, Bool.eq_not.mpr hbit⟩

theorem siblingPrefixes_disjoint (k : Bitstr) :
    (siblingPrefixes k).Pairwise fun g g' => ¬ Overlap g g' := by
  rw [siblingPrefixes, pairwise_map]
  refine pairwise_lt_range.imp_of_mem fun {i j} hi hj hlt => ?_
  have hi := mem_range.mp hi
  have hj := mem_range.mp hj
  rw [flipLastBit_take hi, flipLastBit_take hj]
  have hlater : k.take i ++ [k[i]] <+: k.take j ++ [!k[j]] := by
    rw [← take_succ_eq_append_getElem hi]
    exact (take_prefix_take_left hlt).trans (prefix_append _ _)
  exact fun hov => not_overlap_of_branches hlater prefix_rfl hov.symm

/-! ## Sorting -/

theorem compareByOrder_total (a b os : List Bool) :
    compareByOrder a b os ≤ 0 ∨ compareByOrder b a os ≤ 0 := by
  induction os generalizing a b with
  | nil => simp [compareByOrder]
  | cons o os ih =>
    cases a with
    | nil => cases b <;> simp [compareByOrder]
    | cons x a =>
      cases b with
      | nil => simp [compareByOrder]
      | cons y b =>
        by_cases hxy : x = y
        · simpa [compareByOrder, hxy] using ih a b
        · cases x <;> cases y <;> cases o <;> simp [compareByOrder] at hxy ⊢

theorem compareByOrder_trans {a b c os : List Bool} (hab : compareByOrder a b os ≤ 0)
    (hbc : compareByOrder b c os ≤ 0) : compareByOrder a c os ≤ 0 := by
  induction os generalizing a b c with
  | nil => simp [compareByOrder]
  | cons o os ih => cases a <;> cases b <;> cases c <;> grind [compareByOrder]

theorem compareByOrder_of_xorBefore {x a b : List Bool} (h : XorBefore x b a)
    (hlen : a.length ≤ x.length) : compareByOrder a b x = 1 := by
  obtain ⟨c, hb, ha⟩ := h
  have hlt := (length_lt_of_branch ha).trans_le hlen
  obtain ⟨as, rfl⟩ := ha
  obtain ⟨bs, rfl⟩ := hb
  clear hlen
  induction c generalizing x with
  | nil =>
    obtain ⟨o, os, rfl⟩ := exists_cons_of_length_pos hlt
    simp [compareByOrder]
  | cons y c ih =>
    obtain ⟨o, os, rfl⟩ := exists_cons_of_length_pos (Nat.zero_lt_of_lt hlt)
    simpa [compareByOrder] using ih (Nat.lt_of_succ_lt_succ hlt)

theorem sorted_sortBitstrKeysByOrder {l : List Bitstr} (order : K1)
    (hdisj : l.Pairwise fun g g' => ¬ Overlap g g') (hlen : ∀ g ∈ l, g.length ≤ bitLen order) :
    (sortBitstrKeysByOrder l order).Pairwise (XorBefore (bits order)) := by
  have htotal : Std.Total fun a b => compareByOrder a b (bits order) ≤ 0 :=
    ⟨fun a b => compareByOrder_total a b _⟩
  have htrans : IsTrans Bitstr fun a b => compareByOrder a b (bits order) ≤ 0 :=
    ⟨fun a b c => compareByOrder_trans⟩
  have hsorted := pairwise_insertionSort (fun a b => compareByOrder a b (bits order) ≤ 0) l
  have hperm := perm_insertionSort (fun a b => compareByOrder a b (bits order) ≤ 0) l
  have hapart := (hperm.pairwise_iff fun hov hov' => hov hov'.symm).mpr hdisj
  refine (hsorted.and hapart).imp_of_mem fun {a b} ha _ hle => ?_
  refine (xorBefore_or _ hle.2).resolve_right fun hba => ?_
  have hone := compareByOrder_of_xorBefore hba (hlen a (hperm.mem_iff.mp ha))
  exact absurd (hone ▸ hle.1) (by decide)

theorem sorted_siblings (order : K1) (hlen : k.length ≤ bitLen order) (n : Nat) :
    (sortBitstrKeysByOrder ((siblingPrefixes k).drop n) order).Pairwise
      (XorBefore (bits order)) := by
  refine sorted_sortBitstrKeysByOrder order ?_ fun g hg => ?_
  · exact (siblingPrefixes_disjoint k).sublist (drop_sublist _ _)
  · exact (sibling_spec hg).2.1.trans hlen

theorem mem_sortBitstrKeysByOrder {l : List Bitstr} {order : K1} :
    g ∈ sortBitstrKeysByOrder l order ↔ g ∈ l :=
  (perm_insertionSort _ l).mem_iff

/-! ## Nodes -/

section Depth

variable {target : Bitstr} {order : K1} {path : List Bool} {b0 b1 : Trie Bitstr D}

variable {g k : Bitstr} {i : Bool}

theorem trieGapsAtDepth_node (target : Bitstr) (order : K1) (b0 b1 : Trie Bitstr D) (depth : Nat) :
    trieGapsAtDepth target order (.node b0 b1) depth
      = branchGaps depth target order (bit order depth) (child b0 b1 (bit order depth))
          (trieGapsAtDepth target order (child b0 b1 (bit order depth)) (depth + 1))
        ++ branchGaps depth target order (!bit order depth) (child b0 b1 !bit order depth)
          (trieGapsAtDepth target order (child b0 b1 !bit order depth) (depth + 1)) := by
  rw [trieGapsAtDepth]
  cases bit order depth <;> rfl

variable {depth : Nat}

theorem mem_trieGapsAtDepth :
    g ∈ trieGapsAtDepth target order (.node b0 b1) depth ↔
      ∃ i, g ∈ branchGaps depth target order i (child b0 b1 i)
        (trieGapsAtDepth target order (child b0 b1 i) (depth + 1)) := by
  rw [trieGapsAtDepth_node, mem_append, Bool.exists_bool]
  cases bit order depth with
  | false => rfl
  | true => exact or_comm

/-- A string below the target is in a branch that counts. -/
theorem bit_target (hx : StartsWith x (path ++ [i])) (htarget : StartsWith x target) :
    ¬ (path.length < target.length ∧ i ≠ bit target path.length) := by
  rintro ⟨hlt, hne⟩
  rw [← ((startsWith_append_singleton i).mp hx).2] at hne
  exact hne (htarget path.length _ (getElem?_bits target path.length hlt))

theorem take_of_branch (hk : path ++ [i] <+: k) : k.take (path.length + 1) = path ++ [i] := by
  have hlen : (path ++ [i]).length = path.length + 1 := by simp
  rw [← hlen]
  exact (prefix_iff_eq_take.mp hk).symm

theorem branch_prefix_sibling (hk : path ++ [i] <+: k)
    (hg : g ∈ (siblingPrefixes k).drop (path.length + 1)) : path ++ [i] <+: g :=
  take_of_branch hk ▸ (sibling_spec hg).1

theorem exists_below (hk : path ++ [i] <+: k)
    (hg : g ∈ (siblingPrefixes k).drop (path.length + 1)) : ∃ rest, path ++ rest = g :=
  (prefix_append path [i]).trans (branch_prefix_sibling hk hg)

/-- At a leaf the gaps are the siblings along its key. -/
theorem mem_branchGaps_leaf {d : D} {below : List Bitstr} (hk : path ++ [i] <+: k) :
    g ∈ branchGaps path.length target order i (.leaf k d) below ↔
      ¬ (path.length < target.length ∧ i ≠ bit target path.length) ∧
        path ++ g ∈ (siblingPrefixes k).drop (path.length + 1) := by
  simp only [branchGaps]
  split
  · next hskip => exact iff_of_false not_mem_nil fun h => h.1 hskip
  · next hskip =>
    rw [and_iff_right hskip]
    split
    · rw [mem_map]
      constructor
      · rintro ⟨g', hg', rfl⟩
        rw [mem_sortBitstrKeysByOrder] at hg'
        obtain ⟨rest, rfl⟩ := exists_below hk hg'
        rwa [drop_left]
      · exact fun hg => ⟨path ++ g, mem_sortBitstrKeysByOrder.mpr hg, drop_left⟩
    · next hshort =>
      refine iff_of_false not_mem_nil fun hg => ?_
      obtain ⟨-, hle, hlong, -⟩ := sibling_spec hg
      omega

variable {t : Trie Bitstr D} {i : Bool}

/-- **No gap is left out** in a branch. -/
theorem branchGaps_complete (order : K1) (h : t.WFAt (path ++ [i]))
    (hx : StartsWith x (path ++ [i])) (htarget : StartsWith x target) :
    (∃ k ∈ t.keys, StartsWith x k) ∨
      ∃ g ∈ branchGaps path.length target order i t
        (trieGapsAtDepth target order t (path.length + 1)), StartsWith x (path ++ g) := by
  induction t using childInduction generalizing path i with
  | emptyLeaf =>
    rw [branchGaps, if_neg (bit_target hx htarget)]
    exact .inr ⟨[i], mem_singleton_self _, hx⟩
  | leaf k d =>
    have hk : path ++ [i] <+: k := h
    have htake : StartsWith x (k.take (path.length + 1)) := by rwa [take_of_branch hk]
    rcases startsWith_sibling htake with hk | ⟨g, hg, hxg⟩
    · exact .inl ⟨k, mem_singleton_self k, hk⟩
    · obtain ⟨rest, rfl⟩ := exists_below h hg
      exact .inr ⟨rest, (mem_branchGaps_leaf h).mpr ⟨bit_target hx htarget, hg⟩, hxg⟩
  | node c0 c1 ih =>
    rw [branchGaps, if_neg (bit_target hx htarget)]
    -- the string goes on in one of the two branches
    have hlen : path.length + 1 = (path ++ [i]).length := by simp
    have hnext : StartsWith x (path ++ [i] ++ [x (path ++ [i]).length]) :=
      (startsWith_append_singleton _).mpr ⟨hx, rfl⟩
    rcases ih _ (h.child _) hnext with ⟨k, hk, hxk⟩ | ⟨g, hg, hxg⟩
    · exact .inl ⟨k, mem_keys_of_child hk, hxk⟩
    · refine .inr ⟨i :: g, mem_map_of_mem ?_, ?_⟩
      · rw [hlen]
        exact mem_trieGapsAtDepth.mpr ⟨_, hg⟩
      · rwa [append_assoc] at hxg

/-- A gap in the branch for bit `i` below a path: it overlaps no key of the branch. It is one bit
longer than the path, or not longer than some key. -/
structure IsGap (path : List Bool) (i : Bool) (t : Trie Bitstr D) (g : Bitstr) : Prop where
  below : path ++ [i] <+: path ++ g
  disjoint : ∀ k ∈ t.keys, ¬ Overlap (path ++ g) k
  length : (path ++ g).length = path.length + 1 ∨ ∃ k ∈ t.keys, (path ++ g).length ≤ k.length

theorem IsGap.of_child (h : (node b0 b1).WFAt path)
    (hgap : IsGap path i (child b0 b1 i) g) :
    (∀ k ∈ (node b0 b1).keys, ¬ Overlap (path ++ g) k) ∧
      ∃ k ∈ (node b0 b1).keys, (path ++ g).length ≤ k.length := by
  constructor
  · intro k hk
    rcases (mem_keys_node i).mp hk with hsame | hother
    · exact hgap.disjoint k hsame
    · exact not_overlap_of_branches hgap.below ((h.child (!i)).prefix_of_mem_keys hother)
  · rcases hgap.length with heq | ⟨k, hk, hle⟩
    · -- the node is not hollow
      obtain ⟨e, he⟩ := exists_mem_of_ne_nil _ h.entries_ne_nil
      exact ⟨e.1, mem_keys_of_mem he, heq ▸ h.length_lt he⟩
    · exact ⟨k, mem_keys_of_child hk, hle⟩

/-- **What is listed for a branch is a gap.** -/
theorem branchGaps_sound (h : t.WFAt (path ++ [i])) {g : Bitstr}
    (hg : g ∈ branchGaps path.length target order i t
      (trieGapsAtDepth target order t (path.length + 1))) : IsGap path i t g := by
  induction t using childInduction generalizing path i g with
  | emptyLeaf =>
    rw [branchGaps] at hg
    split at hg
    · cases hg
    · rw [mem_singleton.mp hg]
      exact ⟨prefix_rfl, fun k hk => absurd hk not_mem_nil, .inl (by simp)⟩
  | leaf k d =>
    obtain ⟨-, hsibling⟩ := (mem_branchGaps_leaf h).mp hg
    obtain ⟨-, hle, -, hdisj⟩ := sibling_spec hsibling
    refine ⟨branch_prefix_sibling h hsibling, fun k' hk' => ?_, .inr ⟨k, ?_, hle⟩⟩
    · rwa [mem_singleton.mp hk']
    · exact mem_singleton_self k
  | node c0 c1 ih =>
    rw [branchGaps] at hg
    split at hg
    · cases hg
    obtain ⟨rest, hrest, rfl⟩ := mem_map.mp hg
    have hlen : path.length + 1 = (path ++ [i]).length := by simp
    rw [hlen] at hrest
    obtain ⟨j, hj⟩ := mem_trieGapsAtDepth.mp hrest
    have hgap := ih j (h.child j) hj
    obtain ⟨hdisj, hlong⟩ := hgap.of_child h
    rw [append_assoc] at hdisj hlong
    refine ⟨?_, hdisj, .inr hlong⟩
    have hbelow := (prefix_append _ [j]).trans hgap.below
    rwa [append_assoc] at hbelow

theorem trieGapsAtDepth_sorted (h : (node b0 b1).WFAt path)
    (hbranch : ∀ i, (branchGaps path.length target order i (child b0 b1 i)
      (trieGapsAtDepth target order (child b0 b1 i) (path.length + 1))).Pairwise
        fun g g' => XorBefore (bits order) (path ++ g) (path ++ g')) :
    (trieGapsAtDepth target order (.node b0 b1) path.length).Pairwise
      fun g g' => XorBefore (bits order) (path ++ g) (path ++ g') := by
  rw [trieGapsAtDepth_node]
  refine pairwise_append.mpr ⟨hbranch _, hbranch _, fun g hg g' hg' => ?_⟩
  exact ⟨path, (branchGaps_sound (h.child _) hg).below, (branchGaps_sound (h.child _) hg').below⟩

theorem branchGaps_sorted (h : t.WFAt (path ++ [i]))
    (hlen : ∀ k ∈ t.keys, bitLen k ≤ bitLen order) :
    (branchGaps path.length target order i t
      (trieGapsAtDepth target order t (path.length + 1))).Pairwise
        fun g g' => XorBefore (bits order) (path ++ g) (path ++ g') := by
  induction t using childInduction generalizing path i with
  | emptyLeaf =>
    rw [branchGaps]
    split
    · exact List.Pairwise.nil
    · exact pairwise_singleton _ _
  | leaf k d =>
    simp only [branchGaps]
    split
    · exact List.Pairwise.nil
    split
    · rw [pairwise_map]
      refine (sorted_siblings order (hlen k (mem_singleton_self k)) _).imp_of_mem ?_
      intro g g' hg hg' hbefore
      have hpath : ∀ s ∈ sortBitstrKeysByOrder ((siblingPrefixes k).drop (path.length + 1)) order,
          path ++ s.drop path.length = s := by
        intro s hs
        obtain ⟨rest, rfl⟩ := exists_below h (mem_sortBitstrKeysByOrder.mp hs)
        rw [drop_left]
      rwa [hpath g hg, hpath g' hg']
    · exact List.Pairwise.nil
  | node c0 c1 ih =>
    rw [branchGaps]
    split
    · exact List.Pairwise.nil
    have hnode := trieGapsAtDepth_sorted h fun j =>
      ih j (h.child j) fun k hk => hlen k (mem_keys_of_child hk)
    rw [pairwise_map, show path.length + 1 = (path ++ [i]).length by simp]
    simpa only [append_assoc, singleton_append] using hnode

/-- The walk towards the target comes down to it, or ends at a leaf above it of which nothing is
missing but, possibly, the target itself. -/
def TargetReached (target : Bitstr) : Trie Bitstr D → Nat → Prop
  | .emptyLeaf, depth => target.length ≤ depth
  | .leaf k _, depth => target.length ≤ depth ∨ k.length ≤ depth ∨
      (k.length = depth + 1 ∧ target = flipLastBit k)
  | .node b0 b1, depth => target.length ≤ depth ∨
      match bit target depth with
      | false => TargetReached target b0 (depth + 1)
      | true => TargetReached target b1 (depth + 1)

theorem targetReached_node :
    TargetReached target (.node b0 b1) depth ↔ target.length ≤ depth ∨
      TargetReached target (child b0 b1 (bit target depth)) (depth + 1) := by
  rw [TargetReached]
  cases bit target depth <;> rfl

theorem TargetReached.of_length_le (t : Trie Bitstr D)
    (hle : target.length ≤ depth) : TargetReached target t depth := by
  cases t with
  | emptyLeaf => exact hle
  | leaf k d => exact .inl hle
  | node b0 b1 => exact .inl hle

theorem siblings_extend_iff (hn : n < target.length) :
    (∀ g ∈ (siblingPrefixes k).drop n, target <+: g) ↔
      k.length ≤ n ∨ (k.length = n + 1 ∧ target = flipLastBit k) := by
  constructor
  · intro hall
    by_cases hk : k.length ≤ n
    · exact .inl hk
    have hnk : n < k.length := not_le.mp hk
    -- the first sibling is as long as the target has to be
    have hfirst := mem_drop_siblingPrefixes.mpr ⟨n, hnk, le_rfl, rfl⟩
    have hlen : (k.take n ++ [!k[n]]).length = n + 1 := by simp; omega
    have htarget : target = k.take n ++ [!k[n]] := (hall _ hfirst).eq_of_length_le (by omega)
    have hshort : k.length = n + 1 := by
      by_contra hne
      -- the second one is below the key's own branch
      have hsecond := mem_drop_siblingPrefixes.mpr
        ⟨n + 1, (by omega : n + 1 < k.length), le_rfl, rfl⟩
      have hnext := hall _ (drop_subset_drop_left _ n.le_succ hsecond)
      have hown : k.take n ++ [k[n]] <+: k.take (n + 1) ++ [!k[n + 1]] := by
        rw [← take_succ_eq_append_getElem hnk]
        exact (sibling_spec hsecond).1
      rw [htarget] at hnext
      exact not_overlap_of_branches hown hnext (Overlap.refl _)
    refine .inr ⟨hshort, htarget.trans ?_⟩
    rw [← flipLastBit_take hnk, take_of_length_le hshort.le]
  · intro hcond g hg
    obtain ⟨i, hi, hle, rfl⟩ := mem_drop_siblingPrefixes.mp hg
    rcases hcond with hk | ⟨hk, rfl⟩
    · omega
    · rw [← flipLastBit_take hi, take_of_length_le (by omega)]

theorem mem_trieGapsAtDepth_above (hlt : depth < target.length) :
    g ∈ trieGapsAtDepth target order (.node b0 b1) depth ↔
      g ∈ branchGaps depth target order (bit target depth) (child b0 b1 (bit target depth))
        (trieGapsAtDepth target order (child b0 b1 (bit target depth)) (depth + 1)) := by
  rw [mem_trieGapsAtDepth]
  refine ⟨fun ⟨i, hi⟩ => ?_, fun hg => ⟨_, hg⟩⟩
  by_cases hbit : i = bit target depth
  · exact hbit ▸ hi
  · rw [branchGaps.eq_def, if_pos ⟨hlt, hbit⟩] at hi
    cases hi

/-- A branch towards the target gets there, or is above it. -/
theorem branchGaps_extend (order : K1) (h : t.WFAt (path ++ [i]))
    (hbelow : path ++ [i] <+: target) :
    ((∀ g ∈ branchGaps path.length target order i t
      (trieGapsAtDepth target order t (path.length + 1)), target <+: path ++ g) ↔
      TargetReached target t (path.length + 1)) ∨ path.length + 1 < target.length ∧
      ¬ (path.length < target.length ∧ i ≠ bit target path.length) := by
  have hle := hbelow.length_le
  rw [length_append, length_singleton] at hle
  rcases hle.eq_or_lt with hsame | hlt
  · have htarget : target = path ++ [i] := (hbelow.eq_of_length (by simpa using hsame)).symm
    refine .inl (iff_of_true (fun g hg => ?_) (TargetReached.of_length_le t hsame.ge))
    exact htarget ▸ (branchGaps_sound h hg).below
  · rw [show bit target path.length = i from bit_of_prefix (k := target) hbelow]
    exact .inr ⟨hlt, fun hcond => hcond.2 rfl⟩

/-- **When the gaps of a branch towards the target are below the target.** -/
theorem branchGaps_extend_iff (order : K1) (h : t.WFAt (path ++ [i]))
    (hbelow : path ++ [i] <+: target) :
    (∀ g ∈ branchGaps path.length target order i t
      (trieGapsAtDepth target order t (path.length + 1)), target <+: path ++ g) ↔
      TargetReached target t (path.length + 1) := by
  have hlen : (path ++ [i]).length = path.length + 1 := by simp
  induction t using childInduction generalizing path i with
  | emptyLeaf =>
    rcases branchGaps_extend order h hbelow with hreached | ⟨hlt, hskip⟩
    · exact hreached
    rw [branchGaps, if_neg hskip]
    refine iff_of_false (fun hall => ?_) hlt.not_ge
    have hle := (hall [i] (mem_singleton_self _)).length_le
    omega
  | leaf k d =>
    rcases branchGaps_extend order h hbelow with hreached | ⟨hlt, hskip⟩
    · exact hreached
    have hk : path ++ [i] <+: k := h
    have hsiblings : (∀ g ∈ (siblingPrefixes k).drop (path.length + 1), target <+: g) ↔
        ∀ g, path ++ g ∈ (siblingPrefixes k).drop (path.length + 1) → target <+: path ++ g := by
      refine ⟨fun hall g hg => hall _ hg, fun hall g hg => ?_⟩
      obtain ⟨rest, rfl⟩ := exists_below hk hg
      exact hall rest hg
    simp only [mem_branchGaps_leaf hk, and_iff_right hskip, ← hsiblings, siblings_extend_iff hlt,
      TargetReached, or_iff_right hlt.not_ge]
  | node c0 c1 ih =>
    rcases branchGaps_extend order h hbelow with hreached | ⟨hlt, hskip⟩
    · exact hreached
    have hnext := prefix_step (k := target) hbelow (hlen ▸ hlt)
    have hbranch := ih _ (h.child _) hnext (by simp)
    rw [targetReached_node, or_iff_right hlt.not_ge, branchGaps, if_neg hskip,
      forall_mem_map, ← hlen]
    simp only [mem_trieGapsAtDepth_above (hlen ▸ hlt)]
    simpa only [append_assoc, singleton_append] using hbranch

end Depth

/-! ## `TrieGaps` -/

variable {t : Trie Bitstr D} {target : Bitstr} {order : K1}

/-- **`TrieGaps` leaves no gap out.** An infinite string below the target starts with a key of the
trie or with a gap. -/
theorem trieGaps_complete (order : K1) (h : t.WF) (hx : StartsWith x target) :
    (∃ k ∈ t.keys, StartsWith x k) ∨ ∃ g ∈ trieGaps t target order, StartsWith x g := by
  unfold trieGaps
  cases t with
  | emptyLeaf => exact .inr ⟨target, mem_singleton_self _, hx⟩
  | leaf k d =>
    simp only [isBitstrPrefix_iff]
    split
    · next hpre =>
      have htake : StartsWith x (k.take target.length) := by
        rwa [← prefix_iff_eq_take.mp hpre]
      rcases startsWith_sibling htake with hk | ⟨g, hg, hxg⟩
      · exact .inl ⟨k, mem_singleton_self k, hk⟩
      · exact .inr ⟨g, mem_sortBitstrKeysByOrder.mpr hg, hxg⟩
    · split
      · next hpre => exact .inl ⟨k, mem_singleton_self k, hx.of_prefix hpre⟩
      · exact .inr ⟨target, mem_singleton_self _, hx⟩
  | node b0 b1 =>
    have hbit : StartsWith x ([] ++ [x 0]) :=
      (startsWith_append_singleton _).mpr ⟨hx.of_prefix nil_prefix, rfl⟩
    rcases branchGaps_complete order (h.child (x 0)) hbit hx with ⟨k, hk, hxk⟩ | ⟨g, hg, hxg⟩
    · exact .inl ⟨k, mem_keys_of_child hk, hxk⟩
    · exact .inr ⟨g, mem_trieGapsAtDepth.mpr ⟨_, hg⟩, hxg⟩

/-- **A gap overlaps no key**, and is not longer than the target and all keys. -/
theorem trieGaps_sound (h : t.WF) (hg : g ∈ trieGaps t target order) :
    (∀ k ∈ t.keys, ¬ Overlap g k) ∧
      (g.length ≤ target.length ∨ ∃ k ∈ t.keys, g.length ≤ k.length) := by
  unfold trieGaps at hg
  cases t with
  | emptyLeaf =>
    rw [mem_singleton.mp hg]
    exact ⟨fun k hk => absurd hk not_mem_nil, .inl (le_refl _)⟩
  | leaf k d =>
    simp only [isBitstrPrefix_iff] at hg
    split at hg
    · obtain ⟨-, hle, -, hdisj⟩ := sibling_spec (mem_sortBitstrKeysByOrder.mp hg)
      refine ⟨fun k' hk' => ?_, .inr ⟨k, mem_singleton_self k, hle⟩⟩
      rwa [mem_singleton.mp hk']
    · next habove =>
      split at hg
      · cases hg
      · next hbelow =>
        rw [mem_singleton.mp hg]
        refine ⟨fun k' hk' hov => ?_, .inl (le_refl _)⟩
        rw [mem_singleton.mp hk'] at hov
        exact hov.elim habove hbelow
  | node b0 b1 =>
    obtain ⟨i, hi⟩ := mem_trieGapsAtDepth.mp hg
    have hgap : IsGap [] i (child b0 b1 i) g := branchGaps_sound (h.child i) hi
    obtain ⟨hdisj, hlong⟩ := hgap.of_child h
    exact ⟨hdisj, .inr hlong⟩

/-- **The gaps are sorted** in the order around the key. -/
theorem trieGaps_sorted (h : t.WF) (target : Bitstr)
    (hlen : ∀ k ∈ t.keys, bitLen k ≤ bitLen order) :
    (trieGaps t target order).Pairwise (XorBefore (bits order)) := by
  unfold trieGaps
  cases t with
  | emptyLeaf => exact pairwise_singleton _ _
  | leaf k d =>
    dsimp only
    split
    · exact sorted_siblings order (hlen k (mem_singleton_self k)) _
    · split
      · exact List.Pairwise.nil
      · exact pairwise_singleton _ _
  | node b0 b1 =>
    have hroot : (node b0 b1).WFAt [] := h
    refine trieGapsAtDepth_sorted hroot fun i => ?_
    exact branchGaps_sorted (h.child i) fun k hk => hlen k (mem_keys_of_child hk)

/-- **When all gaps are below the target.** -/
theorem trieGaps_extend_iff (order : K1) (h : t.WF) :
    (∀ g ∈ trieGaps t target order, target <+: g) ↔
      t.isLeaf = true ∨ TargetReached target t 0 := by
  unfold trieGaps
  cases t with
  | emptyLeaf => exact iff_of_true (by simp) (.inl rfl)
  | leaf k d =>
    refine iff_of_true (fun g hg => ?_) (.inl rfl)
    simp only [isBitstrPrefix_iff] at hg
    split at hg
    · next hpre =>
      have hbelow := (sibling_spec (mem_sortBitstrKeysByOrder.mp hg)).1
      rwa [← prefix_iff_eq_take.mp hpre] at hbelow
    · split at hg
      · cases hg
      · exact mem_singleton.mp hg ▸ prefix_rfl
  | node b0 b1 =>
    rw [targetReached_node, or_iff_right (by simp [isLeaf])]
    by_cases htarget : target.length ≤ 0
    · have hnil := eq_nil_of_length_eq_zero (Nat.le_zero.mp htarget)
      exact iff_of_true (fun g _ => hnil ▸ nil_prefix) (.inl htarget)
    · have hstep := prefix_step (k := target) nil_prefix (not_le.mp htarget)
      have hbranch := branchGaps_extend_iff order (h.child _) hstep
      simp only [mem_trieGapsAtDepth_above (not_le.mp htarget), or_iff_right htarget]
      exact hbranch

/-- **The law of `TrieGaps`.** The gaps are pairwise prefix-free, disjoint from the keys and sorted,
and an infinite string below the target starts with a key or with a gap, never with both. But the
gaps are below the target only if the walk towards it does not end early, and only then there is
none when a key covers the target. -/
theorem trieGaps_law (h : t.WF) (target : Bitstr) (order : K1)
    (hlen : ∀ k ∈ t.keys, bitLen k ≤ bitLen order) :
    (trieGaps t target order).Pairwise (fun g g' => ¬ Overlap g g') ∧
      (∀ g ∈ trieGaps t target order, ∀ k ∈ t.keys, ¬ Overlap g k) ∧
      (trieGaps t target order).Pairwise (XorBefore (bits order)) ∧
      (∀ x, StartsWith x target →
        ((∃ k ∈ t.keys, StartsWith x k) ∨ ∃ g ∈ trieGaps t target order, StartsWith x g) ∧
        ¬ ((∃ k ∈ t.keys, StartsWith x k) ∧ ∃ g ∈ trieGaps t target order, StartsWith x g)) ∧
      ((∀ g ∈ trieGaps t target order, target <+: g) ↔
        t.isLeaf = true ∨ TargetReached target t 0) ∧
      ((∃ k ∈ t.keys, k <+: target) →
        (trieGaps t target order = [] ↔ t.isLeaf = true ∨ TargetReached target t 0)) := by
  have hsorted := trieGaps_sorted h target hlen
  have hdisj : ∀ g ∈ trieGaps t target order, ∀ k ∈ t.keys, ¬ Overlap g k :=
    fun g hg => (trieGaps_sound h hg).1
  refine ⟨hsorted.imp XorBefore.not_overlap, hdisj, hsorted, fun x hx => ⟨?_, ?_⟩,
    trieGaps_extend_iff order h, fun hcov => ?_⟩
  · exact trieGaps_complete order h hx
  · rintro ⟨⟨k, hk, hxk⟩, g, hg, hxg⟩
    exact hdisj g hg k hk (hxg.overlap hxk)
  · rw [← trieGaps_extend_iff order h]
    constructor
    · intro hnil g hg
      exact absurd hg (hnil ▸ not_mem_nil)
    · -- a gap below the target would be below the key
      intro hall
      obtain ⟨k, hk, hpre⟩ := hcov
      refine eq_nil_iff_forall_not_mem.mpr fun g hg => hdisj g hg k hk ?_
      exact .inr (hpre.trans (hall g hg))

theorem trieGaps_law_reached :
    let t : Trie Bitstr Unit := .node (.leaf [false, true, true] ()) (.leaf [true] ())
    (∀ g ∈ trieGaps t [false] zeroKey, [false] <+: g) ↔
      t.isLeaf = true ∨ TargetReached [false] t 0 :=
  (trieGaps_law (by simp [Trie.WF, Trie.WFAt, entries]) [false] zeroKey
    (by rw [show bitLen zeroKey = 256 from zeroKey.length_bits]; decide)).2.2.2.2.1

/-- The gaps of `011` and `1` at `0110` are `00` and `010`: both are beside the target, although
the key `011` covers it. -/
theorem not_trieGaps_below_target :
    let t : Trie Bitstr Unit := .node (.leaf [false, true, true] ()) (.leaf [true] ())
    t.WF ∧ (∃ k ∈ t.keys, k <+: [false, true, true, false]) ∧
      trieGaps t [false, true, true, false] zeroKey = [[false, false], [false, true, false]] ∧
      ∀ g ∈ trieGaps t [false, true, true, false] zeroKey, ¬ [false, true, true, false] <+: g :=
  ⟨by simp [Trie.WF, Trie.WFAt, entries], by decide, by decide, by decide⟩

/-! ## `ExtendBinaryPrefix` -/

theorem mem_extendLoop {ps : List Bitstr} :
    g ∈ extendLoop n ps ↔ ∃ p ∈ ps, p <+: g ∧ g.length = p.length + n := by
  induction n generalizing ps with
  | zero =>
    constructor
    · exact fun hg => ⟨g, hg, prefix_rfl, rfl⟩
    · rintro ⟨p, hp, hpre, hlen⟩
      rwa [← hpre.eq_of_length hlen.symm]
  | succ n ih =>
    rw [extendLoop, ih]
    constructor
    · rintro ⟨q, hq, hpre, hlen⟩
      obtain ⟨p, hp, hqp⟩ := mem_flatMap.mp hq
      obtain ⟨b, rfl⟩ : ∃ b, q = p ++ [b] := by
        rcases mem_pair.mp hqp with rfl | rfl
        · exact ⟨false, rfl⟩
        · exact ⟨true, rfl⟩
      rw [length_append, length_singleton] at hlen
      exact ⟨p, hp, (prefix_append p [b]).trans hpre, by omega⟩
    · rintro ⟨p, hp, ⟨rest, rfl⟩, hlen⟩
      -- the first of the bits to add is the next one of the string
      rw [length_append] at hlen
      obtain ⟨b, rest, rfl⟩ := exists_cons_of_length_pos (by omega : 0 < rest.length)
      rw [length_cons] at hlen
      refine ⟨p ++ [b], mem_flatMap.mpr ⟨p, hp, ?_⟩, ⟨rest, by simp⟩, ?_⟩
      · cases b <;> simp
      · simp only [length_append, length_cons, length_nil]
        omega

/-- **`ExtendBinaryPrefix`** lists the strings of the given length below the prefix. -/
theorem mem_extendBinaryPrefix {pfx : Bitstr} {n : Int} {gs : List Bitstr}
    (h : extendBinaryPrefix pfx n = some gs) (hlen : (pfx.length : Int) ≤ n) :
    g ∈ gs ↔ pfx <+: g ∧ (g.length : Int) = n := by
  simp only [extendBinaryPrefix] at h
  rw [if_neg (by omega)] at h
  split at h
  · cases h
  · rw [← Option.some.inj h, mem_extendLoop]
    constructor
    · rintro ⟨p, hp, hpre, hg⟩
      rw [mem_singleton.mp hp] at hpre hg
      exact ⟨hpre, by omega⟩
    · rintro ⟨hpre, hg⟩
      exact ⟨pfx, mem_singleton_self _, hpre, by omega⟩

end KadDht
