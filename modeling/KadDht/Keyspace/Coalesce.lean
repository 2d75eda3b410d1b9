import KadDht.Keyspace.Trie
import KadDht.Lib.Cover

/-!
# Keyspace — coalescing and subtracting tries (`provider/internal/keyspace/trie.go`)

* **`covers_coalesceTrie`** — after coalescing, what the keys cover jointly is covered by one of
  them.
* **`subtractTrie_spec`** — the subtraction is exact.
-/

namespace KadDht

open BitKey List TrieLib Trie

/-! ## The functions of the source -/

section Model

variable [TrieLib] {D D0 D1 : Type}

/-- The end of `CoalesceTrie`, when both branches of a node are coalesced: siblings are replaced by
their parent. -/
def coalesceBranches [Inhabited D] (b0 b1 : Trie Bitstr D) : Trie Bitstr D :=
  match b0, b1 with
  | .leaf k0 _, .leaf k1 _ =>
    -- the common prefix ends one bit before the keys do
    if k0.length = k1.length ∧ commonPrefixLength k0 k1 + 1 = k0.length then
      TrieLib.add .emptyLeaf (k0.take (k0.length - 1)) default
    else .node b0 b1
  | _, _ => .node b0 b1

def coalesceTrie [Inhabited D] : Trie Bitstr D → Trie Bitstr D
  | .node b0 b1 => coalesceBranches (coalesceTrie b0) (coalesceTrie b1)
  | t => t

omit [TrieLib] in
theorem Trie.sizeOf_child_lt (b0 b1 : Trie Bitstr D) (b : Bool) :
    sizeOf (Trie.child b0 b1 b) < sizeOf (Trie.node b0 b1) := by
  cases b <;> simp only [child, node.sizeOf_spec] <;> omega

def subtractTrieAtDepth (t0 : Trie Bitstr D0) (t1 : Trie Bitstr D1) (res : Trie Bitstr D0)
    (depth : Nat) : Trie Bitstr D0 :=
  match t0, t1 with
  | .emptyLeaf, _ => res
  | t0, .emptyLeaf => TrieLib.addMany res (allEntries t0 zeroKey)
  | .leaf k0 d0, .leaf k1 _ => if !isBitstrPrefix k1 k0 then TrieLib.add res k0 d0 else res
  | .leaf k0 d0, .node b0 b1 =>
    if k0.length ≤ depth then TrieLib.add res k0 d0
    else subtractTrieAtDepth (.leaf k0 d0) (Trie.child b0 b1 (bit k0 depth)) res (depth + 1)
  | .node a0 a1, .leaf k1 d1 =>
    if k1.length ≤ depth then res
    else
      let b := bit k1 depth
      let res := TrieLib.addMany res (allEntries (Trie.child a0 a1 (!b)) zeroKey)
      subtractTrieAtDepth (Trie.child a0 a1 b) (.leaf k1 d1) res (depth + 1)
  | .node a0 a1, .node b0 b1 =>
    let res := subtractTrieAtDepth a0 b0 res (depth + 1)
    subtractTrieAtDepth a1 b1 res (depth + 1)
termination_by sizeOf t0 + sizeOf t1
decreasing_by
  · have hlt := Trie.sizeOf_child_lt b0 b1 (bit k0 depth)
    omega
  · have hlt := Trie.sizeOf_child_lt a0 a1 (bit k1 depth)
    omega
  · simp only [Trie.node.sizeOf_spec]
    omega
  · simp only [Trie.node.sizeOf_spec]
    omega

def subtractTrie (t0 : Trie Bitstr D0) (t1 : Trie Bitstr D1) : Trie Bitstr D0 :=
  subtractTrieAtDepth t0 t1 .emptyLeaf 0

end Model

/-! ## Coalescing -/

section Coalesce

variable {D : Type} {path : List Bool}

variable {t : Trie Bitstr D}

theorem Trie.WFAt.eq_leaf (h : t.WFAt path) (hmem : path ∈ t.keys) : ∃ d, t = .leaf path d := by
  obtain ⟨d, hd⟩ := mem_keys.mp hmem
  cases t with
  | emptyLeaf => cases hd
  | leaf k d' =>
    rw [entries_leaf, mem_singleton, Prod.mk.injEq] at hd
    exact ⟨d', by rw [hd.1]⟩
  | node b0 b1 =>
    exact absurd (h.length_lt hd) (lt_irrefl _)

theorem JointlyCovers.child {b0 b1 : Trie Bitstr D} {b : Bool} {p : Bitstr}
    (h : (node b0 b1).WFAt path) (hp : path ++ [b] <+: p)
    (hcov : JointlyCovers {k | k ∈ (node b0 b1).keys} p) :
    JointlyCovers {k | k ∈ (child b0 b1 b).keys} p := by
  intro x hx
  obtain ⟨k, hk, hxk⟩ := hcov x hx
  obtain ⟨d, hd⟩ := mem_keys.mp hk
  obtain ⟨b', hb'⟩ := exists_child_of_mem hd
  have hbit := ((startsWith_append_singleton b).mp (hx.of_prefix hp)).2
  have hbit' := ((startsWith_append_singleton b').mp
    (hxk.of_prefix ((h.child b').prefix_of_mem hb'))).2
  obtain rfl : b = b' := hbit.symm.trans hbit'
  exact ⟨k, mem_keys_of_mem hb', hxk⟩

variable [LeafTrieLib] [Inhabited D]

/-- Branches are merged exactly when each of them is a leaf with the shortest possible key. -/
theorem coalesceBranches_cases {b0 b1 : Trie Bitstr D} (h0 : b0.WFAt (path ++ [false]))
    (h1 : b1.WFAt (path ++ [true])) :
    (path ++ [false] ∈ b0.keys ∧ path ++ [true] ∈ b1.keys ∧
      coalesceBranches b0 b1 = .leaf path default) ∨
    (¬ (path ++ [false] ∈ b0.keys ∧ path ++ [true] ∈ b1.keys) ∧
      coalesceBranches b0 b1 = .node b0 b1) := by
  by_cases hleaves : path ++ [false] ∈ b0.keys ∧ path ++ [true] ∈ b1.keys
  · obtain ⟨d0, rfl⟩ := h0.eq_leaf hleaves.1
    obtain ⟨d1, rfl⟩ := h1.eq_leaf hleaves.2
    refine .inl ⟨hleaves.1, hleaves.2, ?_⟩
    have hcpl : commonPrefixLength (path ++ [false]) (path ++ [true]) = path.length :=
      commonPrefixLength_of_branches prefix_rfl prefix_rfl
    rw [coalesceBranches, if_pos ⟨by simp, by simp [hcpl]⟩, LeafTrieLib.add_emptyLeaf]
    simp
  · refine .inr ⟨hleaves, ?_⟩
    unfold coalesceBranches
    split
    · next k0 d0 k1 d1 =>
      rw [if_neg]
      rintro ⟨hlen, hcpl⟩
      have hpre0 : path ++ [false] <+: k0 := h0
      have hpre1 : path ++ [true] <+: k1 := h1
      -- keys of these lengths are no longer than the paths they hang at
      rw [commonPrefixLength_of_branches hpre0 hpre1] at hcpl
      have heq0 : path ++ [false] = k0 := hpre0.eq_of_length (by simpa using hcpl)
      have heq1 : path ++ [true] = k1 := hpre1.eq_of_length (by simpa [← hlen] using hcpl)
      apply hleaves
      rw [heq0, heq1]
      exact ⟨mem_singleton_self _, mem_singleton_self _⟩
    · rfl

/-- The coalesced trie hangs at the same path, is empty only if the trie was, and has no key that
the keys of the trie do not cover jointly. -/
theorem coalesceTrie_sound (h : t.WFAt path) :
    (coalesceTrie t).WFAt path ∧ (t.entries ≠ [] → (coalesceTrie t).entries ≠ []) ∧
      ∀ r ∈ (coalesceTrie t).keys, JointlyCovers {k | k ∈ t.keys} r := by
  induction t generalizing path with
  | emptyLeaf => exact ⟨trivial, id, by simp [coalesceTrie]⟩
  | leaf k d => exact ⟨h, id, fun r hr => jointlyCovers_of_prefix hr prefix_rfl⟩
  | node b0 b1 ih0 ih1 =>
    obtain ⟨hwf0, hne0, hcov0⟩ := ih0 h.1
    obtain ⟨hwf1, hne1, hcov1⟩ := ih1 h.2.1
    have hup0 : ∀ k ∈ b0.keys, k ∈ (node b0 b1).keys := fun k hk =>
      mem_keys_of_child (b := false) hk
    have hup1 : ∀ k ∈ b1.keys, k ∈ (node b0 b1).keys := fun k hk =>
      mem_keys_of_child (b := true) hk
    rw [coalesceTrie]
    rcases coalesceBranches_cases hwf0 hwf1 with ⟨hmem0, hmem1, heq⟩ | ⟨-, heq⟩
    · rw [heq]
      refine ⟨prefix_rfl, by simp, fun r hr => ?_⟩
      -- the parent is covered because both siblings are
      obtain rfl : r = path := mem_singleton.mp hr
      refine jointlyCovers_step.mpr fun b => ?_
      cases b with
      | false => exact (hcov0 _ hmem0).mono hup0
      | true => exact (hcov1 _ hmem1).mono hup1
    · rw [heq]
      refine ⟨⟨hwf0, hwf1, h.2.2.imp hne0 hne1⟩, fun _ => ?_, fun r hr => ?_⟩
      · exact Trie.WFAt.entries_ne_nil ⟨hwf0, hwf1, h.2.2.imp hne0 hne1⟩
      · obtain ⟨d, hd⟩ := mem_keys.mp hr
        rcases mem_append.mp hd with hd | hd
        · exact (hcov0 r (mem_keys_of_mem hd)).mono hup0
        · exact (hcov1 r (mem_keys_of_mem hd)).mono hup1

/-- A prefix that some keys cover together is covered by one key afterwards. Bottom up: a node both
sides of which are covered becomes a leaf. -/
theorem coalesceTrie_complete (h : t.WFAt path) {p : Bitstr} (hp : path <+: p)
    (hcov : JointlyCovers {k | k ∈ t.keys} p) : ∃ r ∈ (coalesceTrie t).keys, r <+: p := by
  induction t generalizing path p with
  | emptyLeaf => exact absurd hcov (not_jointlyCovers_of_empty fun r hr => by cases hr)
  | leaf k d =>
    have hsingle : {k' | k' ∈ (leaf k d).keys} = ({k} : Set Bitstr) := by
      ext k'
      exact mem_singleton
    rw [hsingle, jointlyCovers_singleton] at hcov
    exact ⟨k, mem_singleton_self k, hcov⟩
  | node b0 b1 ih0 ih1 =>
    have hwf0 := (coalesceTrie_sound h.1).1
    have hwf1 := (coalesceTrie_sound h.2.1).1
    have hchild : ∀ b q, path ++ [b] <+: q → JointlyCovers {k | k ∈ (node b0 b1).keys} q →
        ∃ r ∈ (coalesceTrie (child b0 b1 b)).keys, r <+: q := by
      intro b q hq hcovq
      have hcov' := JointlyCovers.child h hq hcovq
      cases b with
      | false => exact ih0 h.1 hq hcov'
      | true => exact ih1 h.2.1 hq hcov'
    rw [coalesceTrie]
    obtain ⟨rest, rfl⟩ := hp
    cases rest with
    | nil =>
      -- both halves are covered, so both branches become leaves
      rw [append_nil] at hcov ⊢
      have hhalf : ∀ b, path ++ [b] ∈ (coalesceTrie (child b0 b1 b)).keys := by
        intro b
        obtain ⟨r, hr, hpre⟩ := hchild b _ prefix_rfl (jointlyCovers_step.mp hcov b)
        obtain ⟨d, hd⟩ := mem_keys.mp hr
        have hat := (coalesceTrie_sound (h.child b)).1.prefix_of_mem hd
        exact prefix_antisymm hat hpre ▸ hr
      rcases coalesceBranches_cases hwf0 hwf1 with ⟨-, -, heq⟩ | ⟨hnot, -⟩
      · rw [heq]
        exact ⟨path, mem_singleton_self path, prefix_rfl⟩
      · exact absurd ⟨hhalf false, hhalf true⟩ hnot
    | cons b rest =>
      have hpath : path ++ [b] <+: path ++ b :: rest := ⟨rest, by simp⟩
      obtain ⟨r, hr, hpre⟩ := hchild b _ hpath hcov
      rcases coalesceBranches_cases hwf0 hwf1 with ⟨-, -, heq⟩ | ⟨-, heq⟩
      · rw [heq]
        exact ⟨path, mem_singleton_self path, prefix_append _ _⟩
      · rw [heq]
        refine ⟨r, ?_, hpre⟩
        apply mem_keys_of_child (b := b)
        cases b <;> exact hr

/-- **`CoalesceTrie`.** A prefix lies below a key of the coalesced trie exactly when the keys of
the trie cover it jointly. -/
theorem covers_coalesceTrie (h : t.WF) (p : Bitstr) :
    (∃ r ∈ (coalesceTrie t).keys, r <+: p) ↔ JointlyCovers {k | k ∈ t.keys} p := by
  constructor
  · rintro ⟨r, hr, hpre⟩
    exact ((coalesceTrie_sound h).2.2 r hr).extend hpre
  · exact coalesceTrie_complete h nil_prefix

end Coalesce

/-! ## Subtracting -/

section Subtract

variable {D0 D1 : Type} {path : List Bool}

section Adding

variable [TrieLib] {res t : Trie Bitstr D0}

theorem add_disjoint (hres : res.WF) {k : Bitstr} (d : D0) (hdisj : ∀ r ∈ res.keys, ¬ Overlap r k) :
    (add res k d).WF ∧ ∀ p, p ∈ (add res k d).keys ↔ p ∈ res.keys ∨ p = k := by
  have hacc : res.Accepts k := fun r hr hov => absurd hov (hdisj r hr)
  exact ⟨add_wf d hres hacc, fun p => mem_keys_add d p hres hacc⟩

theorem addMany_disjoint (hres : res.WF) (ht : t.WFAt path)
    (hdisj : ∀ r ∈ res.keys, ∀ k ∈ t.keys, ¬ Overlap r k) :
    (addMany res (allEntries t zeroKey)).WF ∧
      ∀ p, p ∈ (addMany res (allEntries t zeroKey)).keys ↔ p ∈ res.keys ∨ p ∈ t.keys := by
  have hperm := allEntries_perm t zeroKey
  have hkeys : ∀ e ∈ allEntries t zeroKey, e.1 ∈ t.keys := fun e he =>
    mem_keys_of_mem (hperm.mem_iff.mp he)
  have hacc : res.AcceptsAll (allEntries t zeroKey) :=
    ⟨fun e he r hr hov => absurd hov (hdisj r hr e.1 (hkeys e he)), fun e he e' he' hov =>
      ht.eq_of_overlap (hkeys e he) (hkeys e' he') hov⟩
  refine ⟨addMany_wf hres hacc, fun p => ?_⟩
  rw [mem_keys_addMany p hres hacc, (hperm.map Prod.fst).mem_iff]
  rfl

end Adding

structure Subtracted (t0 : Trie Bitstr D0) (t1 : Trie Bitstr D1) (res res' : Trie Bitstr D0) :
    Prop where
  wf : res'.WF
  mem_iff : ∀ p, p ∈ res'.keys ↔
    p ∈ res.keys ∨ (p ∈ t0.keys ∧ ∀ r ∈ t1.keys, ¬ r <+: p)

theorem not_prefix_of_branches {D D' : Type} {t : Trie Bitstr D} {t' : Trie Bitstr D'} {b : Bool}
    (h : t.WFAt (path ++ [b])) (h' : t'.WFAt (path ++ [!b])) {k k' : Bitstr} (hk : k ∈ t.keys)
    (hk' : k' ∈ t'.keys) : ¬ Overlap k k' :=
  not_overlap_of_branches (h.prefix_of_mem_keys hk) (h'.prefix_of_mem_keys hk')

variable {t1 : Trie Bitstr D1}

theorem subtracted_none {t0 res : Trie Bitstr D0} (hres : res.WF)
    (hbelow : ∀ p ∈ t0.keys, ∃ r ∈ t1.keys, r <+: p) : Subtracted t0 t1 res res := by
  refine ⟨hres, fun p => ⟨.inl, ?_⟩⟩
  rintro (hp | ⟨hp, hnone⟩)
  · exact hp
  · obtain ⟨r, hr, hpre⟩ := hbelow p hp
    exact absurd hpre (hnone r hr)

theorem subtracted_leaf [TrieLib] {res : Trie Bitstr D0} {k0 : Bitstr} {d0 : D0} (hres : res.WF)
    (hdisj : ∀ r ∈ res.keys, ∀ k ∈ (leaf k0 d0).keys, ¬ Overlap r k)
    (hnone : ∀ r ∈ t1.keys, ¬ r <+: k0) :
    Subtracted (.leaf k0 d0) t1 res (add res k0 d0) := by
  obtain ⟨hwf, hmem⟩ := add_disjoint hres d0 fun r hr =>
    hdisj r hr k0 (mem_singleton_self k0)
  refine ⟨hwf, fun p => ?_⟩
  rw [hmem]
  refine or_congr_right ⟨fun hp => ?_, fun hp => mem_singleton.mp hp.1⟩
  exact ⟨mem_singleton.mpr hp, hp ▸ hnone⟩

theorem forall_child_iff {b0 b1 : Trie Bitstr D1} (h1 : (node b0 b1).WFAt path) {b : Bool}
    {p : Bitstr} (hp : path ++ [b] <+: p) :
    (∀ r ∈ (child b0 b1 b).keys, ¬ r <+: p) ↔ ∀ r ∈ (node b0 b1).keys, ¬ r <+: p := by
  refine ⟨fun hnone r hr => ?_, fun hnone r hr => hnone r (mem_keys_of_child hr)⟩
  rcases (mem_keys_node b).mp hr with hr | hr
  · exact hnone r hr
  · -- keys on the other branch lead elsewhere
    intro hpre
    have hother := (h1.child (!b)).prefix_of_mem_keys hr
    exact not_overlap_of_branches hp (hother.trans hpre) (Overlap.refl p)

/-- **One call**, at tries that hang at the same path. -/
theorem subtracted_atDepth [TrieLib] (t0 : Trie Bitstr D0) (t1 : Trie Bitstr D1)
    (res : Trie Bitstr D0) (h0 : t0.WFAt path) (h1 : t1.WFAt path) (hres : res.WF)
    (hdisj : ∀ r ∈ res.keys, ∀ k ∈ t0.keys, ¬ Overlap r k) :
    Subtracted t0 t1 res (subtractTrieAtDepth t0 t1 res path.length) := by
  generalize hdepth : path.length = depth
  fun_induction subtractTrieAtDepth t0 t1 res depth generalizing path with
  | case1 t1 res depth =>
    -- nothing to subtract from
    exact ⟨hres, by simp⟩
  | case2 res depth t0 hne =>
    -- nothing to subtract
    obtain ⟨hwf, hmem⟩ := addMany_disjoint hres h0 hdisj
    refine ⟨hwf, fun p => ?_⟩
    rw [hmem]
    simp
  | case3 res depth k0 d0 k1 d1 hnot =>
    rw [Bool.not_eq_true', Bool.eq_false_iff, ne_eq, isBitstrPrefix_iff] at hnot
    apply subtracted_leaf hres hdisj
    intro r hr
    rwa [mem_singleton.mp hr]
  | case4 res depth k0 d0 k1 d1 hpre =>
    rw [Bool.not_eq_true', Bool.not_eq_false, isBitstrPrefix_iff] at hpre
    apply subtracted_none hres
    intro p hp
    exact ⟨k1, mem_singleton_self k1, mem_singleton.mp hp ▸ hpre⟩
  | case5 res depth k0 d0 b0 b1 hle =>
    -- the key ends where the trie to subtract branches
    apply subtracted_leaf hres hdisj
    intro r hr hpre
    obtain ⟨d, hd⟩ := mem_keys.mp hr
    have hlong : path.length < r.length := h1.length_lt hd
    have hshort := hpre.length_le
    omega
  | case6 res depth k0 d0 b0 b1 hgt ih =>
    have hat : path ++ [bit k0 depth] <+: k0 := by
      rw [← hdepth]
      exact prefix_step (k := k0) h0 (by rw [hdepth]; exact not_le.mp hgt)
    have hsub := ih (show (leaf k0 d0).WFAt (path ++ [bit k0 depth]) from hat) (h1.child _)
      hres hdisj
      (by rw [length_append, length_singleton, hdepth])
    refine ⟨hsub.wf, fun p => ?_⟩
    rw [hsub.mem_iff]
    refine or_congr_right (and_congr_right fun hp => ?_)
    obtain rfl : p = k0 := mem_singleton.mp hp
    exact forall_child_iff h1 hat
  | case7 res depth a0 a1 k1 d1 hle =>
    -- everything lies below the key
    have hat : path <+: k1 := h1
    have heq : path = k1 := hat.eq_of_length (le_antisymm hat.length_le (by omega))
    apply subtracted_none hres
    intro p hp
    exact ⟨k1, mem_singleton_self k1, heq ▸ h0.prefix_of_mem_keys hp⟩
  | case8 res depth a0 a1 k1 d1 hgt b res₁ =>
    rename_i ih
    have hat : path ++ [b] <+: k1 := by
      rw [← hdepth] at hgt
      have hstep := prefix_step (k := k1) h1 (not_le.mp hgt)
      rwa [hdepth] at hstep
    obtain ⟨hwf₁, hmem₁⟩ := addMany_disjoint hres (h0.child (!b)) fun r hr k hk =>
      hdisj r hr k (mem_keys_of_child hk)
    have hsub := ih (h0.child b) hat hwf₁ (fun r hr k hk => ?_)
      (by rw [length_append, length_singleton, hdepth])
    · refine ⟨hsub.wf, fun p => ?_⟩
      rw [hsub.mem_iff, hmem₁, or_assoc, mem_keys_node b, or_and_right]
      refine or_congr_right ?_
      rw [or_comm]
      refine or_congr_right ⟨fun hp => ⟨hp, fun r hr hpre => ?_⟩, And.left⟩
      -- keys on the other branch do not lie below the key
      rw [mem_singleton.mp hr] at hpre
      exact not_overlap_of_branches hat ((h0.child (!b)).prefix_of_mem_keys hp) (.inl hpre)
    · rcases (hmem₁ r).mp hr with hr | hr
      · exact hdisj r hr k (mem_keys_of_child hk)
      · exact fun hov => not_prefix_of_branches (h0.child b) (h0.child (!b)) hk hr hov.symm
  | case9 res depth a0 a1 b0 b1 res₁ ih0 =>
    rename_i ih1
    have hlen : ∀ b : Bool, (path ++ [b]).length = depth + 1 := fun b => by
      rw [length_append, length_singleton, hdepth]
    have hsub₀ := ih0 (h0.child false) (h1.child false) hres
      (fun r hr k hk => hdisj r hr k (mem_keys_of_child (b := false) hk)) (hlen false)
    have hsub₁ := ih1 (h0.child true) (h1.child true) hsub₀.wf (fun r hr k hk => ?_) (hlen true)
    · refine ⟨hsub₁.wf, fun p => ?_⟩
      rw [hsub₁.mem_iff, hsub₀.mem_iff, or_assoc, mem_keys_node false, or_and_right]
      have hbranch : ∀ b, p ∈ (child a0 a1 b).keys →
          ((∀ r ∈ (child b0 b1 b).keys, ¬ r <+: p) ↔
            ∀ r ∈ (node b0 b1).keys, ¬ r <+: p) :=
        fun b hp => forall_child_iff h1 ((h0.child b).prefix_of_mem_keys hp)
      exact or_congr_right (or_congr (and_congr_right fun hp => hbranch false hp)
        (and_congr_right fun hp => hbranch true hp))
    · rcases (hsub₀.mem_iff r).mp hr with hr | hr
      · exact hdisj r hr k (mem_keys_of_child (b := true) hk)
      · exact not_prefix_of_branches h0.1 h0.2.1 hr.1 hk

/-- **`SubtractTrie`.** What is left are the keys that no key of the other trie is a prefix of. -/
theorem subtractTrie_spec [TrieLib] {t0 : Trie Bitstr D0} (h0 : t0.WF) (h1 : t1.WF) :
    (subtractTrie t0 t1).WF ∧
      ∀ p, p ∈ (subtractTrie t0 t1).keys ↔ p ∈ t0.keys ∧ ∀ r ∈ t1.keys, ¬ r <+: p := by
  have hsub := subtracted_atDepth t0 t1 .emptyLeaf h0 h1 wf_emptyLeaf (by simp)
  refine ⟨hsub.wf, fun p => ?_⟩
  have hmem := hsub.mem_iff p
  rw [subtractTrie]
  simpa using hmem

end Subtract

end KadDht
