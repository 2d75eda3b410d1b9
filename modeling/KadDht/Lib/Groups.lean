import KadDht.Lib.PrefixList

/-!
# Lib — ordered groups of keys

What a batching queue is for: keys that will be handled together are kept in one group, named
by the prefix their locations share, and the groups wait in line. This is stated on lists of
groups, over an arbitrary type of keys located in an arbitrary string space.

* **`Groups.enqueue`**, **`Groups.removeKeys`** — keys come and go.
* **`groupsOf`** — the groups that a list of disjoint prefixes makes out of a set of keys, and what
  each operation is on such a representation.
-/

namespace KadDht

open List

@[ext]
structure Group (α κ : Type*) where
  pfx : List α
  keys : Set κ

namespace Groups

variable {α κ : Type*} [DecidableEq α]

def enqueue (g : List (Group α κ)) (p : List α) (ks : Set κ) : List (Group α κ) :=
  if ∃ x ∈ g, x.pfx <+: p then
    g.map fun x => if x.pfx <+: p then ⟨x.pfx, x.keys ∪ ks⟩ else x
  else if ∃ x ∈ g, p <+: x.pfx then
    -- all groups below `p` merge at the position of the first of them
    let i := g.findIdx fun x => p.isPrefixOf x.pfx
    g.take i ++ ⟨p, ks ∪ {k | ∃ x ∈ g, p <+: x.pfx ∧ k ∈ x.keys}⟩ ::
      (g.drop (i + 1)).filter fun x => !p.isPrefixOf x.pfx
  else g ++ [⟨p, ks⟩]

open Classical in
/-- Keys leave the line; groups without keys are dropped. -/
noncomputable def removeKeys (g : List (Group α κ)) (ks : Set κ) : List (Group α κ) :=
  (g.map fun x => ⟨x.pfx, x.keys \ ks⟩).filter fun x => x.keys.Nonempty

/-- Groups are disjoint and not empty, and a key waits in a group that covers its location. -/
structure WF (loc : κ → List α) (g : List (Group α κ)) : Prop where
  nodup : (g.map Group.pfx).Nodup
  free : PrefixFree {p | p ∈ g.map Group.pfx}
  nonempty : ∀ x ∈ g, x.keys.Nonempty
  located : ∀ x ∈ g, ∀ k ∈ x.keys, x.pfx <+: loc k

end Groups

def groupsOf {α κ : Type*} (loc : κ → List α) (l : List (List α)) (s : Set κ) :
    List (Group α κ) :=
  l.map fun p => ⟨p, {k | k ∈ s ∧ p <+: loc k}⟩

section Representation

variable {α κ : Type*} {loc : κ → List α} {l : List (List α)} {s : Set κ}

theorem mem_groupsOf (x : Group α κ) :
    x ∈ groupsOf loc l s ↔ x.pfx ∈ l ∧ x.keys = {k | k ∈ s ∧ x.pfx <+: loc k} := by
  unfold groupsOf
  rw [mem_map]
  constructor
  · rintro ⟨p, hp, rfl⟩
    exact ⟨hp, rfl⟩
  · rintro ⟨hp, hkeys⟩
    exact ⟨x.pfx, hp, Group.ext rfl hkeys.symm⟩

theorem exists_mem_groupsOf (P : List α → Prop) :
    (∃ x ∈ groupsOf loc l s, P x.pfx) ↔ ∃ p ∈ l, P p := by
  unfold groupsOf
  simp

theorem exists_mem_groupsOf_of_covers (hcov : ∀ k ∈ s, Covers {p | p ∈ l} (loc k)) :
    ∀ k ∈ s, ∃ x ∈ groupsOf loc l s, k ∈ x.keys := by
  intro k hk
  obtain ⟨p, hp, hpk⟩ := hcov k hk
  have hgroup : ⟨p, {k | k ∈ s ∧ p <+: loc k}⟩ ∈ groupsOf loc l s := (mem_groupsOf _).mpr ⟨hp, rfl⟩
  exact ⟨_, hgroup, hk, hpk⟩

/-- The groups of disjoint prefixes that all have a key are well-formed. -/
theorem wf_groupsOf (hnodup : l.Nodup) (hfree : PrefixFree {p | p ∈ l})
    (hne : ∀ p ∈ l, ∃ k ∈ s, p <+: loc k) : Groups.WF loc (groupsOf loc l s) := by
  have hmap : (groupsOf loc l s).map Group.pfx = l := by
    unfold groupsOf
    rw [map_map]
    exact map_id' l
  refine ⟨by rwa [hmap], by rwa [hmap], fun x hx => ?_, fun x hx k hk => ?_⟩
  · obtain ⟨hp, hkeys⟩ := (mem_groupsOf x).mp hx
    obtain ⟨k, hk, hpre⟩ := hne x.pfx hp
    exact ⟨k, hkeys ▸ ⟨hk, hpre⟩⟩
  · rw [((mem_groupsOf x).mp hx).2] at hk
    exact hk.2

theorem groupsOf_congr {s' : Set κ} (h : ∀ p ∈ l, ∀ k, p <+: loc k → (k ∈ s ↔ k ∈ s')) :
    groupsOf loc l s = groupsOf loc l s' := by
  refine map_congr_left fun p hp => Group.ext rfl (Set.ext fun k => ?_)
  exact and_congr_left fun hpre => h p hp k hpre

theorem groupsOf_cons {p : List α} (hnodup : (p :: l).Nodup)
    (hfree : PrefixFree {x | x ∈ p :: l}) :
    groupsOf loc (p :: l) s
      = ⟨p, {k | k ∈ s ∧ p <+: loc k}⟩ :: groupsOf loc l (s \ {k | p <+: loc k}) := by
  unfold groupsOf
  rw [map_cons, cons_inj_right]
  refine groupsOf_congr fun x hx k hpre => ?_
  -- a key under another prefix is not under the first one
  have hnot : ¬ p <+: loc k := fun hp => by
    have heq := hfree.unique (mem_cons_of_mem p hx) mem_cons_self hpre hp
    exact (nodup_cons.mp hnodup).1 (heq ▸ hx)
  exact ⟨fun hk => ⟨hk, hnot⟩, And.left⟩

open Classical in
theorem removeKeys_groupsOf (ks : Set κ) {hasKey : List α → Bool}
    (hkey : ∀ p ∈ l, hasKey p = true ↔ ∃ k ∈ s \ ks, p <+: loc k) :
    Groups.removeKeys (groupsOf loc l s) ks = groupsOf loc (l.filter hasKey) (s \ ks) := by
  have hkeys : ∀ p : List α, ({k | k ∈ s ∧ p <+: loc k} \ ks : Set κ)
      = {k | k ∈ s \ ks ∧ p <+: loc k} := by
    intro p
    ext k
    simp only [Set.mem_sdiff, Set.mem_ofPred_eq]
    exact and_right_comm
  unfold Groups.removeKeys groupsOf
  rw [map_map, filter_map]
  refine (congrArg _ (filter_congr fun p hp => ?_)).trans
    (map_congr_left fun p _ => Group.ext rfl (hkeys p))
  rw [Bool.eq_iff_iff, hkey p hp, Function.comp_apply, decide_eq_true_iff]
  show Set.Nonempty ({k | k ∈ s ∧ p <+: loc k} \ ks) ↔ _
  rw [hkeys]
  rfl

/-- A key under a prefix that no member covers, but that is covered itself, lies under a member
below the prefix. -/
theorem exists_below_of_covers {p : List α} {k : List α} (hn : ¬ ∃ x ∈ l, x <+: p)
    (hk : Covers {x | x ∈ l} k) (hpk : p <+: k) : ∃ x ∈ l, p <+: x ∧ x <+: k := by
  obtain ⟨x, hx, hxk⟩ := hk
  rcases overlap_of_prefixes hxk hpk with hxp | hpx
  · exact absurd ⟨x, hx, hxp⟩ hn
  · exact ⟨x, hx, hpx, hxk⟩

theorem groupsOf_union_of_disjoint {p : List α} {ks : Set κ} (hks : ∀ k ∈ ks, p <+: loc k)
    (hdis : ∀ x ∈ l, ¬ Overlap x p) : groupsOf loc l (s ∪ ks) = groupsOf loc l s := by
  refine groupsOf_congr fun x hx k hxk => ?_
  rw [Set.mem_union, or_iff_left]
  exact fun hk => hdis x hx (overlap_of_prefixes hxk (hks k hk))

section Enqueue

variable [DecidableEq α] {p : List α} {ks : Set κ}

theorem enqueue_groupsOf_of_covered (hfree : PrefixFree {x | x ∈ l}) (hks : ∀ k ∈ ks, p <+: loc k)
    (habove : ∃ x ∈ l, x <+: p) :
    Groups.enqueue (groupsOf loc l s) p ks = groupsOf loc l (s ∪ ks) := by
  rw [Groups.enqueue, if_pos ((exists_mem_groupsOf (· <+: p)).mpr habove)]
  obtain ⟨y, hy, hyp⟩ := habove
  unfold groupsOf
  rw [map_map]
  refine map_congr_left fun x hx => ?_
  by_cases hxp : x <+: p
  · -- all new keys lie under `p`, hence under `x`
    refine (if_pos hxp).trans (Group.ext rfl (Set.ext fun k => ?_))
    show (k ∈ s ∧ x <+: loc k) ∨ k ∈ ks ↔ (k ∈ s ∨ k ∈ ks) ∧ x <+: loc k
    have hnew : k ∈ ks → x <+: loc k := fun hk => hxp.trans (hks k hk)
    tauto
  · -- the new keys lie under `y`, hence not under `x`
    refine (if_neg hxp).trans (Group.ext rfl (Set.ext fun k => ?_))
    show k ∈ s ∧ x <+: loc k ↔ (k ∈ s ∨ k ∈ ks) ∧ x <+: loc k
    have hnew : k ∈ ks → ¬ x <+: loc k := fun hk hxk =>
      hxp (hfree.unique hx hy hxk (hyp.trans (hks k hk)) ▸ hyp)
    tauto

/-- A prefix above some of the listed ones takes their place, at the position of the first of them,
with all their keys. -/
theorem enqueue_groupsOf_of_below (hcov : ∀ k ∈ s, Covers {x | x ∈ l} (loc k))
    (hks : ∀ k ∈ ks, p <+: loc k) (habove : ¬ ∃ x ∈ l, x <+: p) (hbelow : ∃ x ∈ l, p <+: x) :
    Groups.enqueue (groupsOf loc l s) p ks = groupsOf loc (pushPrefix l p) (s ∪ ks) := by
  rw [Groups.enqueue, if_neg (mt (exists_mem_groupsOf (· <+: p)).mp habove),
    if_pos ((exists_mem_groupsOf (p <+: ·)).mpr hbelow)]
  obtain ⟨hlt, heq⟩ := pushPrefix_of_below hbelow
  rw [heq, insertIdx_findIdx_filter _ l p hlt]
  set i := l.findIdx (p.isPrefixOf ·) with hi
  have hidx : (groupsOf loc l s).findIdx (fun x => p.isPrefixOf x.pfx) = i := by
    unfold groupsOf
    rw [findIdx_map]
    rfl
  have hkept : ∀ x ∈ l.filter (fun x => !p.isPrefixOf x), ¬ Overlap x p := by
    intro x hx hov
    rw [mem_filter, not_isPrefixOf_iff] at hx
    rcases hov with hxp | hpx
    · exact habove ⟨x, hx.1, hxp⟩
    · exact hx.2 hpx
  rw [filter_eq_take_append_drop (p.isPrefixOf ·) l hlt, ← hi] at hkept
  have hfront := groupsOf_union_of_disjoint (s := s) hks fun x hx =>
    hkept x (mem_append_left _ hx)
  have hback := groupsOf_union_of_disjoint (s := s) hks fun x hx =>
    hkept x (mem_append_right _ hx)
  -- the keys under `p` are the new ones and those of the groups below it
  have hmerged : ks ∪ {k | ∃ x ∈ groupsOf loc l s, p <+: x.pfx ∧ k ∈ x.keys}
      = {k | k ∈ s ∪ ks ∧ p <+: loc k} := by
    ext k
    constructor
    · rintro (hk | ⟨x, hx, hpx, hk⟩)
      · exact ⟨.inr hk, hks k hk⟩
      · rw [((mem_groupsOf x).mp hx).2] at hk
        exact ⟨.inl hk.1, hpx.trans hk.2⟩
    · rintro ⟨hk | hk, hpk⟩
      · obtain ⟨x, hx, hpx, hxk⟩ := exists_below_of_covers habove (hcov k hk) hpk
        have hgroup : ⟨x, {k | k ∈ s ∧ x <+: loc k}⟩ ∈ groupsOf loc l s :=
          (mem_groupsOf _).mpr ⟨hx, rfl⟩
        exact .inr ⟨_, hgroup, hpx, hk, hxk⟩
      · exact .inl hk
  simp only [hidx, hmerged]
  conv_rhs => rw [groupsOf, map_append, map_cons]
  refine congrArg₂ _ ?_ (congrArg _ ?_)
  · exact map_take.symm.trans hfront.symm
  · refine Eq.trans ?_ hback.symm
    rw [groupsOf, ← map_drop, filter_map]
    rfl

theorem enqueue_groupsOf_of_fresh (hcov : ∀ k ∈ s, Covers {x | x ∈ l} (loc k))
    (hks : ∀ k ∈ ks, p <+: loc k) (habove : ¬ ∃ x ∈ l, x <+: p) (hbelow : ¬ ∃ x ∈ l, p <+: x) :
    Groups.enqueue (groupsOf loc l s) p ks = groupsOf loc (l ++ [p]) (s ∪ ks) := by
  rw [Groups.enqueue, if_neg (mt (exists_mem_groupsOf (· <+: p)).mp habove),
    if_neg (mt (exists_mem_groupsOf (p <+: ·)).mp hbelow)]
  have hold := groupsOf_union_of_disjoint (s := s) (l := l) hks fun x hx hov => by
    rcases hov with hxp | hpx
    · exact habove ⟨x, hx, hxp⟩
    · exact hbelow ⟨x, hx, hpx⟩
  have hnew : {k | k ∈ s ∪ ks ∧ p <+: loc k} = ks := by
    ext k
    constructor
    · rintro ⟨hk | hk, hpk⟩
      · obtain ⟨x, hx, hpx, -⟩ := exists_below_of_covers habove (hcov k hk) hpk
        exact absurd ⟨x, hx, hpx⟩ hbelow
      · exact hk
    · exact fun hk => ⟨.inr hk, hks k hk⟩
  rw [← hold]
  unfold groupsOf
  rw [map_append, map_singleton, hnew]

/-- **Enqueueing on the representation** is pushing the prefix and adding the keys. -/
theorem enqueue_groupsOf (hnodup : l.Nodup) (hfree : PrefixFree {x | x ∈ l})
    (hcov : ∀ k ∈ s, Covers {x | x ∈ l} (loc k)) (hks : ∀ k ∈ ks, p <+: loc k) :
    Groups.enqueue (groupsOf loc l s) p ks = groupsOf loc (pushPrefix l p) (s ∪ ks) := by
  by_cases habove : ∃ x ∈ l, x <+: p
  · rw [pushPrefix_eq_self hfree hnodup habove]
    exact enqueue_groupsOf_of_covered hfree hks habove
  · by_cases hbelow : ∃ x ∈ l, p <+: x
    · exact enqueue_groupsOf_of_below hcov hks habove hbelow
    · rw [pushPrefix_of_fresh (fun x hx h => hbelow ⟨x, hx, h⟩) fun x hx h => habove ⟨x, hx, h⟩]
      exact enqueue_groupsOf_of_fresh hcov hks habove hbelow

end Enqueue

end Representation

end KadDht
