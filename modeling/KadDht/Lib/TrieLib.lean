import KadDht.Lib.Trie

/-!
# Lib — the operations a trie library offers

Programs that work on binary tries get insertion, removal and lookup from a library.
`TrieLib` names these operations together with what their documentation promises on
well-formed tries: an operation keeps the representation invariant and changes the stored
entries by exactly the key it was given. Everything is stated for keys the trie
`Accepts` — keys that overlap no stored key but themselves; outside of that the library reads
bits past the end of a key, and nothing is promised.

`binaryTrie` is the textbook implementation. It shows that the promises can be kept, and it is what
concrete runs are evaluated with.
-/

namespace KadDht

open BitKey List Trie

/-- Entries that can be added to a trie together: each is accepted, and among themselves they
overlap only when their keys are equal. -/
def Trie.AcceptsAll {K D : Type} [BitKey K] (t : Trie K D) (es : List (K × D)) : Prop :=
  (∀ e ∈ es, t.Accepts e.1) ∧
    ∀ e ∈ es, ∀ e' ∈ es, Overlap (bits e.1) (bits e'.1) → e.1 = e'.1

theorem Trie.mem_keys_of_insert {K D : Type} {t t' : Trie K D} {k : K} {d : D}
    (h : ∀ e, e ∈ t'.entries ↔ e ∈ t.entries ∨ (k ∉ t.keys ∧ e = (k, d))) (k' : K) :
    k' ∈ t'.keys ↔ k' ∈ t.keys ∨ k' = k := by
  simp only [mem_keys, h, Prod.mk.injEq]
  constructor
  · rintro ⟨d', hd' | ⟨-, rfl, -⟩⟩
    · exact .inl ⟨d', hd'⟩
    · exact .inr rfl
  · rintro (⟨d', hd'⟩ | rfl)
    · exact ⟨d', .inl hd'⟩
    · by_cases hmem : ∃ d', (k', d') ∈ t.entries
      · obtain ⟨d', hd'⟩ := hmem
        exact ⟨d', .inl hd'⟩
      · exact ⟨d, .inr ⟨hmem, rfl, rfl⟩⟩

/-- The operations of a trie library and what they promise. `addMany` does not promise which
of two new entries with the same key is kept. -/
class TrieLib where
  add {K D : Type} [BitKey K] : Trie K D → K → D → Trie K D
  addMany {K D : Type} [BitKey K] : Trie K D → List (K × D) → Trie K D
  remove {K D : Type} [BitKey K] : Trie K D → K → Trie K D
  find {K D : Type} [BitKey K] : Trie K D → K → Option D
  add_wf {K D : Type} [BitKey K] {t : Trie K D} {k : K} (d : D) :
    t.WF → t.Accepts k → (add t k d).WF
  mem_add {K D : Type} [BitKey K] {t : Trie K D} {k : K} (d : D) (e : K × D) :
    t.WF → t.Accepts k →
      (e ∈ (add t k d).entries ↔ e ∈ t.entries ∨ (k ∉ t.keys ∧ e = (k, d)))
  addMany_wf {K D : Type} [BitKey K] {t : Trie K D} {es : List (K × D)} :
    t.WF → t.AcceptsAll es → (addMany t es).WF
  mem_keys_addMany {K D : Type} [BitKey K] {t : Trie K D} {es : List (K × D)} (k : K) :
    t.WF → t.AcceptsAll es → (k ∈ (addMany t es).keys ↔ k ∈ t.keys ∨ k ∈ es.map Prod.fst)
  mem_of_mem_addMany {K D : Type} [BitKey K] {t : Trie K D} {es : List (K × D)} {e : K × D} :
    t.WF → t.AcceptsAll es → e ∈ (addMany t es).entries → e ∈ t.entries ∨ e ∈ es
  mem_addMany_of_mem {K D : Type} [BitKey K] {t : Trie K D} {es : List (K × D)} {e : K × D} :
    t.WF → t.AcceptsAll es → e ∈ t.entries → e ∈ (addMany t es).entries
  remove_wf {K D : Type} [BitKey K] {t : Trie K D} {k : K} :
    t.WF → t.Accepts k → (remove t k).WF
  mem_remove {K D : Type} [BitKey K] {t : Trie K D} {k : K} (e : K × D) :
    t.WF → t.Accepts k → (e ∈ (remove t k).entries ↔ e ∈ t.entries ∧ e.1 ≠ k)
  find_eq_some {K D : Type} [BitKey K] {t : Trie K D} {k : K} (d : D) :
    t.WF → t.Accepts k → (find t k = some d ↔ (k, d) ∈ t.entries)

/-- A library that keeps the only key of a trie in a leaf: it never puts an internal node above a
single key. -/
class LeafTrieLib extends TrieLib where
  add_emptyLeaf {K D : Type} [BitKey K] (k : K) (d : D) :
    toTrieLib.add (.emptyLeaf : Trie K D) k d = .leaf k d

theorem LeafTrieLib.entries_ne_nil_of_add [LeafTrieLib] {K D : Type} [BitKey K] {t : Trie K D}
    {k : K} {d : D} (h : t.WF) (hnode : (TrieLib.add t k d).isNonEmptyLeaf = false) :
    t.entries ≠ [] := by
  intro hnil
  rw [h.entries_eq_nil.mp hnil, LeafTrieLib.add_emptyLeaf] at hnode
  cases hnode

namespace TrieLib

variable [TrieLib] {K D : Type} [BitKey K] {t : Trie K D} {k : K}

theorem mem_keys_add (d : D) (k' : K) (h : t.WF) (hk : t.Accepts k) :
    k' ∈ (add t k d).keys ↔ k' ∈ t.keys ∨ k' = k :=
  mem_keys_of_insert (fun e => mem_add d e h hk) k'

theorem mem_keys_remove (k' : K) (h : t.WF) (hk : t.Accepts k) :
    k' ∈ (remove t k).keys ↔ k' ∈ t.keys ∧ k' ≠ k := by
  simp only [Trie.mem_keys, mem_remove _ h hk, exists_and_right]

theorem foldl_remove_spec (ks : List K) (h : t.WF) (hks : ∀ k ∈ ks, t.Accepts k) :
    (ks.foldl remove t).WF ∧
      ∀ e, e ∈ (ks.foldl remove t).entries ↔ e ∈ t.entries ∧ e.1 ∉ ks := by
  induction ks generalizing t with
  | nil => exact ⟨h, fun e => by simp⟩
  | cons k ks ih =>
    have hk := hks k mem_cons_self
    have hrest : ∀ k' ∈ ks, (remove t k).Accepts k' := by
      intro k' hk' k'' hk'' hov
      exact hks k' (mem_cons_of_mem k hk') k'' ((mem_keys_remove k'' h hk).mp hk'').1 hov
    obtain ⟨hwf, hmem⟩ := ih (remove_wf h hk) hrest
    refine ⟨hwf, fun e => ?_⟩
    rw [foldl_cons, hmem e, mem_remove e h hk, mem_cons, not_or, and_assoc]

theorem mem_keys_foldl_remove (ks : List K) (h : t.WF) (hks : ∀ k ∈ ks, t.Accepts k) (k' : K) :
    k' ∈ (ks.foldl remove t).keys ↔ k' ∈ t.keys ∧ k' ∉ ks := by
  simp only [Trie.mem_keys, (foldl_remove_spec ks h hks).2, exists_and_right]

end TrieLib

/-! ## The textbook implementation -/

namespace BinaryTrie

variable {K D : Type} [BitKey K]

/-- Separate an occupied leaf `(p, dp)` from a new entry `(k, d)`. The last two arguments are
what is left of the two keys below the current node; running out of bits is the case the
library does not support. -/
def splitLeaf (p : K) (dp : D) (k : K) (d : D) : List Bool → List Bool → Trie K D
  | bp :: rp, bk :: rk =>
    if bp = bk then Trie.setChild .emptyLeaf .emptyLeaf bp (splitLeaf p dp k d rp rk)
    else Trie.setChild (.leaf p dp) (.leaf p dp) bk (.leaf k d)
  | _, _ => .leaf p dp

def addAtDepth (k : K) (d : D) (depth : Nat) : Trie K D → Trie K D
  | .emptyLeaf => .leaf k d
  | .leaf p dp =>
    if bits p = bits k then .leaf p dp
    else splitLeaf p dp k d ((bits p).drop depth) ((bits k).drop depth)
  | .node b0 b1 =>
    match bit k depth with
    | false => .node (addAtDepth k d (depth + 1) b0) b1
    | true => .node b0 (addAtDepth k d (depth + 1) b1)

/-- Fold a node whose branches are leaves with at most one key between them. -/
def shrink : Trie K D → Trie K D → Trie K D
  | .emptyLeaf, .emptyLeaf => .emptyLeaf
  | .emptyLeaf, .leaf k d => .leaf k d
  | .leaf k d, .emptyLeaf => .leaf k d
  | b0, b1 => .node b0 b1

/-- Remove a key below a node; `none` when it is not there and nothing changes. -/
def removeAtDepth (k : K) (depth : Nat) : Trie K D → Option (Trie K D)
  | .emptyLeaf => none
  | .leaf p _ => if bits p = bits k then some .emptyLeaf else none
  | .node b0 b1 =>
    match bit k depth with
    | false => (removeAtDepth k (depth + 1) b0).map (shrink · b1)
    | true => (removeAtDepth k (depth + 1) b1).map (shrink b0 ·)

def findAtDepth (k : K) (depth : Nat) : Trie K D → Option D
  | .emptyLeaf => none
  | .leaf p d => if bits p = bits k then some d else none
  | .node b0 b1 =>
    match bit k depth with
    | false => findAtDepth k (depth + 1) b0
    | true => findAtDepth k (depth + 1) b1

/-! ### Separating two keys -/

theorem mem_entries_splitLeaf (p : K) (dp : D) (k : K) (d : D) (path rp rk : List Bool)
    (hp : bits p = path ++ rp) (hk : bits k = path ++ rk)
    (hov : ¬ Overlap (bits p) (bits k)) (e : K × D) :
    e ∈ (splitLeaf p dp k d rp rk).entries ↔ e = (p, dp) ∨ e = (k, d) := by
  fun_induction splitLeaf p dp k d rp rk generalizing path with
  | case1 rp b rk ih =>
    have ih := ih (path ++ [b]) (by simpa using hp) (by simpa using hk)
    cases b <;> simpa [setChild] using ih
  | case2 bp rp bk rk hne =>
    cases bk <;> simp [setChild, or_comm]
  | case3 rp rk hshort =>
    exfalso
    cases rp with
    | nil => exact hov (.inl ⟨rk, by rw [hp, hk, append_nil]⟩)
    | cons bp rp =>
      cases rk with
      | nil => exact hov (.inr ⟨bp :: rp, by rw [hp, hk, append_nil]⟩)
      | cons bk rk => exact hshort bp rp bk rk rfl rfl

theorem wfAt_splitLeaf (p : K) (dp : D) (k : K) (d : D) (path rp rk : List Bool)
    (hp : bits p = path ++ rp) (hk : bits k = path ++ rk)
    (hov : ¬ Overlap (bits p) (bits k)) : (splitLeaf p dp k d rp rk).WFAt path := by
  fun_induction splitLeaf p dp k d rp rk generalizing path with
  | case1 rp b rk ih =>
    have hp' : bits p = (path ++ [b]) ++ rp := by simpa using hp
    have hk' : bits k = (path ++ [b]) ++ rk := by simpa using hk
    have hne : (splitLeaf p dp k d rp rk).entries ≠ [] := by
      refine ne_nil_of_mem (a := (p, dp)) ?_
      exact (mem_entries_splitLeaf p dp k d _ rp rk hp' hk' hov _).mpr (.inl rfl)
    have hwf := ih (path ++ [b]) hp' hk'
    cases b with
    | false => exact ⟨hwf, trivial, .inl hne⟩
    | true => exact ⟨trivial, hwf, .inr hne⟩
  | case2 bp rp bk rk hne =>
    have hp' : path ++ [bp] <+: bits p := ⟨rp, by simp [hp]⟩
    have hk' : path ++ [bk] <+: bits k := ⟨rk, by simp [hk]⟩
    cases bk with
    | false =>
      have hbp : bp = true := by simpa using hne
      subst hbp
      exact ⟨hk', hp', .inl (by simp)⟩
    | true =>
      have hbp : bp = false := by simpa using hne
      subst hbp
      exact ⟨hp', hk', .inl (by simp)⟩
  | case3 rp rk hshort => exact ⟨rp, hp.symm⟩

/-! ### Insertion -/

variable {path : List Bool} {b0 b1 t : Trie K D} {k : K}

/-- A key that a node accepts still has a bit at the node's depth, and continues along it:
a key ending at a non-hollow node would be a proper prefix of an entry below. -/
theorem step_path (h : (node b0 b1).WFAt path) (hpath : path <+: bits k)
    (hacc : (node b0 b1).Accepts k) : path ++ [bit k path.length] <+: bits k := by
  refine prefix_step hpath (lt_of_le_of_ne hpath.length_le fun hend => ?_)
  have heq : path = bits k := hpath.eq_of_length hend
  obtain ⟨e, he⟩ := exists_mem_of_ne_nil _ h.entries_ne_nil
  have hlong := h.length_lt he
  rw [hacc e.1 (mem_keys_of_mem he) (.inr (heq ▸ h.prefix_of_mem he))] at hlong
  exact hlong.ne hend

theorem accepts_child (h : (node b0 b1).Accepts k) (b : Bool) :
    (child b0 b1 b).Accepts k := by
  intro k' hk' hov
  exact h k' (mem_keys_of_child hk') hov

theorem not_mem_keys_other {b : Bool} (h : (node b0 b1).WFAt path)
    (hk : path ++ [b] <+: bits k) : k ∉ (child b0 b1 !b).keys := by
  intro hmem
  obtain ⟨d, hd⟩ := mem_keys.mp hmem
  exact h.not_overlap_other hk hd (Overlap.refl _)

/-! ### Insertion -/

theorem addAtDepth_node (k : K) (d : D) (depth : Nat) (b0 b1 : Trie K D) :
    addAtDepth k d depth (.node b0 b1)
      = setChild b0 b1 (bit k depth)
          (addAtDepth k d (depth + 1) (child b0 b1 (bit k depth))) := by
  rw [addAtDepth]
  cases bit k depth <;> rfl

/-- An insertion keeps the trie well formed, and adds the entry unless its key is there. -/
theorem addAtDepth_spec (k : K) (d : D) (t : Trie K D) (path : List Bool) (h : t.WFAt path)
    (hpath : path <+: bits k) (hacc : t.Accepts k) :
    (addAtDepth k d path.length t).WFAt path ∧
      ∀ e, e ∈ (addAtDepth k d path.length t).entries ↔
        e ∈ t.entries ∨ (k ∉ t.keys ∧ e = (k, d)) := by
  induction t using childInduction generalizing path with
  | emptyLeaf => exact ⟨hpath, by simp [addAtDepth]⟩
  | leaf p dp =>
    by_cases heq : bits p = bits k
    · have hpk : p = k := bits_injective heq
      simp [addAtDepth, hpk, Trie.keys, Trie.WFAt, hpath]
    · have hov : ¬ Overlap (bits p) (bits k) := fun hov =>
        heq (congrArg bits (hacc p (by simp [Trie.keys]) hov))
      have hpk : p ≠ k := fun hpk => heq (congrArg bits hpk)
      have hp : bits p = path ++ (bits p).drop path.length := (prefix_iff_eq_append.mp h).symm
      have hk : bits k = path ++ (bits k).drop path.length := (prefix_iff_eq_append.mp hpath).symm
      simp only [addAtDepth, heq, if_false]
      refine ⟨wfAt_splitLeaf p dp k d path _ _ hp hk hov, fun e => ?_⟩
      rw [mem_entries_splitLeaf p dp k d path _ _ hp hk hov e]
      simp [Trie.keys, Ne.symm hpk]
  | node b0 b1 ih =>
    have hstep := step_path h hpath hacc
    set b := bit k path.length with hb
    obtain ⟨hwf, hmem⟩ := ih b (path ++ [b]) (h.child b) hstep (accepts_child hacc b)
    rw [length_append, length_singleton] at hwf hmem
    have hother := not_mem_keys_other h hstep
    have hkeys : k ∈ (node b0 b1).keys ↔ k ∈ (child b0 b1 b).keys :=
      (mem_keys_node b).trans (or_iff_left hother)
    rw [addAtDepth_node, ← hb]
    refine ⟨h.setChild hwf (.inl ?_), fun e => ?_⟩
    · by_cases hk : k ∈ (child b0 b1 b).keys
      · obtain ⟨dk, hdk⟩ := mem_keys.mp hk
        exact ne_nil_of_mem ((hmem (k, dk)).mpr (.inl hdk))
      · exact ne_nil_of_mem ((hmem (k, d)).mpr (.inr ⟨hk, rfl⟩))
    · rw [mem_entries_setChild, mem_entries_node b, hmem, hkeys]
      tauto

/-! ### Removal -/

theorem removeAtDepth_node (k : K) (depth : Nat) (b0 b1 : Trie K D) :
    removeAtDepth k depth (.node b0 b1)
      = (removeAtDepth k (depth + 1) (child b0 b1 (bit k depth))).map fun t =>
          match bit k depth with
          | false => shrink t b1
          | true => shrink b0 t := by
  rw [removeAtDepth]
  cases bit k depth <;> rfl

omit [BitKey K] in
theorem entries_shrink (b0 b1 : Trie K D) : (shrink b0 b1).entries = (node b0 b1).entries := by
  unfold shrink
  split <;> rfl

theorem wfAt_shrink (h0 : b0.WFAt (path ++ [false])) (h1 : b1.WFAt (path ++ [true])) :
    (shrink b0 b1).WFAt path := by
  cases b0 with
  | emptyLeaf =>
    cases b1 with
    | emptyLeaf => trivial
    | leaf k d => exact (prefix_append _ _).trans h1
    | node c0 c1 => exact ⟨h0, h1, .inr h1.entries_ne_nil⟩
  | leaf k d =>
    cases b1 with
    | emptyLeaf => exact (prefix_append _ _).trans h0
    | leaf k' d' | node c0 c1 => exact ⟨h0, h1, .inl (by simp)⟩
  | node c0 c1 => exact ⟨h0, h1, .inl h0.entries_ne_nil⟩

/-- Removal below a node: when something is removed the subtrie keeps its place and loses
exactly the key; when nothing is removed the key was not there. -/
theorem removeAtDepth_spec (k : K) (t : Trie K D) (path : List Bool) (h : t.WFAt path)
    (hpath : path <+: bits k) (hacc : t.Accepts k) :
    match removeAtDepth k path.length t with
    | some t' => t'.WFAt path ∧ ∀ e, e ∈ t'.entries ↔ e ∈ t.entries ∧ e.1 ≠ k
    | none => k ∉ t.keys := by
  induction t using childInduction generalizing path with
  | emptyLeaf => simp [removeAtDepth, Trie.keys]
  | leaf p dp =>
    by_cases hpk : p = k
    · simp only [removeAtDepth, hpk, if_true]
      refine ⟨trivial, ?_⟩
      rintro ⟨k', d'⟩
      simp +contextual
    · simp [removeAtDepth, bits_injective.eq_iff, Trie.keys, hpk, Ne.symm hpk]
  | node b0 b1 ih =>
    have hstep := step_path h hpath hacc
    set b := bit k path.length with hb
    have ih := ih b (path ++ [b]) (h.child b) hstep (accepts_child hacc b)
    rw [length_append, length_singleton] at ih
    have hother := not_mem_keys_other h hstep
    rw [removeAtDepth_node, ← hb]
    cases hrec : removeAtDepth k (path.length + 1) (child b0 b1 b) with
    | none =>
      rw [hrec] at ih
      rw [Option.map_none, mem_keys_node b, not_or]
      exact ⟨ih, hother⟩
    | some t' =>
      rw [hrec] at ih
      obtain ⟨hwf, hmem⟩ := ih
      have hne : ∀ e ∈ (child b0 b1 !b).entries, e.1 ≠ k := fun e he heq =>
        hother (heq ▸ mem_keys_of_mem he)
      have hset : ∀ e, e ∈ (setChild b0 b1 b t').entries ↔
          e ∈ (node b0 b1).entries ∧ e.1 ≠ k := by
        intro e
        rw [mem_entries_setChild, mem_entries_node b, hmem]
        tauto
      cases hbit : b with
      | false =>
        simp only [hbit] at hwf hset ⊢
        exact ⟨wfAt_shrink hwf h.2.1, fun e => by rw [entries_shrink]; exact hset e⟩
      | true =>
        simp only [hbit] at hwf hset ⊢
        exact ⟨wfAt_shrink h.1 hwf, fun e => by rw [entries_shrink]; exact hset e⟩

def remove (t : Trie K D) (k : K) : Trie K D := (removeAtDepth k 0 t).getD t

theorem remove_spec (h : t.WF) (hacc : t.Accepts k) :
    (remove t k).WF ∧ ∀ e, e ∈ (remove t k).entries ↔ e ∈ t.entries ∧ e.1 ≠ k := by
  have hspec := removeAtDepth_spec k t [] h nil_prefix hacc
  simp only [length_nil] at hspec
  unfold remove
  cases hrec : removeAtDepth k 0 t with
  | some t' =>
    rw [hrec] at hspec
    exact hspec
  | none =>
    rw [hrec] at hspec
    refine ⟨h, fun e => ⟨fun he => ⟨he, fun heq => ?_⟩, And.left⟩⟩
    exact hspec (heq ▸ mem_keys_of_mem he)

/-! ### Lookup -/

theorem findAtDepth_node (k : K) (depth : Nat) (b0 b1 : Trie K D) :
    findAtDepth k depth (.node b0 b1)
      = findAtDepth k (depth + 1) (child b0 b1 (bit k depth)) := by
  rw [findAtDepth]
  cases bit k depth <;> rfl

theorem findAtDepth_eq_some (k : K) (d : D) (t : Trie K D) (path : List Bool)
    (h : t.WFAt path) (hpath : path <+: bits k) (hacc : t.Accepts k) :
    findAtDepth k path.length t = some d ↔ (k, d) ∈ t.entries := by
  induction t using childInduction generalizing path with
  | emptyLeaf => simp [findAtDepth]
  | leaf p dp =>
    by_cases hpk : p = k
    · simp [findAtDepth, hpk, eq_comm]
    · simp [findAtDepth, bits_injective.eq_iff, hpk, Ne.symm hpk]
  | node b0 b1 ih =>
    have hstep := step_path h hpath hacc
    set b := bit k path.length with hb
    have hother := not_mem_keys_other h hstep
    have hnot : (k, d) ∉ (child b0 b1 !b).entries := fun hd =>
      hother (mem_keys_of_mem hd)
    have hlen : path.length + 1 = (path ++ [b]).length := by simp
    rw [findAtDepth_node, ← hb, mem_entries_node b, or_iff_left hnot, hlen]
    exact ih b _ (h.child b) hstep (accepts_child hacc b)

/-! ### Adding several entries -/

def add (t : Trie K D) (k : K) (d : D) : Trie K D := addAtDepth k d 0 t

def addMany (t : Trie K D) (es : List (K × D)) : Trie K D :=
  es.foldl (fun t e => add t e.1 e.2) t

theorem add_spec (d : D) (h : t.WF) (hacc : t.Accepts k) :
    (add t k d).WF ∧
      ∀ e, e ∈ (add t k d).entries ↔ e ∈ t.entries ∨ (k ∉ t.keys ∧ e = (k, d)) :=
  addAtDepth_spec k d t [] h nil_prefix hacc

theorem acceptsAll_add {e : K × D} {es : List (K × D)} (h : t.WF) (hacc : t.AcceptsAll (e :: es)) :
    (add t e.1 e.2).AcceptsAll es := by
  refine ⟨fun e' he' k' hk' hov => ?_, fun a ha b hb hov =>
    hacc.2 a (mem_cons_of_mem _ ha) b (mem_cons_of_mem _ hb) hov⟩
  rw [mem_keys_of_insert (add_spec e.2 h (hacc.1 e mem_cons_self)).2] at hk'
  rcases hk' with hk' | rfl
  · exact hacc.1 e' (mem_cons_of_mem _ he') k' hk' hov
  · exact hacc.2 e mem_cons_self e' (mem_cons_of_mem _ he') hov

theorem addMany_spec {es : List (K × D)} (h : t.WF) (hacc : t.AcceptsAll es) :
    (addMany t es).WF ∧
      (∀ k, k ∈ (addMany t es).keys ↔ k ∈ t.keys ∨ k ∈ es.map Prod.fst) ∧
      (∀ e ∈ (addMany t es).entries, e ∈ t.entries ∨ e ∈ es) ∧
      ∀ e ∈ t.entries, e ∈ (addMany t es).entries := by
  induction es generalizing t with
  | nil => exact ⟨h, by simp [addMany], fun e he => .inl he, fun e he => he⟩
  | cons e es ih =>
    have hacc_e := hacc.1 e mem_cons_self
    obtain ⟨hwf, hmem⟩ := add_spec e.2 h hacc_e
    obtain ⟨ihwf, ihkeys, ihsub, ihsup⟩ := ih hwf (acceptsAll_add h hacc)
    refine ⟨ihwf, fun k => ?_, fun e' he' => ?_, fun e' he' => ?_⟩
    · have hk := ihkeys k
      rw [mem_keys_of_insert hmem] at hk
      simp only [map_cons, mem_cons]
      exact hk.trans or_assoc
    · rcases ihsub e' he' with h' | h'
      · rcases (hmem e').mp h' with h' | ⟨-, rfl⟩
        · exact .inl h'
        · exact .inr mem_cons_self
      · exact .inr (mem_cons_of_mem _ h')
    · exact ihsup e' ((hmem e').mpr (.inl he'))

end BinaryTrie

/-- The textbook implementation keeps every promise of the library. -/
@[reducible] def binaryTrie : TrieLib where
  add := BinaryTrie.add
  addMany := BinaryTrie.addMany
  remove := BinaryTrie.remove
  find := fun t k => BinaryTrie.findAtDepth k 0 t
  add_wf d h hacc := (BinaryTrie.add_spec d h hacc).1
  mem_add d e h hacc := (BinaryTrie.add_spec d h hacc).2 e
  addMany_wf h hacc := (BinaryTrie.addMany_spec h hacc).1
  mem_keys_addMany k h hacc := (BinaryTrie.addMany_spec h hacc).2.1 k
  mem_of_mem_addMany h hacc he := (BinaryTrie.addMany_spec h hacc).2.2.1 _ he
  mem_addMany_of_mem h hacc he := (BinaryTrie.addMany_spec h hacc).2.2.2 _ he
  remove_wf h hacc := (BinaryTrie.remove_spec h hacc).1
  mem_remove e h hacc := (BinaryTrie.remove_spec h hacc).2 e
  find_eq_some d h hacc := BinaryTrie.findAtDepth_eq_some _ d _ [] h List.nil_prefix hacc

@[reducible] def binaryLeafTrie : LeafTrieLib where
  toTrieLib := binaryTrie
  add_emptyLeaf _ _ := rfl

end KadDht
