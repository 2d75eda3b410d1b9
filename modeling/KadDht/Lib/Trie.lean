import KadDht.Lib.Bits
import Mathlib.Data.List.Nodup

/-!
# Lib — binary tries over bit-string keys

A binary trie stores entries in its leaves. A leaf may sit *above* the full depth of its key:
it only promises that the path from the root to the leaf is a prefix of the key
(`Trie.WFAt`). That promise alone makes the stored keys prefix-free, because two leaves hang
under different branches of some node (`Trie.WFAt.pairwise`).

The representation invariant asks for one more thing: an internal node has at least one entry
below it. It does *not* ask that a node with a single entry is folded into a leaf, so the tries
left behind by cutting a subtree out are covered as well.
-/

namespace KadDht

class BitKey (K : Type) where
  bits : K → List Bool
  bits_injective : Function.Injective bits

namespace BitKey

variable {K : Type} [BitKey K]

def bitLen (k : K) : Nat := (bits k).length

def bit (k : K) (i : Nat) : Bool := (bits k).getD i false

theorem getElem?_bits (k : K) (i : Nat) (h : i < bitLen k) : (bits k)[i]? = some (bit k i) := by
  unfold bitLen at h
  simp [bit, List.getElem?_eq_getElem h]

theorem bit_of_prefix {path : List Bool} {b : Bool} {k : K} (h : path ++ [b] <+: bits k) :
    bit k path.length = b := by
  obtain ⟨rest, hrest⟩ := h
  simp [bit, ← hrest]

/-- A key that reaches below a path continues along its bit at the path's end. -/
theorem prefix_step {path : List Bool} {k : K} (hpath : path <+: bits k)
    (hlt : path.length < bitLen k) : path ++ [bit k path.length] <+: bits k := by
  obtain ⟨rest, hrest⟩ := hpath
  cases rest with
  | nil =>
    rw [List.append_nil] at hrest
    rw [bitLen, ← hrest] at hlt
    exact absurd hlt (lt_irrefl _)
  | cons b rest =>
    have hb : bit k path.length = b := by simp [bit, ← hrest]
    rw [hb]
    exact ⟨rest, by simpa using hrest⟩

instance : BitKey (List Bool) where
  bits := id
  bits_injective := fun _ _ h => h

@[simp] theorem bits_list (p : List Bool) : bits p = p := rfl

end BitKey

open BitKey

/-- A trie node: a leaf without a key, a leaf holding a key and its data, or an internal node
with its 0-branch and its 1-branch. -/
inductive Trie (K D : Type) where
  | emptyLeaf : Trie K D
  | leaf (key : K) (data : D) : Trie K D
  | node (b0 b1 : Trie K D) : Trie K D
deriving DecidableEq, Repr

namespace Trie

variable {K D : Type}

/-! ## Observers -/

def isEmptyLeaf : Trie K D → Bool
  | .emptyLeaf => true
  | _ => false

def isNonEmptyLeaf : Trie K D → Bool
  | .leaf _ _ => true
  | _ => false

def isLeaf : Trie K D → Bool
  | .node _ _ => false
  | _ => true

def child (b0 b1 : Trie K D) : Bool → Trie K D
  | false => b0
  | true => b1

def setChild (b0 b1 : Trie K D) (b : Bool) (t : Trie K D) : Trie K D :=
  match b with
  | false => .node t b1
  | true => .node b0 t

theorem childInduction {motive : Trie K D → Prop} (emptyLeaf : motive .emptyLeaf)
    (leaf : ∀ k d, motive (.leaf k d))
    (node : ∀ b0 b1, (∀ b, motive (child b0 b1 b)) → motive (.node b0 b1)) (t : Trie K D) :
    motive t := by
  induction t with
  | emptyLeaf => exact emptyLeaf
  | leaf k d => exact leaf k d
  | node b0 b1 ih0 ih1 =>
    apply node
    intro b
    cases b with
    | false => exact ih0
    | true => exact ih1

def size : Trie K D → Nat
  | .emptyLeaf => 0
  | .leaf _ _ => 1
  | .node b0 b1 => b0.size + b1.size

def entries : Trie K D → List (K × D)
  | .emptyLeaf => []
  | .leaf k d => [(k, d)]
  | .node b0 b1 => b0.entries ++ b1.entries

def keys (t : Trie K D) : List K := t.entries.map Prod.fst

@[simp] theorem entries_emptyLeaf : (emptyLeaf : Trie K D).entries = [] := rfl

@[simp] theorem entries_leaf (k : K) (d : D) : (leaf k d).entries = [(k, d)] := rfl

@[simp] theorem entries_node (b0 b1 : Trie K D) :
    (node b0 b1).entries = b0.entries ++ b1.entries := rfl

@[simp] theorem keys_emptyLeaf : (emptyLeaf : Trie K D).keys = [] := rfl

variable {t b0 b1 : Trie K D} {k : K} {e : K × D} {b : Bool} {path : List Bool}

theorem mem_keys : k ∈ t.keys ↔ ∃ d, (k, d) ∈ t.entries := by
  simp [keys]

theorem mem_keys_of_mem (he : e ∈ t.entries) : e.1 ∈ t.keys := mem_keys.mpr ⟨e.2, he⟩

/-- The entries of a node are those of the branch selected by a bit and those of the other. -/
theorem mem_entries_node (b : Bool) :
    e ∈ (node b0 b1).entries ↔ e ∈ (child b0 b1 b).entries ∨ e ∈ (child b0 b1 !b).entries := by
  cases b with
  | false => simp [child]
  | true => simp [child, or_comm]

theorem mem_entries_setChild (b : Bool) :
    e ∈ (setChild b0 b1 b t).entries ↔ e ∈ t.entries ∨ e ∈ (child b0 b1 !b).entries := by
  cases b with
  | false => simp [setChild, child]
  | true => simp [setChild, child, or_comm]

theorem mem_entries_of_child (he : e ∈ (child b0 b1 b).entries) : e ∈ (node b0 b1).entries :=
  (mem_entries_node b).mpr (.inl he)

theorem mem_keys_node (b : Bool) :
    k ∈ (node b0 b1).keys ↔ k ∈ (child b0 b1 b).keys ∨ k ∈ (child b0 b1 !b).keys := by
  simp only [mem_keys, mem_entries_node b, exists_or]

theorem mem_keys_of_child (hk : k ∈ (child b0 b1 b).keys) : k ∈ (node b0 b1).keys :=
  (mem_keys_node b).mpr (.inl hk)

theorem exists_child_of_mem (he : e ∈ (node b0 b1).entries) : ∃ b, e ∈ (child b0 b1 b).entries := by
  rcases (mem_entries_node false).mp he with h | h
  · exact ⟨false, h⟩
  · exact ⟨true, h⟩

theorem size_eq_length_entries (t : Trie K D) : t.size = t.entries.length := by
  induction t with
  | emptyLeaf => rfl
  | leaf k d => rfl
  | node b0 b1 ih0 ih1 => simp [size, ih0, ih1]

theorem isEmptyLeaf_iff (t : Trie K D) : t.isEmptyLeaf = true ↔ t = .emptyLeaf := by
  cases t <;> simp [isEmptyLeaf]

/-! ## The representation invariant -/

variable [BitKey K]

/-- The subtrie hangs at `path`: every key below it starts with `path`, every branch extends
the path by its bit, and no internal node is hollow. -/
def WFAt (path : List Bool) : Trie K D → Prop
  | .emptyLeaf => True
  | .leaf k _ => path <+: bits k
  | .node b0 b1 => b0.WFAt (path ++ [false]) ∧ b1.WFAt (path ++ [true]) ∧
      (b0.entries ≠ [] ∨ b1.entries ≠ [])

def WF (t : Trie K D) : Prop := t.WFAt []

theorem wf_emptyLeaf : (emptyLeaf : Trie K D).WF := trivial

theorem WFAt.child (h : (node b0 b1).WFAt path) (b : Bool) :
    (Trie.child b0 b1 b).WFAt (path ++ [b]) := by
  cases b with
  | false => exact h.1
  | true => exact h.2.1

theorem WFAt.entries_ne_nil (h : (node b0 b1).WFAt path) : (node b0 b1).entries ≠ [] := by
  rcases h.2.2 with h0 | h1
  · simp [h0]
  · simp [h1]

/-- A branch may be replaced by any subtrie that belongs there, as long as the node does not
become hollow. -/
theorem WFAt.setChild (h : (node b0 b1).WFAt path) (ht : t.WFAt (path ++ [b]))
    (hne : t.entries ≠ [] ∨ (Trie.child b0 b1 !b).entries ≠ []) :
    (Trie.setChild b0 b1 b t).WFAt path := by
  cases b with
  | false => exact ⟨ht, h.2.1, hne⟩
  | true => exact ⟨h.1, ht, hne.symm⟩

theorem WFAt.prefix_of_mem (h : t.WFAt path) (he : e ∈ t.entries) : path <+: bits e.1 := by
  induction t generalizing path with
  | emptyLeaf => cases he
  | leaf k d =>
    rw [entries_leaf, List.mem_singleton] at he
    subst he
    exact h
  | node b0 b1 ih0 ih1 =>
    rcases List.mem_append.mp he with he | he
    · exact (List.prefix_append _ _).trans (ih0 h.1 he)
    · exact (List.prefix_append _ _).trans (ih1 h.2.1 he)

theorem WFAt.prefix_of_mem_keys (h : t.WFAt path) (hk : k ∈ t.keys) : path <+: bits k := by
  obtain ⟨d, hd⟩ := mem_keys.mp hk
  exact h.prefix_of_mem hd

theorem WFAt.entries_eq_nil (h : t.WFAt path) : t.entries = [] ↔ t = .emptyLeaf := by
  cases t with
  | emptyLeaf => simp
  | leaf k d => simp
  | node b0 b1 =>
    simp only [reduceCtorEq, iff_false]
    exact h.entries_ne_nil

theorem WFAt.not_overlap_other (h : (node b0 b1).WFAt path) {k : List Bool}
    (hk : path ++ [b] <+: k) (he : e ∈ (Trie.child b0 b1 !b).entries) : ¬ Overlap (bits e.1) k :=
  fun hov => not_overlap_of_branches hk ((h.child !b).prefix_of_mem he) hov.symm

theorem WFAt.length_lt (h : (node b0 b1).WFAt path) (he : e ∈ (node b0 b1).entries) :
    path.length < bitLen e.1 := by
  obtain ⟨b, hb⟩ := exists_child_of_mem he
  exact length_lt_of_branch ((h.child b).prefix_of_mem hb)

/-- Distinct positions of a well-formed trie hold keys that do not overlap. -/
theorem WFAt.pairwise (h : t.WFAt path) :
    t.entries.Pairwise (fun a b => ¬ Overlap (bits a.1) (bits b.1)) := by
  induction t generalizing path with
  | emptyLeaf => exact List.Pairwise.nil
  | leaf k d => exact List.pairwise_singleton _ _
  | node b0 b1 ih0 ih1 =>
    rw [entries_node, List.pairwise_append]
    refine ⟨ih0 h.1, ih1 h.2.1, fun e0 h0 e1 h1 => ?_⟩
    exact not_overlap_of_branches (h.1.prefix_of_mem h0) (h.2.1.prefix_of_mem h1)

section Root

variable {t : Trie K D}

theorem WF.entries_eq_nil (h : t.WF) : t.entries = [] ↔ t = .emptyLeaf := WFAt.entries_eq_nil h

theorem WF.keys_nodup (h : t.WF) : t.keys.Nodup := by
  rw [keys, List.Nodup, List.pairwise_map]
  refine (WFAt.pairwise h).imp ?_
  intro a b hab heq
  exact hab (heq ▸ Overlap.refl _)

theorem WF.entries_nodup (h : t.WF) : t.entries.Nodup := List.Nodup.of_map Prod.fst h.keys_nodup

variable {k : K}

theorem WFAt.eq_of_overlap {path : List Bool} (h : t.WFAt path) {k' : K} (hk : k ∈ t.keys)
    (hk' : k' ∈ t.keys) (hov : Overlap (bits k) (bits k')) : k = k' := by
  by_contra hne
  obtain ⟨d, hd⟩ := mem_keys.mp hk
  obtain ⟨d', hd'⟩ := mem_keys.mp hk'
  have : Std.Symm (fun a b : K × D => ¬ Overlap (bits a.1) (bits b.1)) :=
    ⟨fun a b hab hba => hab hba.symm⟩
  exact h.pairwise.forall hd hd' (fun heq => hne (congrArg Prod.fst heq)) hov

theorem WF.eq_of_overlap (h : t.WF) {k' : K} (hk : k ∈ t.keys) (hk' : k' ∈ t.keys)
    (hov : Overlap (bits k) (bits k')) : k = k' :=
  WFAt.eq_of_overlap h hk hk' hov

theorem WF.data_unique (h : t.WF) {d d' : D} (hd : (k, d) ∈ t.entries) (hd' : (k, d') ∈ t.entries) :
    d = d' := by
  have hinj := List.inj_on_of_nodup_map h.keys_nodup
  exact congrArg Prod.snd (hinj hd hd' rfl)

theorem WF.entry_eq (h : t.WF) {e e' : K × D} (he : e ∈ t.entries) (he' : e' ∈ t.entries)
    (hkey : e.1 = e'.1) : e = e' := by
  refine Prod.ext hkey (h.data_unique (k := e'.1) ?_ he')
  rw [← hkey]
  exact he

theorem WF.prefixFree (h : t.WF) : PrefixFree {p | ∃ k ∈ t.keys, bits k = p} := by
  rintro _ ⟨k, hk, rfl⟩ _ ⟨k', hk', rfl⟩ hpre
  rw [h.eq_of_overlap hk hk' (.inl hpre)]

end Root

/-- A key that the trie can take in: it overlaps no stored key but itself. -/
def Accepts (t : Trie K D) (k : K) : Prop :=
  ∀ k' ∈ t.keys, Overlap (bits k') (bits k) → k' = k

theorem WF.accepts_of_mem (h : t.WF) (hk : k ∈ t.keys) : t.Accepts k :=
  fun _ hk' hov => h.eq_of_overlap hk' hk hov

theorem accepts_of_bitLen (h : ∀ k' ∈ t.keys, bitLen k' = bitLen k) : t.Accepts k :=
  fun k' hk' hov => bits_injective (hov.eq_of_length (h k' hk'))

end Trie

end KadDht
