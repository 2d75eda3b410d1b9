import KadDht.Keyspace.Trie
import KadDht.Lib.Cyclic

/-!
# Keyspace — the order of the entries of a trie (`provider/internal/keyspace/trie.go`)

`EntriesIter` visits the entries of a trie in the order around a key, and `NextNonEmptyLeaf` goes
from a key to the entry after it in that order, and from the last one to the first.

* **`nextNonEmptyLeaf_follows`** — it is the entry that follows in `AllEntries`.
-/

namespace KadDht

open BitKey List Trie

variable {K0 K1 D : Type} [BitKey K0] [BitKey K1]

/-! ## Iterating -/

variable {order : K1} {t : Trie K0 D} {e : K0 × D} {k : K0}

def EntryBefore (order : K1) (e e' : K0 × D) : Prop :=
  XorBefore (bits order) (bits e.1) (bits e'.1)

theorem entryBefore_of_branches {path : List Bool} {b0 b1 : Trie K0 D}
    (h : (Trie.node b0 b1).WFAt path) {e' : K0 × D}
    (he : e ∈ (Trie.child b0 b1 (bit order path.length)).entries)
    (he' : e' ∈ (Trie.child b0 b1 !bit order path.length).entries) : EntryBefore order e e' :=
  ⟨path, (h.child _).prefix_of_mem he, (h.child _).prefix_of_mem he'⟩

theorem sorted_entriesFrom (order : K1) (t : Trie K0 D) (path : List Bool) (h : t.WFAt path) :
    (entriesFrom order t path.length).Pairwise (EntryBefore order) := by
  induction t using childInduction generalizing path with
  | emptyLeaf => exact List.Pairwise.nil
  | leaf k d => exact pairwise_singleton _ _
  | node b0 b1 ih =>
    have hbranch : ∀ b, (entriesFrom order (child b0 b1 b) (path.length + 1)).Pairwise
        (EntryBefore order) := by
      intro b
      have hsorted := ih b (path ++ [b]) (h.child b)
      rwa [length_append, length_singleton] at hsorted
    rw [entriesFrom_node]
    refine pairwise_append.mpr ⟨hbranch _, hbranch _, fun e he e' he' => ?_⟩
    exact entryBefore_of_branches h (mem_entriesFrom.mp he) (mem_entriesFrom.mp he')

/-- **The iteration is sorted** in the order around the key. -/
theorem sorted_entriesIter (h : t.WF) (order : K1) :
    (entriesIter t order).Pairwise (EntryBefore order) :=
  sorted_entriesFrom order t [] h

/-! ## The entry after a key -/

def isAfter (order : K1) (k : K0) (e : K0 × D) : Bool :=
  decide (XorBefore (bits order) (bits k) (bits e.1))

theorem isAfter_iff : isAfter order k e = true ↔ XorBefore (bits order) (bits k) (bits e.1) :=
  decide_eq_true_iff

/-- In the branch a key with the order's bit does not take, every entry is after the key; in the
branch a key with the other bit does not take, none is. -/
theorem find_other_branch (order : K1) {path : List Bool} {b0 b1 : Trie K0 D}
    (h : (Trie.node b0 b1).WFAt path) {b : Bool} (hk : path ++ [b] <+: bits k) :
    (entriesFrom order (Trie.child b0 b1 !b) (path.length + 1)).find? (isAfter order k)
      = if b = bit order path.length then
          (entriesFrom order (Trie.child b0 b1 !b) (path.length + 1)).head?
        else none := by
  set other := entriesFrom order (child b0 b1 !b) (path.length + 1) with hother
  have hbelow : ∀ e ∈ other, path ++ [!b] <+: bits e.1 := fun e he =>
    (h.child _).prefix_of_mem (mem_entriesFrom.mp he)
  split
  · next hb =>
    subst hb
    cases hcases : other with
    | nil => rfl
    | cons e rest =>
      have hafter : isAfter order k e = true :=
        isAfter_iff.mpr ⟨path, hk, hbelow e (hcases ▸ mem_cons_self)⟩
      rw [find?_cons_of_pos hafter, head?_cons]
  · next hb =>
    have hnot : b = !bit order path.length := Bool.eq_not_of_ne hb
    rw [find?_eq_none]
    intro e he hafter
    rw [isAfter_iff] at hafter
    refine hafter.asymm ⟨path, ?_, ?_⟩
    · have hb' := hbelow e he
      rwa [hnot, Bool.not_not] at hb'
    · rwa [hnot] at hk

omit [BitKey K1] in
theorem nothingBelow_of_accepts (h : t.Accepts k) : NothingBelow t k :=
  fun e he hbelow => h e.1 (mem_keys_of_mem he) (.inr hbelow)

/-- Below the root, the search finds the first entry after the key in the order, and does not wrap
around. By induction on the trie; the two branches are visited as `order` has them. -/
theorem nextNonEmptyLeafAtDepth_eq (k : K0) (order : K1) (t : Trie K0 D) (path : List Bool)
    (h : t.WFAt path) (hlen : ∀ key ∈ t.keys, bitLen key ≤ bitLen order) (hpath : path <+: bits k)
    (hroot : path ≠ []) (hacc : t.Accepts k) :
    nextNonEmptyLeafAtDepth k order t path.length false
      = some ((entriesFrom order t path.length).find? (isAfter order k)) := by
  induction t using childInduction generalizing path with
  | emptyLeaf => rfl
  | leaf key d =>
    have hne : path.length ≠ 0 := fun hzero => hroot (length_eq_zero_iff.mp hzero)
    have hkey : Overlap (bits k) (bits key) → bits k = bits key := fun hov =>
      congrArg bits (hacc key (by simp [Trie.keys]) hov.symm).symm
    have hafter : (commonPrefixLength (bits k) (bits key) < bitLen k ∧
        commonPrefixLength (bits k) (bits key) < bitLen order ∧
        bit order (commonPrefixLength (bits k) (bits key))
          = bit k (commonPrefixLength (bits k) (bits key))) ↔
        XorBefore (bits order) (bits k) (bits key) :=
      xorBefore_iff_cpl hkey (hlen key (by simp [Trie.keys]))
    rw [nextNonEmptyLeafAtDepth, if_neg hne]
    show (if commonPrefixLength (bits k) (bits key) < bitLen k ∧
        commonPrefixLength (bits k) (bits key) < bitLen order ∧
        bit order (commonPrefixLength (bits k) (bits key))
          = bit k (commonPrefixLength (bits k) (bits key)) then some (some (key, d))
      else some none) = _
    by_cases hx : XorBefore (bits order) (bits k) (bits key)
    · rw [if_pos (hafter.mpr hx), entriesFrom, trieIterAtDepth,
        find?_cons_of_pos (isAfter_iff.mpr hx)]
    · rw [if_neg fun hcond => hx (hafter.mp hcond), entriesFrom, trieIterAtDepth,
        find?_cons_of_neg fun hcond => hx (isAfter_iff.mp hcond), find?_nil]
  | node b0 b1 ih =>
    have hlt : path.length < bitLen k := (nothingBelow_of_accepts hacc).lt_bitLen h hpath
    have hne : path.length ≠ 0 := fun hzero => hroot (length_eq_zero_iff.mp hzero)
    have hstep := prefix_step hpath hlt
    have hother := find_other_branch order h hstep
    have hsame := ih _ _ (h.child _) (fun key hkey => hlen key (mem_keys_of_child hkey)) hstep
      (by simp) (BinaryTrie.accepts_child hacc _)
    rw [length_append, length_singleton] at hsame
    rw [nextNonEmptyLeafAtDepth_node k order b0 b1 (getElem?_bits k _ hlt), hsame,
      nextNonEmptyLeafAtDepth_bottom_eq, entriesFrom_node, find?_append]
    set b := bit k path.length
    by_cases hb : b = bit order path.length
    · rw [if_pos hb] at hother
      rw [if_pos (.inl hb), if_neg hne, ← hb, hother]
      cases (entriesFrom order (child b0 b1 b) (path.length + 1)).find? (isAfter order k) with
      | some e => rfl
      | none =>
        cases (entriesFrom order (child b0 b1 !b) (path.length + 1)).head? <;> rfl
    · rw [if_neg hb] at hother
      have hnot : bit order path.length = !b := Bool.eq_not_of_ne fun heq => hb heq.symm
      rw [if_neg (by simp [hb, hne]), hnot, Bool.not_not, hother, Option.none_or]
      cases (entriesFrom order (child b0 b1 b) (path.length + 1)).find? (isAfter order k) <;>
        rfl

/-- **`NextNonEmptyLeaf`.** The entry returned is the first one after the key, or the first one of
all when there is none after it. -/
theorem nextNonEmptyLeaf_eq (h : t.WF) (hacc : t.Accepts k) (order : K1)
    (hlen : ∀ key ∈ t.keys, bitLen key ≤ bitLen order) :
    nextNonEmptyLeaf t k order
      = some (((entriesIter t order).find? (isAfter order k)).or (entriesIter t order).head?) := by
  cases t with
  | emptyLeaf => rfl
  | leaf key d =>
    have hiter : entriesIter (.leaf key d) order = [(key, d)] := rfl
    rw [hiter, find?_singleton]
    split <;> rfl
  | node b0 b1 =>
    have hlt : 0 < bitLen k := (nothingBelow_of_accepts hacc).lt_bitLen h nil_prefix
    have hstep := prefix_step (List.nil_prefix : [] <+: bits k) hlt
    have hother := find_other_branch order h hstep
    have hsame := nextNonEmptyLeafAtDepth_eq k order _ _ (h.child _)
      (fun key hkey => hlen key (mem_keys_of_child hkey)) hstep (by simp)
      (BinaryTrie.accepts_child hacc _)
    rw [length_append, length_singleton] at hsame
    simp only [length_nil, Nat.zero_add] at hother hsame
    have hiter : entriesIter (.node b0 b1) order = entriesFrom order (.node b0 b1) 0 := rfl
    rw [nextNonEmptyLeaf, nextNonEmptyLeafAtDepth_node k order b0 b1 (getElem?_bits k _ hlt),
      Nat.zero_add, hsame, nextNonEmptyLeafAtDepth_bottom_eq, nextNonEmptyLeafAtDepth_bottom_eq,
      hiter,
      entriesFrom_node, Nat.zero_add, find?_append, head?_append, if_pos (.inr rfl),
      if_pos rfl]
    set b := bit k 0
    by_cases hb : b = bit order 0
    · rw [if_pos hb] at hother
      rw [← hb, hother]
      cases (entriesFrom order (child b0 b1 b) 1).find? (isAfter order k) with
      | some e => rfl
      | none =>
        cases (entriesFrom order (child b0 b1 !b) 1).head? with
        | some e => rfl
        | none => simp
    · rw [if_neg hb] at hother
      have hnot : bit order 0 = !b := Bool.eq_not_of_ne fun heq => hb heq.symm
      rw [hnot, Bool.not_not, hother, Option.none_or]
      cases (entriesFrom order (child b0 b1 b) 1).find? (isAfter order k) with
      | some e => rfl
      | none =>
        cases (entriesFrom order (child b0 b1 !b) 1).head? with
        | some e => rfl
        | none => simp

theorem cyclicSucc_nextNonEmptyLeaf (h : t.WF) (order : K1)
    (hlen : ∀ k ∈ t.keys, bitLen k ≤ bitLen order) :
    CyclicSucc (fun e => (nextNonEmptyLeaf t e.1 order).join) (entriesIter t order) := by
  intro u x v heq
  have hmem : x.1 ∈ t.keys := by
    apply Trie.mem_keys_of_mem
    rw [← (entriesIter_perm t order).mem_iff, heq]
    simp
  have hsorted := sorted_entriesIter h order
  rw [heq] at hsorted
  obtain ⟨-, hrest, hacross⟩ := pairwise_append.mp hsorted
  obtain ⟨hlater, -⟩ := pairwise_cons.mp hrest
  have hbefore : u.find? (isAfter order x.1) = none := by
    rw [find?_eq_none]
    intro e he hafter
    exact (isAfter_iff.mp hafter).asymm (hacross e he x mem_cons_self)
  have hself : isAfter order x.1 x = false := by
    rw [Bool.eq_false_iff]
    intro hafter
    exact (isAfter_iff.mp hafter).not_overlap (Overlap.refl _)
  have hafter : v.find? (isAfter order x.1) = v.head? := by
    cases v with
    | nil => rfl
    | cons e v => rw [find?_cons_of_pos (isAfter_iff.mpr (hlater e mem_cons_self)), head?_cons]
  simp only [nextNonEmptyLeaf_eq h (h.accepts_of_mem hmem) order hlen, heq]
  rw [find?_append, hbefore, find?_cons_of_neg (by simp [hself]), hafter]
  cases v <;> cases u <;> simp

/-- The entry comes next after a key in a list taken as a cycle: it is the first one after the key,
or, if there is none after it, the first one of all. -/
def Follows (order : K1) (k : K0) (es : List (K0 × D)) (e : K0 × D) : Prop :=
  (∃ u v, es = u ++ e :: v ∧ (∀ x ∈ u, ¬ XorBefore (bits order) (bits k) (bits x.1)) ∧
    XorBefore (bits order) (bits k) (bits e.1)) ∨
  (∀ x ∈ es, ¬ XorBefore (bits order) (bits k) (bits x.1)) ∧ es.head? = some e

theorem follows_of_find? {es : List (K0 × D)}
    (h : (es.find? (isAfter order k)).or es.head? = some e) : Follows order k es e := by
  cases hfind : es.find? (isAfter order k) with
  | some found =>
    rw [hfind, Option.some_or, Option.some.injEq] at h
    subst h
    obtain ⟨hafter, u, v, heq, hbefore⟩ := find?_eq_some_iff_append.mp hfind
    refine .inl ⟨u, v, heq, fun x hx hxb => ?_, isAfter_iff.mp hafter⟩
    have hnot := hbefore x hx
    rw [isAfter_iff.mpr hxb] at hnot
    exact absurd hnot (by decide)
  | none =>
    rw [hfind, Option.none_or] at h
    refine .inr ⟨fun x hx hxb => ?_, h⟩
    exact find?_eq_none.mp hfind x hx (isAfter_iff.mpr hxb)

/-- **`NextNonEmptyLeaf` is the cyclic successor in `AllEntries`.** `AllEntries` lists every entry
exactly once in the order around `order`. From a stored key, or from one that overlaps no stored
key, the entry that follows in this list is found. Pruned tries are well-formed too. -/
theorem nextNonEmptyLeaf_follows (h : t.WF) (hne : t.entries ≠ []) (order : K1)
    (hlen : ∀ key ∈ t.keys, bitLen key ≤ bitLen order) :
    (allEntries t order).Perm t.entries ∧ (allEntries t order).Nodup ∧
      (allEntries t order).Pairwise (EntryBefore order) ∧
      ∀ k, k ∈ t.keys ∨ (∀ key ∈ t.keys, ¬ Overlap (bits key) (bits k)) →
        ∃ e, nextNonEmptyLeaf t k order = some (some e) ∧
          Follows order k (allEntries t order) e := by
  have hsorted := sorted_entriesIter h order
  rw [allEntries_eq]
  refine ⟨entriesIter_perm t order, ?_, hsorted, fun k hk => ?_⟩
  · refine hsorted.imp fun hbefore heq => ?_
    exact hbefore.not_overlap (heq ▸ Overlap.refl _)
  · have hacc : t.Accepts k := by
      rcases hk with hk | hk
      · exact h.accepts_of_mem hk
      · exact fun key hkey hov => absurd hov (hk key hkey)
    obtain ⟨e, he⟩ : ∃ e, ((entriesIter t order).find? (isAfter order k)).or
        (entriesIter t order).head? = some e := by
      refine Option.ne_none_iff_exists'.mp fun hnone => hne ?_
      have hnil := head?_eq_none_iff.mp (Option.or_eq_none_iff.mp hnone).2
      exact List.Perm.eq_nil (hnil ▸ (entriesIter_perm t order).symm)
    exact ⟨e, by rw [nextNonEmptyLeaf_eq h hacc order hlen, he], follows_of_find? he⟩

/-- From the key `011` that is not stored, the walk over `00`, `010` and `1` goes on to `1`. -/
theorem nextNonEmptyLeaf_follows_run :
    let t : Trie Bitstr Nat := .node (.node (.leaf [false, false] 1) (.leaf [false, true, false] 2))
      (.leaf [true] 3)
    ∃ e, nextNonEmptyLeaf t [false, true, true] [false, false, false] = some (some e) ∧
      Follows [false, false, false] [false, true, true] (allEntries t [false, false, false]) e :=
  (nextNonEmptyLeaf_follows (by simp [Trie.WF, Trie.WFAt, entries]) (by decide) _
    (by decide)).2.2.2 _ (.inr (by decide))

end KadDht
