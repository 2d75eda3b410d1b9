import KadDht.Keyspace.Coalesce
import Mathlib.Algebra.Order.BigOperators.Group.List

/-!
# Keyspace — full coverage (`provider/internal/keyspace/trie.go`)

`KeyspaceCovered` tells whether the keys of a trie cover the keyspace. It reads the keys in order
and keeps a stack of the siblings it still expects. Where a key is as long as the top of the stack
the two are merged into their parent, but only their lengths are compared.

The lengths suffice because of the shares of the keyspace the keys take up, `1/2ⁿ` for a key of `n`
bits. They are what the stack counts, in binary (`matchStack_above`), and prefix-free keys take up
at most the whole keyspace (`shares_keys_le`).

* **`keyspaceCovered_exact`** — the result is right, and no read is out of range.
-/

namespace KadDht

open BitKey

/-- The inner loop of `KeyspaceCovered`, with the top of the stack first: the stack with which the
next key is read. Reading an empty stack, and slicing a key below zero, panics. -/
def matchStack : Bitstr → List Bitstr → Option (List Bitstr)
  | _, [] => none
  | p, stackTop :: stack =>
    if p.length = stackTop.length then
      if stackTop.length = 1 ∧ stackTop = p then some stack
      else if stackTop.length = 0 then none
      else matchStack (p.take (stackTop.length - 1)) stack
    else some (flipLastBit p :: stackTop :: stack)

def keyspaceCoveredLoop : List Bitstr → List Bitstr → Option Bool
  | [], stack => some stack.isEmpty
  | _ :: _, [] => none
  | p :: keys, stackTop :: stack =>
    if p.length < stackTop.length then some false
    else (matchStack p (stackTop :: stack)).bind (keyspaceCoveredLoop keys)

def keyspaceCovered {D : Type} : Trie Bitstr D → Option Bool
  | .emptyLeaf => some false
  | .leaf k _ => some (k = [])
  | .node b0 b1 => keyspaceCoveredLoop (keysIter (.node b0 b1) zeroKey) [[false], [true]]

open List Trie

variable {D : Type} {t : Trie Bitstr D} {p q : Bitstr} {keys S : List Bitstr} {n : Nat}

theorem keysIter_zeroKey (t : Trie Bitstr D) : keysIter t zeroKey = t.keys := by
  have hzero : ∀ depth, bit zeroKey depth = false := by
    intro depth
    show (replicate 256 false).getD depth false = false
    rw [getD_eq_getElem?_getD, getElem?_replicate]
    split <;> rfl
  have hiter : ∀ depth, trieIterAtDepth zeroKey (fun k _ => k) t depth = t.keys := by
    induction t with
    | emptyLeaf | leaf k d => exact fun _ => rfl
    | node b0 b1 ih0 ih1 =>
      intro depth
      rw [trieIterAtDepth_node, hzero]
      exact (congrArg₂ _ (ih0 _) (ih1 _)).trans (map_append ..).symm
  exact hiter 0

/-! ## Subtries without gaps -/

def TopWithin (n : Nat) (S : List Bitstr) : Prop := ∃ top S', S = top :: S' ∧ top.length ≤ n

/-- A first sibling is kept on the stack, as the second one that is expected. -/
theorem loop_first (hS : TopWithin q.length S) :
    keyspaceCoveredLoop ((q ++ [false]) :: keys) S
      = keyspaceCoveredLoop keys ((q ++ [true]) :: S) := by
  obtain ⟨top, S, rfl, htop⟩ := hS
  have hlen : (q ++ [false]).length = q.length + 1 := by simp
  rw [keyspaceCoveredLoop, if_neg (by omega), matchStack, if_neg (by omega), Option.bind_some]
  simp [flipLastBit]

/-- With the second sibling, both act like their parent. -/
theorem loop_second (hq : q ≠ []) (hS : TopWithin q.length S) :
    keyspaceCoveredLoop ((q ++ [true]) :: keys) ((q ++ [true]) :: S)
      = keyspaceCoveredLoop (q :: keys) S := by
  obtain ⟨top, S, rfl, htop⟩ := hS
  have hpos := length_pos_iff.mpr hq
  have hlen : (q ++ [true]).length = q.length + 1 := by simp
  rw [keyspaceCoveredLoop, if_neg (lt_irrefl _), matchStack, if_pos rfl, if_neg (by omega),
    if_neg (by omega), hlen, Nat.add_sub_cancel, take_left, keyspaceCoveredLoop,
    if_neg (by omega)]

/-- **A subtrie without gaps acts like a single key.** -/
theorem loop_of_covers (h : t.WFAt q) (hcov : JointlyCovers {k | k ∈ t.keys} q) (hq : q ≠ [])
    (hS : TopWithin q.length S) :
    keyspaceCoveredLoop (t.keys ++ keys) S = keyspaceCoveredLoop (q :: keys) S := by
  induction t generalizing q keys S with
  | emptyLeaf => exact absurd hcov (not_jointlyCovers_of_empty fun _ => not_mem_nil)
  | leaf k d =>
    have hk : k <+: q := jointlyCovers_singleton.mp (hcov.mono fun r hr => mem_singleton.mp hr)
    rw [prefix_antisymm hk h]
    rfl
  | node b0 b1 ih0 ih1 =>
    have hchild : ∀ b, JointlyCovers {k | k ∈ (child b0 b1 b).keys} (q ++ [b]) := fun b =>
      JointlyCovers.child h prefix_rfl (hcov.extend (prefix_append q [b]))
    have hkeys : (node b0 b1).keys = b0.keys ++ b1.keys := map_append ..
    have hS' : TopWithin (q ++ [false]).length S := by
      obtain ⟨top, S', rfl, htop⟩ := hS
      exact ⟨top, S', rfl, by simp; omega⟩
    rw [hkeys, append_assoc, ih0 h.1 (hchild false) (by simp) hS', loop_first hS,
      ih1 h.2.1 (hchild true) (by simp) ⟨_, _, rfl, le_rfl⟩, loop_second hq hS]

/-! ## Shares of the keyspace -/

def share (k : Bitstr) : ℚ := (1 / 2) ^ k.length

def shares (ks : List Bitstr) : ℚ := (ks.map share).sum

@[simp] theorem shares_nil : shares [] = 0 := rfl

@[simp] theorem shares_cons (k : Bitstr) (ks : List Bitstr) :
    shares (k :: ks) = share k + shares ks := sum_cons

theorem share_pos (k : Bitstr) : 0 < share k := by
  unfold share
  positivity

theorem shares_nonneg (ks : List Bitstr) : 0 ≤ shares ks :=
  sum_nonneg fun s hs => by
    obtain ⟨k, -, rfl⟩ := mem_map.mp hs
    exact (share_pos k).le

theorem share_append (q : Bitstr) (b : Bool) : share (q ++ [b]) + share (q ++ [b]) = share q := by
  simp only [share, length_append, length_singleton, pow_succ]
  ring

theorem share_le_iff : share p ≤ (1 / 2) ^ n ↔ n ≤ p.length :=
  pow_le_pow_iff_right_of_lt_one₀ (by norm_num) (by norm_num)

/-- **The keys below a path take up at most its share**, and less if they leave a gap. -/
theorem shares_keys_le (h : t.WFAt q) :
    shares t.keys ≤ share q ∧
      (shares t.keys = share q → JointlyCovers {k | k ∈ t.keys} q) := by
  induction t using childInduction generalizing q with
  | emptyLeaf => exact ⟨(share_pos q).le, fun heq => absurd heq (share_pos q).ne⟩
  | leaf k d =>
    have hk : q <+: k := h
    have hone : shares (leaf k d).keys = share k := by simp [Trie.keys]
    rw [hone]
    refine ⟨share_le_iff.mpr hk.length_le, fun heq => ?_⟩
    have hlen := share_le_iff.mp heq.ge
    exact jointlyCovers_of_prefix (mem_singleton_self k) (hk.eq_of_length_le hlen ▸ hk)
  | node b0 b1 ih =>
    have hkeys : shares (node b0 b1).keys = shares b0.keys + shares b1.keys := by
      simp [shares, Trie.keys]
    have h0 := ih false (h.child false)
    have h1 := ih true (h.child true)
    have hhalf := share_append q false
    have hsame : share (q ++ [true]) = share (q ++ [false]) := by simp [share]
    simp only [child] at h0 h1
    refine ⟨by linarith, fun heq => jointlyCovers_step.mpr fun b => ?_⟩
    have hbranch : JointlyCovers {k | k ∈ (child b0 b1 b).keys} (q ++ [b]) := by
      cases b with
      | false => exact h0.2 (by linarith)
      | true => exact h1.2 (by linarith)
    exact hbranch.mono fun k hk => mem_keys_of_child hk

/-! ## The stack counts the shares -/

theorem length_flipLastBit (k : Bitstr) : (flipLastBit k).length = k.length := by
  rcases eq_nil_or_concat k with rfl | ⟨l, b, rfl⟩
  · rfl
  · simp [flipLastBit]

/-- The siblings that are on the stack above a level: the deeper ones are on top. -/
structure Above (n : Nat) (X : List Bitstr) : Prop where
  sorted : X.Pairwise fun x y => y.length < x.length
  above : ∀ x ∈ X, n < x.length

variable {X : List Bitstr}

/-- **A key is added to what the stack counts**, unless this makes the level full. Then it is dealt
with as the part of it up to the level. -/
theorem matchStack_above (hn : 0 < n) (hX : Above n X) (hp : n ≤ p.length)
    (hle : ∀ x ∈ X, x.length ≤ p.length) (hS : TopWithin n S) :
    (∃ X', matchStack p (X ++ S) = some (X' ++ S) ∧ Above n X' ∧
        shares X' = shares X + share p) ∨
      (shares X + share p = (1 / 2) ^ n ∧ matchStack p (X ++ S) = matchStack (p.take n) S) := by
  induction X generalizing p with
  | nil =>
    rcases hp.eq_or_lt with rfl | hlt
    · exact .inr ⟨by simp [share], by rw [take_length]; rfl⟩
    · obtain ⟨top, S, rfl, htop⟩ := hS
      refine .inl ⟨[flipLastBit p], ?_, ⟨pairwise_singleton _ _, fun x hx => ?_⟩, ?_⟩
      · rw [nil_append, matchStack, if_neg (by omega)]
        rfl
      · rwa [mem_singleton.mp hx, length_flipLastBit]
      · simp [share, length_flipLastBit]
  | cons x X ih =>
    obtain ⟨hsorted, habove⟩ := hX
    rw [pairwise_cons] at hsorted
    have hx := habove x mem_cons_self
    rcases (hle x mem_cons_self).eq_or_lt with heq | hlt
    · -- the key and its expected sibling are merged into the parent
      obtain ⟨m, hm⟩ := Nat.exists_eq_add_of_lt (Nat.zero_lt_of_lt hx)
      rw [Nat.zero_add] at hm
      have hlen : (p.take m).length = m := length_take_of_le (by omega)
      have hmerge : matchStack p (x :: X ++ S) = matchStack (p.take m) (X ++ S) := by
        rw [cons_append, matchStack, if_pos heq.symm, if_neg (by omega), if_neg (by omega), hm,
          Nat.add_sub_cancel]
      have hparent : share (p.take m) = share x + share p := by
        rw [share, share, share, hlen, ← heq, hm, pow_succ]
        ring
      have hrest := ih ⟨hsorted.2, fun y hy => habove y (mem_cons_of_mem x hy)⟩
        (p := p.take m) (by omega) fun y hy => by
          have hlt := hsorted.1 y hy
          omega
      rw [hmerge, shares_cons]
      rw [hparent, take_take, Nat.min_eq_left (by omega : n ≤ m)] at hrest
      rwa [show share x + shares X + share p = shares X + (share x + share p) by ring]
    · have hflip := length_flipLastBit p
      refine .inl ⟨flipLastBit p :: x :: X, ?_, ⟨?_, ?_⟩, ?_⟩
      · rw [cons_append, matchStack, if_neg (by omega)]
        rfl
      · rw [pairwise_cons, pairwise_cons]
        exact ⟨by grind, hsorted⟩
      · grind
      · simp only [shares_cons, share, hflip]
        ring

/-- The same for one round of the outer loop, which may find that a key is too short. -/
theorem loop_above (hn : 0 < n) (hX : Above n X) (hp : n ≤ p.length)
    (hS : TopWithin n S) (keys : List Bitstr) :
    keyspaceCoveredLoop (p :: keys) (X ++ S) = some false ∨
      (∃ X', Above n X' ∧ shares X' = shares X + share p ∧
        keyspaceCoveredLoop (p :: keys) (X ++ S) = keyspaceCoveredLoop keys (X' ++ S)) ∨
      (shares X + share p = (1 / 2) ^ n ∧ keyspaceCoveredLoop (p :: keys) (X ++ S)
        = (matchStack (p.take n) S).bind (keyspaceCoveredLoop keys)) := by
  obtain ⟨top, rest, hstack, hround⟩ : ∃ top rest, X ++ S = top :: rest ∧
      (top.length ≤ p.length → ∀ x ∈ X, x.length ≤ p.length) := by
    cases X with
    | nil =>
      obtain ⟨top, S, rfl, -⟩ := hS
      exact ⟨top, S, rfl, fun _ x hx => absurd hx not_mem_nil⟩
    | cons x X =>
      have hsorted := pairwise_cons.mp hX.sorted
      exact ⟨x, X ++ S, rfl, by grind⟩
  have hloop : keyspaceCoveredLoop (p :: keys) (X ++ S) = if p.length < top.length then some false
      else (matchStack p (X ++ S)).bind (keyspaceCoveredLoop keys) := by
    rw [hstack, keyspaceCoveredLoop]
  rw [hloop]
  split
  · exact .inl rfl
  · next hle =>
    have hmatch := matchStack_above hn hX hp (hround (not_lt.mp hle)) hS
    rcases hmatch with ⟨X', heq, hX', hshares⟩ | hfull
    · exact .inr (.inl ⟨X', hX', hshares, by rw [heq, Option.bind_some]⟩)
    · exact .inr (.inr ⟨hfull.1, by rw [hfull.2]⟩)

/-- **Keys that do not fill a level** are counted above it, or the run ends without success. -/
theorem loop_below (keys : List Bitstr) (hn : 0 < n)
    (hS : TopWithin n S) (ks : List Bitstr) (hX : Above n X)
    (hlt : shares X + shares ks < (1 / 2) ^ n) :
    keyspaceCoveredLoop (ks ++ keys) (X ++ S) = some false ∨
      ∃ X', Above n X' ∧ shares X' = shares X + shares ks ∧
        keyspaceCoveredLoop (ks ++ keys) (X ++ S) = keyspaceCoveredLoop keys (X' ++ S) := by
  induction ks generalizing X with
  | nil => exact .inr ⟨X, hX, (add_zero _).symm, rfl⟩
  | cons p ks ih =>
    rw [shares_cons] at hlt ⊢
    have hX0 := shares_nonneg X
    have hks0 := shares_nonneg ks
    have hp : n ≤ p.length := share_le_iff.mp (by linarith)
    rcases loop_above hn hX hp hS (ks ++ keys) with hfalse | ⟨X', hX', hshares, heq⟩ | hfull
    · exact .inl hfalse
    · rw [← add_assoc, ← hshares] at hlt ⊢
      rw [cons_append, heq]
      exact ih hX' hlt
    · linarith [hfull.1]

/-- A run over keys that do not fill the level does not succeed. -/
theorem loop_false (hn : 0 < n) (hS : TopWithin n S)
    (ks : List Bitstr) (hlt : shares ks < (1 / 2) ^ n) : keyspaceCoveredLoop ks S = some false := by
  have hbelow := loop_below [] hn hS ks (X := []) ⟨List.Pairwise.nil, by simp⟩
    (by rwa [shares_nil, zero_add])
  rw [append_nil] at hbelow
  rcases hbelow with hfalse | ⟨X', -, -, heq⟩
  · exact hfalse
  · obtain ⟨top, S, rfl, -⟩ := hS
    refine heq.trans ?_
    cases X' <;> rfl

/-- Keys of the second half that do not fill what the first half left: where they fill the first
half they do not match it, and the run does not succeed. -/
theorem loop_upper (ks : List Bitstr) (hks : ∀ k ∈ ks, [true] <+: k) (hX : Above 1 X)
    (hlt : shares X + shares ks < 1) :
    keyspaceCoveredLoop ks (X ++ [[false], [true]]) = some false := by
  induction ks generalizing X with
  | nil => cases X <;> rfl
  | cons p ks ih =>
    rw [shares_cons] at hlt
    have hp := hks p mem_cons_self
    rcases loop_above Nat.one_pos hX hp.length_le ⟨[false], [[true]], rfl, le_rfl⟩ ks with
      hfalse | ⟨X', hX', hshares, heq⟩ | ⟨hfull, heq⟩
    · exact hfalse
    · rw [heq]
      exact ih (fun k hk => hks k (mem_cons_of_mem p hk)) hX' (by linarith)
    · have htake : p.take 1 = [true] := (prefix_iff_eq_take.mp hp).symm
      rw [heq, htake]
      exact loop_false (S := [[], [true]]) Nat.one_pos ⟨_, _, rfl, Nat.zero_le _⟩ ks (by linarith)

/-- **`KeyspaceCovered` is exact.** For the keys of every well-formed trie it returns, without a
read out of range, whether every infinite string starts with one of them. -/
theorem keyspaceCovered_exact (h : t.WF) :
    ∃ covered, keyspaceCovered t = some covered ∧
      (covered = true ↔ JointlyCovers {k | k ∈ t.keys} []) := by
  cases t with
  | emptyLeaf =>
    refine ⟨false, rfl, iff_of_false (by simp) ?_⟩
    exact not_jointlyCovers_of_empty fun _ => not_mem_nil
  | leaf k d =>
    refine ⟨_, rfl, ?_⟩
    have hkeys : {r | r ∈ (leaf k d).keys} = {k} := by simp [Trie.keys]
    rw [hkeys, jointlyCovers_singleton, prefix_nil, decide_eq_true_iff]
  | node b0 b1 =>
    have hkeys : (node b0 b1).keys = b0.keys ++ b1.keys := map_append ..
    obtain ⟨hle1, hfull1⟩ := shares_keys_le h.2.1
    have hhalf : ∀ b, share ([] ++ [b]) = 1 / 2 := fun b => pow_one _
    have hcov : JointlyCovers {k | k ∈ (node b0 b1).keys} [] ↔
        JointlyCovers {k | k ∈ b0.keys} [false] ∧ JointlyCovers {k | k ∈ b1.keys} [true] := by
      rw [jointlyCovers_step, Bool.forall_bool]
      refine and_congr ⟨?_, ?_⟩ ⟨?_, ?_⟩
      · exact JointlyCovers.child (b := false) h prefix_rfl
      · exact fun hcov => hcov.mono fun k hk => mem_keys_of_child (b := false) hk
      · exact JointlyCovers.child (b := true) h prefix_rfl
      · exact fun hcov => hcov.mono fun k hk => mem_keys_of_child (b := true) hk
    rw [hcov, keyspaceCovered, keysIter_zeroKey, hkeys]
    by_cases h0 : JointlyCovers {k | k ∈ b0.keys} [false]
    · -- the first half acts like the key `0`, which is popped
      rw [loop_of_covers (q := [false]) h.1 h0 (by simp) ⟨[false], [[true]], rfl, le_rfl⟩]
      by_cases h1 : JointlyCovers {k | k ∈ b1.keys} [true]
      · refine ⟨true, ?_, iff_of_true rfl ⟨h0, h1⟩⟩
        have hone : keyspaceCoveredLoop (b1.keys ++ []) [[true]]
            = keyspaceCoveredLoop [[true]] [[true]] :=
          loop_of_covers h.2.1 h1 (by simp) ⟨_, _, rfl, le_rfl⟩
        rw [append_nil] at hone
        exact hone
      · refine ⟨false, ?_, iff_of_false (by simp) fun hall => h1 hall.2⟩
        refine loop_false (S := [[true]]) Nat.one_pos ⟨_, _, rfl, le_rfl⟩ b1.keys ?_
        exact lt_of_le_of_ne hle1 fun heq => h1 (hfull1 heq)
    · refine ⟨false, ?_, iff_of_false (by simp) fun hall => h0 hall.1⟩
      obtain ⟨hle0, hfull0⟩ := shares_keys_le h.1
      have hlt0 := lt_of_le_of_ne hle0 fun heq => h0 (hfull0 heq)
      rw [hhalf] at hlt0 hle1
      rcases loop_below b1.keys (X := []) (S := [[false], [true]]) Nat.one_pos
        ⟨_, _, rfl, le_rfl⟩ b0.keys ⟨List.Pairwise.nil, by simp⟩
        (by rwa [shares_nil, zero_add, pow_one]) with hfalse | ⟨X', hX', hshares, heq⟩
      · exact hfalse
      · refine heq.trans (loop_upper b1.keys (fun k hk => h.2.1.prefix_of_mem_keys hk) hX' ?_)
        rw [shares_nil, zero_add] at hshares
        linarith

/-- The keys `1` and `01` leave `00` out. -/
theorem keyspaceCovered_exact_gap :
    let t : Trie Bitstr Unit := .node (.node .emptyLeaf (.leaf [false, true] ())) (.leaf [true] ())
    ∃ covered, keyspaceCovered t = some covered ∧
      (covered = true ↔ JointlyCovers {k | k ∈ t.keys} []) :=
  keyspaceCovered_exact (by simp [Trie.WF, Trie.WFAt, entries])

end KadDht
