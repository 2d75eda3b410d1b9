import KadDht.Keyspace.Key
import KadDht.Lib.Datastore
import Mathlib.Data.Finset.Insert

/-!
# Values — the best of the received values (`routing.go`)

`SearchValue` receives values from peers. `processValues` keeps the best one, with the peers that
sent it, and passes every value on to a callback; the callback of `searchValueQuorum` writes each
new best value to the caller and ends the search at the quorum.

* **`searchValueQuorum_selects`** — what it ends with when there is no quorum.
* **`stopsAt_iff`** — the quorum is compared with `>`: the search never stops at the `n`-th value.
-/

namespace KadDht.Values

open List

/-! ## Model -/

/-- A received value, which may be nil, and the peer it is from. -/
structure RecvdVal where
  val : Option Bytes
  sender : PeerId
deriving DecidableEq

def RecvdVal.bytes (v : RecvdVal) : Bytes := v.val.getD []

/-- The variables of `processValues` and of the callback of `searchValueQuorum`, with what was
written to `out` and how often `stopCh` was closed. -/
structure Search where
  best : Option Bytes
  peersWithBest : Finset PeerId
  aborted : Bool
  numResponses : Nat
  out : List (Option Bytes)
  closes : Nat
deriving DecidableEq

inductive Arrival where
  /-- A value, and whether the caller takes it from `out` if it is offered. Otherwise the context is
  done. -/
  | value (v : RecvdVal) (taken : Bool)
  | done
deriving DecidableEq

namespace Search

def new : Search := ⟨none, ∅, false, 0, [], 0⟩

def lead (v : RecvdVal) (s : Search) : Search :=
  { s with best := v.val, peersWithBest := {v.sender} }

/-- A value is compared with the best one. The second result is the argument `better` of the
callback, which is not called if `Validator.Select` fails. -/
def take (select : Bytes → Bytes → Except String Nat) (v : RecvdVal) (s : Search) :
    Search × Option Bool :=
  match s.best with
  | some best =>
    if best = v.bytes then
      ({ s with peersWithBest := insert v.sender s.peersWithBest }, some false)
    else
      match select best v.bytes with
      | .error _ => (s, none)
      | .ok sel => if sel ≠ 1 then (s, some false) else (s.lead v, some true)
  | none => (s.lead v, some true)

/-- The end of the callback: the quorum is checked. -/
def checkQuorum (nvals : Int) (s : Search) : Search :=
  if 0 < nvals ∧ nvals < s.numResponses then { s with closes := s.closes + 1, aborted := true }
  else { s with aborted := false }

def newVal (nvals : Int) (v : RecvdVal) (better taken : Bool) (s : Search) : Search :=
  let s := { s with numResponses := s.numResponses + 1 }
  if better then
    if taken then checkQuorum nvals { s with out := s.out ++ [v.val] }
    else { s with aborted := false }
  else checkQuorum nvals s

def receive (select : Bytes → Bytes → Except String Nat) (nvals : Int) (v : RecvdVal)
    (taken : Bool) (s : Search) : Search :=
  match s.take select v with
  | (s, some better) => s.newVal nvals v better taken
  | (s, none) => s

end Search

/-- `processValues`, with what it does not read from its channels. The channel of values is closed
at the end of the list. -/
def processValues (select : Bytes → Bytes → Except String Nat) (nvals : Int) :
    List Arrival → Search → Search × List Arrival
  | [], s => (s, [])
  | a :: rest, s =>
    if s.aborted then (s, a :: rest)
    else
      match a with
      | .value v taken => processValues select nvals rest (s.receive select nvals v taken)
      | .done => (s, rest)

def searchValueQuorum (select : Bytes → Bytes → Except String Nat) (nvals : Int)
    (arrivals : List Arrival) : Search × List Arrival :=
  processValues select nvals arrivals Search.new

def undisturbed (vals : List RecvdVal) : List Arrival := vals.map (.value · true)

/-! ## What a round does -/

namespace Search

variable {select : Bytes → Bytes → Except String Nat} {v : RecvdVal} {s : Search}

variable (select : Bytes → Bytes → Except String Nat) (v : RecvdVal) (s : Search) in
inductive Takes : Search × Option Bool → Prop where
  | first (hbest : s.best = none) : Takes (s.lead v, some true)
  | again (hbest : s.best = some v.bytes) :
    Takes ({ s with peersWithBest := insert v.sender s.peersWithBest }, some false)
  | failed {b : Bytes} {err : String} (hbest : s.best = some b) (hne : b ≠ v.bytes)
    (hselect : select b v.bytes = .error err) : Takes (s, none)
  | kept {b : Bytes} {sel : Nat} (hbest : s.best = some b) (hne : b ≠ v.bytes)
    (hselect : select b v.bytes = .ok sel) (hsel : sel ≠ 1) : Takes (s, some false)
  | replaced {b : Bytes} (hbest : s.best = some b) (hne : b ≠ v.bytes)
    (hselect : select b v.bytes = .ok 1) : Takes (s.lead v, some true)

theorem takes (select : Bytes → Bytes → Except String Nat) (v : RecvdVal) (s : Search) :
    Takes select v s (s.take select v) := by
  unfold take
  split
  · next b hbest =>
    split
    · next heq => exact .again (heq ▸ hbest)
    · next hne =>
      split
      · next err hselect => exact .failed hbest hne hselect
      · next sel hselect =>
        split
        · next hsel => exact .kept hbest hne hselect hsel
        · next hsel =>
          rw [Decidable.not_not.mp hsel] at hselect
          exact .replaced hbest hne hselect
  · next hbest => exact .first hbest

theorem receive_of_take {nvals : Int} {taken better : Bool} {s' : Search}
    (h : s.take select v = (s', some better)) :
    s.receive select nvals v taken = s'.newVal nvals v better taken := by
  rw [receive, h]

end Search

/-! ## The best value -/

section Best

variable {select : Bytes → Bytes → Except String Nat} {better : Bytes → Bytes → Prop}
  {vals : List (Bytes × PeerId)} {s : Search} {b a : Bytes} {p : PeerId}

/-- `Validator.Select` never fails, and chooses the second of two values exactly if it is
better. -/
def SelectsBetter (select : Bytes → Bytes → Except String Nat) (better : Bytes → Bytes → Prop) :
    Prop :=
  ∀ a b, ∃ sel, select a b = .ok sel ∧ (sel = 1 ↔ better a b)

/-- What a search knows about the values it has taken: a best one, who sent it, and the ones that
were the best when they arrived. -/
structure Selected (better : Bytes → Bytes → Prop) (vals : List (Bytes × PeerId)) (s : Search) :
    Prop where
  none_iff : s.best = none ↔ vals = []
  mem : ∀ b, s.best = some b → ∃ p, (b, p) ∈ vals
  best : ∀ b, s.best = some b → ∀ v ∈ vals, ¬ better b v.1
  peers : ∀ p, p ∈ s.peersWithBest ↔ ∃ b, s.best = some b ∧ (b, p) ∈ vals
  out : ∃ outs : List Bytes, s.out = outs.map some ∧ outs.Pairwise better ∧ outs.getLast? = s.best

namespace Selected

theorem new : Selected better [] Search.new where
  none_iff := ⟨fun _ => rfl, fun _ => rfl⟩
  mem := nofun
  best := nofun
  peers := fun p => by simp [Search.new]
  out := ⟨[], rfl, List.Pairwise.nil, rfl⟩

/-- A value that is not better than the best one is received. -/
theorem keep (h : Selected better vals s) (hb : s.best = some b) (hnot : ¬ better b a)
    {p : PeerId} {peers : Finset PeerId}
    (hpeers : ∀ q, q ∈ peers ↔ q ∈ s.peersWithBest ∨ b = a ∧ q = p) :
    Selected better (vals ++ [(a, p)]) { s with peersWithBest := peers } where
  none_iff := by simp [hb]
  mem := by
    intro c hc
    obtain ⟨q, hq⟩ := h.mem c hc
    exact ⟨q, mem_append_left _ hq⟩
  best := by
    intro c hc v hv
    rcases mem_append.mp hv with hv | hv
    · exact h.best c hc v hv
    · cases hb.symm.trans hc
      rw [mem_singleton.mp hv]
      exact hnot
  peers := by
    intro q
    rw [hpeers, h.peers]
    simp only [hb, Option.some.injEq, exists_eq_left', mem_append, mem_singleton, Prod.mk.injEq]
  out := h.out

/-- The best value is received again. -/
theorem again [Std.Irrefl better] (h : Selected better vals s) (hb : s.best = some b)
    (p : PeerId) :
    Selected better (vals ++ [(b, p)])
      { s with peersWithBest := insert p s.peersWithBest } :=
  h.keep hb (irrefl b) fun q => by simp [or_comm]

/-- A value that is not better than the best one, and not the same. -/
theorem skip (h : Selected better vals s) (hb : s.best = some b) (hne : b ≠ a)
    (hnot : ¬ better b a) (p : PeerId) : Selected better (vals ++ [(a, p)]) s :=
  h.keep hb hnot fun _ => (or_iff_left fun heq => hne heq.1).symm

/-- The first value, or one better than the best. It was not received before: no value received
before is better than the best one. -/
theorem lead [IsStrictOrder Bytes better] (h : Selected better vals s)
    (hlead : ∀ b, s.best = some b → better b a) (p : PeerId) :
    Selected better (vals ++ [(a, p)])
      { s.lead ⟨some a, p⟩ with out := s.out ++ [some a] } where
  none_iff := by simp [Search.lead]
  mem := by
    intro c hc
    cases hc
    exact ⟨p, mem_append_right _ mem_cons_self⟩
  best := by
    intro c hc v hv
    cases hc
    rcases mem_append.mp hv with hv | hv
    · cases hs : s.best with
      | none =>
        rw [h.none_iff.mp hs] at hv
        cases hv
      | some b =>
        exact fun hav => h.best b hs v hv (Trans.trans (hlead b hs) hav)
    · rw [mem_singleton.mp hv]
      exact irrefl a
  peers := by
    intro q
    have hfresh : (a, q) ∉ vals := by
      intro hmem
      cases hs : s.best with
      | none =>
        rw [h.none_iff.mp hs] at hmem
        cases hmem
      | some b => exact h.best b hs _ hmem (hlead b hs)
    simp [Search.lead, hfresh]
  out := by
    obtain ⟨outs, hout, hpairwise, hlast⟩ := h.out
    refine ⟨outs ++ [a], by simp [hout], ?_, by simp [Search.lead]⟩
    refine pairwise_append.mpr ⟨hpairwise, pairwise_singleton _ _, ?_⟩
    -- the earlier ones are exceeded by the last of them
    intro x hx y hy
    rw [mem_singleton.mp hy]
    cases hs : s.best with
    | none =>
      rw [hs] at hlast
      rw [getLast?_eq_none_iff.mp hlast] at hx
      cases hx
    | some b =>
      rw [hs] at hlast
      obtain ⟨init, rfl⟩ := getLast?_eq_some_iff.mp hlast
      rcases mem_append.mp hx with hx | hx
      · have hxb := (pairwise_append.mp hpairwise).2.2 x hx b mem_cons_self
        exact Trans.trans hxb (hlead b hs)
      · rw [mem_singleton.mp hx]
        exact hlead b hs

/-- Without a quorum the end of the callback goes on. -/
theorem checkQuorum {nvals : Int} (hnvals : nvals ≤ 0) (h : Selected better vals s) :
    Selected better vals (s.checkQuorum nvals) ∧ (s.checkQuorum nvals).aborted = false := by
  have hoff : ¬ (0 < nvals ∧ nvals < s.numResponses) := by omega
  rw [Search.checkQuorum, if_neg hoff]
  exact ⟨{ h with }, rfl⟩

/-- The callback counts the value. -/
theorem counted (h : Selected better vals s) (n : Nat) :
    Selected better vals { s with numResponses := n } :=
  { h with }

end Selected

variable [IsStrictOrder Bytes better] {nvals : Int}

theorem receive_selected (hsel : SelectsBetter select better) (hnvals : nvals ≤ 0)
    (h : Selected better vals s) (a : Bytes) (p : PeerId) :
    Selected better (vals ++ [(a, p)]) (s.receive select nvals ⟨some a, p⟩ true) ∧
      (s.receive select nvals ⟨some a, p⟩ true).aborted = false := by
  rcases hr : s.take select ⟨some a, p⟩ with ⟨s', better'⟩
  have htakes := Search.takes select ⟨some a, p⟩ s
  rw [hr] at htakes
  cases htakes with
  | first hbest =>
    rw [Search.receive_of_take hr]
    exact ((h.lead (fun b hb => nomatch hbest.symm.trans hb) p).counted _).checkQuorum hnvals
  | again hbest =>
    rw [Search.receive_of_take hr]
    exact ((h.again hbest p).counted _).checkQuorum hnvals
  | failed hbest hne hselect =>
    obtain ⟨sel, hok, -⟩ := hsel _ a
    cases hselect.symm.trans hok
  | @kept b sel hbest hne hselect hone =>
    obtain ⟨sel', hok, hiff⟩ := hsel b a
    cases hselect.symm.trans hok
    rw [Search.receive_of_take hr]
    exact ((h.skip hbest hne (fun hlt => hone (hiff.mpr hlt)) p).counted _).checkQuorum hnvals
  | @replaced b hbest hne hselect =>
    obtain ⟨sel', hok, hiff⟩ := hsel b a
    cases hselect.symm.trans hok
    rw [Search.receive_of_take hr]
    refine ((h.lead (fun c hc => ?_) p).counted _).checkQuorum hnvals
    cases hbest.symm.trans hc
    exact hiff.mp rfl

theorem processValues_selected (hsel : SelectsBetter select better) (hnvals : nvals ≤ 0)
    (more : List (Bytes × PeerId)) (h : Selected better vals s) (hgo : s.aborted = false) :
    ∃ s', processValues select nvals (undisturbed (more.map fun v => ⟨some v.1, v.2⟩)) s =
        (s', []) ∧ Selected better (vals ++ more) s' := by
  induction more generalizing vals s with
  | nil => exact ⟨s, rfl, (append_nil vals).symm ▸ h⟩
  | cons v more ih =>
    obtain ⟨hround, hround'⟩ := receive_selected hsel hnvals h v.1 v.2
    obtain ⟨s', hrun, hselected⟩ := ih hround hround'
    rw [append_assoc] at hselected
    refine ⟨s', ?_, hselected⟩
    show (if s.aborted then _ else _) = _
    rw [hgo]
    exact hrun

/-- **Without a quorum** the search ends with a best value, the peers that sent it, and the values
that were written to the caller: each is better than the one before it, and the last one is the
best. -/
theorem searchValueQuorum_selects (hsel : SelectsBetter select better) (hnvals : nvals ≤ 0)
    (vals : List (Bytes × PeerId)) :
    ∃ s, searchValueQuorum select nvals (undisturbed (vals.map fun v => ⟨some v.1, v.2⟩)) =
      (s, []) ∧ Selected better vals s := by
  exact processValues_selected hsel hnvals vals Selected.new rfl

def longer (a b : Bytes) : Prop := a.length < b.length

def selectLonger (a b : Bytes) : Except String Nat := .ok (if a.length < b.length then 1 else 0)

theorem selectLonger_selects : SelectsBetter selectLonger longer := by
  intro a b
  refine ⟨_, rfl, ?_⟩
  by_cases h : a.length < b.length
  · simp [longer, h]
  · simp [longer, h]

instance isStrictWeakOrder_longer : IsStrictWeakOrder Bytes longer where
  irrefl _ := Nat.lt_irrefl _
  trans _ _ _ := Nat.lt_trans
  incomp_trans a b c hab hbc := by
    unfold longer at *
    omega

/-- Three values, two of them the same. -/
theorem searchValueQuorum_selects_longer :
    SelectsBetter selectLonger longer ∧
    ∃ s, searchValueQuorum selectLonger 0 (undisturbed
      ([([7], [1]), ([7, 8], [2]), ([7, 8], [3])].map fun v => ⟨some v.1, v.2⟩)) = (s, []) ∧
    Selected longer [([7], [1]), ([7, 8], [2]), ([7, 8], [3])] s :=
  ⟨selectLonger_selects, searchValueQuorum_selects selectLonger_selects le_rfl _⟩

end Best

/-! ## The quorum -/

section Quorum

variable {select : Bytes → Bytes → Except String Nat} {vals : List RecvdVal} {s : Search} {n : Nat}

def NoneRejected (select : Bytes → Bytes → Except String Nat) (vals : List RecvdVal) : Prop :=
  ∀ v ∈ vals, ∀ w ∈ vals, ∃ sel, select v.bytes w.bytes = .ok sel

def BestFrom (vals : List RecvdVal) (s : Search) : Prop :=
  ∀ b, s.best = some b → ∃ v ∈ vals, v.bytes = b

theorem bestFrom_lead {v : RecvdVal} (hv : v ∈ vals) : BestFrom vals (s.lead v) := by
  intro b hb
  refine ⟨v, hv, ?_⟩
  show v.val.getD [] = b
  rw [show v.val = some b from hb]
  rfl

/-- A value that is not rejected is passed on to the callback. -/
theorem take_passes (hsel : NoneRejected select vals) (hbest : BestFrom vals s) {v : RecvdVal}
    (hv : v ∈ vals) : ∃ s' better, s.take select v = (s', some better) ∧ BestFrom vals s' ∧
      s'.numResponses = s.numResponses ∧ s'.closes = s.closes := by
  rcases hr : s.take select v with ⟨s', answer⟩
  have htakes := Search.takes select v s
  rw [hr] at htakes
  cases htakes with
  | first hb | replaced hb hne hselect => exact ⟨_, _, rfl, bestFrom_lead hv, rfl, rfl⟩
  | again hb | kept hb hne hselect hone => exact ⟨_, _, rfl, hbest, rfl, rfl⟩
  | failed hb hne hselect =>
    obtain ⟨w, hw, rfl⟩ := hbest _ hb
    obtain ⟨sel, hok⟩ := hsel w hw v hv
    cases hselect.symm.trans hok

theorem checkQuorum_closes (nvals : Int) (s : Search) :
    (s.checkQuorum nvals).best = s.best ∧
    (s.checkQuorum nvals).numResponses = s.numResponses ∧
    ((s.checkQuorum nvals).aborted = true ↔ 0 < nvals ∧ nvals < s.numResponses) ∧
    (s.checkQuorum nvals).closes = s.closes + (s.checkQuorum nvals).aborted.toNat := by
  unfold Search.checkQuorum
  by_cases h : 0 < nvals ∧ nvals < s.numResponses
  · rw [if_pos h]
    exact ⟨rfl, rfl, iff_of_true rfl h, rfl⟩
  · rw [if_neg h]
    exact ⟨rfl, rfl, iff_of_false Bool.false_ne_true h, rfl⟩

theorem newVal_counts (nvals : Int) (v : RecvdVal) (better : Bool) (s : Search) :
    (s.newVal nvals v better true).best = s.best ∧
    (s.newVal nvals v better true).numResponses = s.numResponses + 1 ∧
    ((s.newVal nvals v better true).aborted = true ↔
      0 < nvals ∧ nvals < (s.numResponses + 1 : Nat)) ∧
    (s.newVal nvals v better true).closes =
      s.closes + (s.newVal nvals v better true).aborted.toNat := by
  cases better with
  | true =>
    exact checkQuorum_closes nvals
      { s with numResponses := s.numResponses + 1, out := s.out ++ [v.val] }
  | false => exact checkQuorum_closes nvals { s with numResponses := s.numResponses + 1 }

/-- With none of the values rejected, each one received is counted, and the search is aborted by the
first one over the quorum. -/
theorem processValues_counts (hn : 0 < n) (hsel : NoneRejected select vals)
    (more : List RecvdVal) (hmore : ∀ v ∈ more, v ∈ vals) (hbest : BestFrom vals s)
    (hgo : s.aborted = false) (hcloses : s.closes = 0) (hcount : s.numResponses ≤ n) :
    (s.numResponses + more.length ≤ n ∧
      (processValues select n (undisturbed more) s).1.aborted = false ∧
      (processValues select n (undisturbed more) s).2 = []) ∨
    (n < s.numResponses + more.length ∧
      (processValues select n (undisturbed more) s).1.aborted = true ∧
      (processValues select n (undisturbed more) s).1.closes = 1 ∧
      (processValues select n (undisturbed more) s).2 =
        (undisturbed more).drop (n + 1 - s.numResponses)) := by
  induction more generalizing s with
  | nil => exact .inl ⟨hcount, hgo, rfl⟩
  | cons v more ih =>
    obtain ⟨s1, better, htake, hbest1, hcount1, hcloses1⟩ :=
      take_passes hsel hbest (hmore v mem_cons_self)
    obtain ⟨hbest2, hcount2, haborted, hcloses2⟩ := newVal_counts n v better s1
    have hrun : processValues select n (undisturbed (v :: more)) s =
        processValues select n (undisturbed more) (s1.newVal n v better true) := by
      rw [← Search.receive_of_take htake]
      show (if s.aborted then _ else _) = _
      rw [hgo]
      rfl
    rw [hrun, length_cons]
    by_cases hfull : n < s.numResponses + 1
    · -- the round that exceeds the quorum
      have hstop : (s1.newVal n v better true).aborted = true := by
        rw [haborted]
        omega
      have hreturn : processValues select n (undisturbed more) (s1.newVal n v better true) =
          (s1.newVal n v better true, undisturbed more) := by
        cases more with
        | nil => rfl
        | cons w more =>
          show (if (s1.newVal n v better true).aborted then _ else _) = _
          rw [hstop]
          rfl
      right
      rw [hreturn]
      refine ⟨by omega, hstop, ?_, ?_⟩
      · rw [hcloses2, hstop, hcloses1, hcloses]
        rfl
      · rw [show n + 1 - s.numResponses = 1 by omega]
        rfl
    · have hon : (s1.newVal n v better true).aborted = false := by
        rw [← Bool.not_eq_true, haborted]
        omega
      have hnext : (s1.newVal n v better true).numResponses = s.numResponses + 1 := by
        rw [hcount2, hcount1]
      rcases ih (fun w hw => hmore w (mem_cons_of_mem v hw))
        (fun b hb => hbest1 b (hbest2 ▸ hb)) hon (by rw [hcloses2, hon, hcloses1, hcloses]; rfl)
        (by omega) with ⟨hle, hend, hrest⟩ | ⟨hlt, hend, hclose, hrest⟩
      · exact .inl ⟨by omega, hend, hrest⟩
      · refine .inr ⟨by omega, hend, hclose, ?_⟩
        rw [hrest, hnext, show n + 1 - s.numResponses = (n + 1 - (s.numResponses + 1)) + 1 by omega]
        rfl

/-- The search stops once the `n`-th value is processed: `stopCh` is closed once, and the other
values are not read. -/
def StopsAt (select : Bytes → Bytes → Except String Nat) (n : Nat) (vals : List RecvdVal) : Prop :=
  let r := searchValueQuorum select n (undisturbed vals)
  r.1.closes = 1 ∧ r.1.aborted = true ∧ r.2 = undisturbed (vals.drop n)

instance decidableStopsAt (select : Bytes → Bytes → Except String Nat) (n : Nat)
    (vals : List RecvdVal) :
    Decidable (StopsAt select n vals) := inferInstanceAs (Decidable (_ ∧ _ ∧ _))

/-- **The quorum** is respected only in that there are too few values: when the `n`-th value is
processed, the number of responses does not exceed `n`. -/
theorem stopsAt_iff (hn : 0 < n) (hsel : NoneRejected select vals) :
    (n ≤ vals.length → StopsAt select n vals) ↔ vals.length < n := by
  constructor
  · intro hquorum
    by_contra hge
    obtain ⟨-, haborted, hrest⟩ := hquorum (Nat.le_of_not_lt hge)
    rcases processValues_counts (s := Search.new) hn hsel vals (fun v hv => hv)
      nofun rfl rfl (Nat.zero_le n) with ⟨-, hon, -⟩ | ⟨hlt, -, -, hread⟩
    · cases hon.symm.trans haborted
    · have hlen := congrArg length (hread.symm.trans hrest)
      have hmore : n < vals.length := by simpa [Search.new] using hlt
      simp [Search.new, undisturbed] at hlen
      omega
  · intro hlt hle
    omega

/-- Two values for a quorum of three. -/
theorem stopsAt_three :
    (3 ≤ [(⟨some [7], [1]⟩ : RecvdVal), ⟨some [8], [2]⟩].length →
      StopsAt selectLonger 3 [⟨some [7], [1]⟩, ⟨some [8], [2]⟩]) ↔
    [(⟨some [7], [1]⟩ : RecvdVal), ⟨some [8], [2]⟩].length < 3 :=
  stopsAt_iff (by decide) fun v _ w _ => ⟨_, rfl⟩

/-- A quorum of one, and two values: both are read. A quorum of one, and one value: the search is
not stopped. -/
theorem not_stopsAt_one :
    (searchValueQuorum selectLonger 1 (undisturbed [⟨some [7], [1]⟩, ⟨some [8], [2]⟩])).2 = [] ∧
    (searchValueQuorum selectLonger 1 (undisturbed [⟨some [7], [1]⟩])).1.aborted = false ∧
    ¬ (1 ≤ [(⟨some [7], [1]⟩ : RecvdVal), ⟨some [8], [2]⟩].length →
      StopsAt selectLonger 1 [⟨some [7], [1]⟩, ⟨some [8], [2]⟩]) := by
  decide

end Quorum

end KadDht.Values
