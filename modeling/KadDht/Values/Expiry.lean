import KadDht.Lib.Exclusive
import KadDht.Values.Record

/-!
# Values — records that expire (`handlers.go`)

`checkLocalDatastore` reads a record, decides whether it has expired, and deletes by key what has
expired. A put in between is deleted with it.

* **`kept_iff`** — a record that was put is kept unless a call deletes it that has read the record
  before it.
-/

namespace KadDht.Values

open Trace Call

/-! ## What a record is kept against -/

/-- A GET has read a record and has not decided yet, or is about to delete it. -/
def HasRead : Call → Prop
  | .judge _ => True
  | .delete => True
  | _ => False

/-- The last nanosecond at which a record is not too old. -/
def lastValid (maxRecordAge : Int64) (received : Time) : Int := received.ns + maxRecordAge.toInt

section

variable (v : Validator) (maxRecordAge : Int64) (key : Bytes)

def NoPut (ls : List Label) (w : Node) : Prop :=
  ∀ i w', Takes (Node.step v maxRecordAge key) ls w (.call i none) w' →
    ∀ origin rec, w'.threads[i]? ≠ some (.store origin rec)

/-- The record is there at every time at which it is not too old. -/
def Kept (ls : List Label) (w : Node) (rec : Record) (received : Time) : Prop :=
  ∀ w', Visits (Node.step v maxRecordAge key) ls w w' →
    w'.shared.now.ns ≤ lastValid maxRecordAge received → w'.shared.entry = some (some rec)

/-- In the run a call deletes, before a given time, that has read a record before the run. -/
def StaleDelete (ls : List Label) (w : Node) (last : Int) : Prop :=
  ∃ i w' c, Takes (Node.step v maxRecordAge key) ls w (.call i none) w' ∧
    w'.shared.now.ns ≤ last ∧ w'.threads[i]? = some .delete ∧ w.threads[i]? = some c ∧ HasRead c

end

/-! ## A record is only found bad when it is too old -/

variable {v : Validator} {maxRecordAge : Int64} {key : Bytes}

theorem lastValid_lt_of_bad {rec : Record} {received now : Time}
    (hrec : rec.timeReceived = some received)
    (hbad : recordIsBad maxRecordAge now rec = true) :
    lastValid maxRecordAge received < now.ns := by
  unfold recordIsBad at hbad
  rw [hrec] at hbad
  have hold := Time.lt_of_lt_sub (of_decide_eq_true hbad)
  unfold lastValid
  omega

theorem not_hasRead_checkMessage (now : Time) (msg : PutMessage) :
    ¬ HasRead (checkMessage v now msg) := by
  unfold checkMessage
  repeat' split
  all_goals exact id

variable {err : Option String} {s : Shared}

theorem readRecord_eq_judge {k : Bytes} {rec : Record} (h : readRecord k err s = .judge rec) :
    s.entry = some (some rec) := by
  unfold readRecord at h
  split at h
  · cases h
  · split at h
    · cases h
    · split at h
      · cases h
      · cases h
      · next hentry =>
        cases h
        exact hentry

theorem readRecord_ne_delete {k : Bytes} : readRecord k err s ≠ .delete := by
  unfold readRecord
  repeat' split
  all_goals exact Call.noConfusion

theorem Call.Goes.now_eq {s' : Shared} {c c' : Call} (h : Goes v maxRecordAge key err s c c' s') :
    s'.now = s.now := by
  cases h with
  | rejected hrejects | storeFails herr | stores herr => exact unlock_now _ _
  | _ => rfl

/-! ## After a put

From the put on there are two kinds of calls. Those that have read before it may still delete the
record. The others find the record itself, and delete it only when it is too old. -/

/-- After a put the record is stored until it is too old. The calls that read after the put find
this record. -/
structure Fresh (w1 : Node) (rec : Record) (last : Int) (w : Node) : Prop where
  entry : w.shared.entry = some (some rec) ∨ last < w.shared.now.ns ∧ w.shared.entry = none
  judge : ∀ (i : Nat) (r : Record), (∀ c, w1.threads[i]? = some c → ¬ HasRead c) →
    w.threads[i]? = some (.judge r) → r = rec
  delete : ∀ i : Nat, (∀ c, w1.threads[i]? = some c → ¬ HasRead c) →
    w.threads[i]? = some .delete → last < w.shared.now.ns

variable {w1 w w' : Node} {rec : Record} {received : Time} {l : Label}

/-- A step of a call that changes neither the clock nor what is stored. -/
theorem Fresh.call (h : Fresh w1 rec (lastValid maxRecordAge received) w) {i : Nat} {c c' : Call}
    {s' : Shared} (hi : w.threads[i]? = some c) (hnow : s'.now = w.shared.now)
    (hentry : s'.entry = w.shared.entry ∨
      lastValid maxRecordAge received < w.shared.now.ns ∧ s'.entry = none)
    (hjudge : ∀ r, c' = .judge r → (∀ a, w1.threads[i]? = some a → ¬ HasRead a) → r = rec)
    (hdelete : c' = .delete → (∀ a, w1.threads[i]? = some a → ¬ HasRead a) →
      lastValid maxRecordAge received < w.shared.now.ns) :
    Fresh w1 rec (lastValid maxRecordAge received) ⟨s', w.threads.set i c'⟩ where
  entry := by
    rw [hnow]
    rcases hentry with heq | hgone
    · rw [heq]
      exact h.entry
    · exact .inr hgone
  judge := by
    intro j r hnew hj
    rcases getElem?_set_cases hj with ⟨rfl, heq⟩ | ⟨-, hj⟩
    · exact hjudge r heq.symm hnew
    · exact h.judge j r hnew hj
  delete := by
    intro j hnew hj
    rw [hnow]
    rcases getElem?_set_cases hj with ⟨rfl, heq⟩ | ⟨-, hj⟩
    · exact hdelete heq.symm hnew
    · exact h.delete j hnew hj

/-- A step keeps this, unless it is a put, or a deletion by a call that has read before. -/
theorem fresh_step (hrec : rec.timeReceived = some received)
    (hput : ∀ i, l = .call i none → ∀ o r, w.threads[i]? ≠ some (.store o r))
    (hstale : ∀ i c, l = .call i none → w.threads[i]? = some .delete →
      w1.threads[i]? = some c → HasRead c → lastValid maxRecordAge received < w.shared.now.ns)
    (h : Fresh w1 rec (lastValid maxRecordAge received) w)
    (hstep : Node.step v maxRecordAge key l w = some w') :
    Fresh w1 rec (lastValid maxRecordAge received) w' := by
  cases l with
  | tick now =>
    obtain ⟨hle, ⟨⟩⟩ := Option.ite_none_right_eq_some.mp hstep
    refine ⟨?_, h.judge, fun i hnew hi => (h.delete i hnew hi).trans_le hle⟩
    exact h.entry.imp_right fun hgone => ⟨hgone.1.trans_le hle, hgone.2⟩
  | call i err =>
    obtain ⟨c, c', s', hi, hgo, rfl⟩ := Pool.advance_eq_some hstep
    have hgoes := goes hgo
    have hnow := hgoes.now_eq
    cases hgoes with
    | message msg =>
      have hnot := not_hasRead_checkMessage (v := v) w.shared.now msg
      refine h.call hi hnow (.inl rfl) (fun r hr _ => ?_) fun hr _ => ?_
      · rw [hr] at hnot
        exact (hnot trivial).elim
      · rw [hr] at hnot
        exact (hnot trivial).elim
    | reads k =>
      refine h.call hi hnow (.inl rfl) (fun r hr _ => ?_) fun hr _ => ?_
      · -- it reads the record of the put
        have hentry := readRecord_eq_judge hr
        rcases h.entry with hrec' | ⟨-, hnone⟩
        · rw [hrec'] at hentry
          exact (Option.some.inj (Option.some.inj hentry)).symm
        · rw [hnone] at hentry
          cases hentry
      · exact (readRecord_ne_delete hr).elim
    | @bad r hbad =>
      refine h.call hi hnow (.inl rfl) (fun r hr _ => nomatch hr) fun _ hnew => ?_
      obtain rfl := h.judge i r hnew hi
      exact lastValid_lt_of_bad hrec hbad
    | stores herr => exact (hput i (by rw [herr]) _ _ hi).elim
    | deletes herr =>
      have hlate : lastValid maxRecordAge received < w.shared.now.ns := by
        by_cases hnew : ∀ a, w1.threads[i]? = some a → ¬ HasRead a
        · exact h.delete i hnew hi
        · simp only [not_forall, not_not] at hnew
          obtain ⟨a, ha, hread⟩ := hnew
          exact hstale i a (by rw [herr]) hi ha hread
      exact h.call hi hnow (.inr ⟨hlate, rfl⟩) (fun r hr _ => nomatch hr) fun hr _ => nomatch hr
    | rejected hrejects | storeFails herr =>
      exact h.call hi hnow (.inl (unlock_entry _ _)) (fun r hr _ => nomatch hr)
        fun hr _ => nomatch hr
    | _ =>
      exact h.call hi hnow (.inl rfl) (fun r hr _ => nomatch hr) fun hr _ => nomatch hr

/-- **A put is kept** exactly if no call deletes that has read before the put. -/
theorem kept_iff {i : Nat} {origin : Origin} {ls : List Label} {w2 : Node}
    (hi : w.threads[i]? = some (.store origin rec))
    (hput : Node.step v maxRecordAge key (.call i none) w = some w1)
    (hrun : Trace.run (Node.step v maxRecordAge key) ls w1 = some w2)
    (hlast : NoPut v maxRecordAge key ls w1) :
    Kept v maxRecordAge key ls w1 { rec with timeReceived := some w.shared.now } w.shared.now ↔
      ¬ StaleDelete v maxRecordAge key ls w1 (lastValid maxRecordAge w.shared.now) := by
  constructor
  · rintro hkept ⟨j, w', c, htakes, htime, hj, -, -⟩
    have hdelete : Node.step v maxRecordAge key (.call j none) w' =
        some ⟨{ w'.shared with entry := none }, w'.threads.set j (.answered none)⟩ := by
      show Pool.advance _ w' j = _
      rw [Pool.advance, hj]
      rfl
    cases hkept _ (htakes.visits hdelete) htime
  · intro hfresh w' hvisit htime
    have hstart : Fresh w1 { rec with timeReceived := some w.shared.now }
        (lastValid maxRecordAge w.shared.now) w1 := by
      obtain ⟨c, c', s', hc, hgo, rfl⟩ := Pool.advance_eq_some hput
      cases hi.symm.trans hc
      cases hgo
      exact ⟨.inl (unlock_entry _ _), fun j r hnew hj => (hnew _ hj trivial).elim,
        fun j hnew hj => (hnew _ hj trivial).elim⟩
    have hinv := hvisit.invariant (fun l w3 w4 htakes hw3 hstep =>
      fresh_step rfl (fun j hl => hlast j w3 (hl ▸ htakes))
        (fun j c hl hj hc hread => not_le.mp fun hle =>
          hfresh ⟨j, w3, c, hl ▸ htakes, hle, hj, hc, hread⟩) hw3 hstep) hstart
    exact hinv.entry.resolve_right fun hgone => not_lt.mpr htime hgone.1

/-! ## A put between the read and the deletion -/

def acceptAll : Validator := ⟨fun _ _ _ => none, fun _ _ _ => .ok 0⟩

/-- A record that was received in 1970, read by a peer while another one puts a new record. Records
are kept for an hour. -/
def staleNode : Node where
  shared := ⟨Time.unix 1000000 0, some (some ⟨[1], [7], some (Time.unix 0 0)⟩), false⟩
  threads := [.handleGetValue [1], .handlePutValue ⟨[1], some ⟨[1], [8], none⟩⟩]

/-- The old record is about to be deleted, and the new one about to be written. -/
def racingNode : Node where
  shared := ⟨Time.unix 1000000 0, some (some ⟨[1], [7], some (Time.unix 0 0)⟩), true⟩
  threads := [.delete, .store .peer ⟨[1], [8], none⟩]

def writtenNode : Node where
  shared := ⟨Time.unix 1000000 0, some (some ⟨[1], [8], some (Time.unix 1000000 0)⟩), false⟩
  threads := [.delete, .stored [8]]

theorem writtenNode_run :
    Trace.run (Node.step acceptAll 3600000000000 [1])
      [.call 0 none, .call 0 none, .call 1 none, .call 1 none, .call 1 none] staleNode =
        some racingNode ∧
    Node.step acceptAll 3600000000000 [1] (.call 1 none) racingNode = some writtenNode :=
  ⟨rfl, rfl⟩

/-- No time passes after the write of the new record, and it is deleted. -/
theorem not_kept_writtenNode :
    Trace.run (Node.step acceptAll 3600000000000 [1])
      [.call 0 none, .call 0 none, .call 1 none, .call 1 none, .call 1 none] staleNode =
        some racingNode ∧
    Node.step acceptAll 3600000000000 [1] (.call 1 none) racingNode = some writtenNode ∧
    ¬ Kept acceptAll 3600000000000 [1] [.call 0 none] writtenNode
      ⟨[1], [8], some (Time.unix 1000000 0)⟩ (Time.unix 1000000 0) := by
  refine ⟨writtenNode_run.1, writtenNode_run.2, fun hkept => ?_⟩
  have hgone := hkept ⟨⟨Time.unix 1000000 0, none, false⟩, [.answered none, .stored [8]]⟩
    ⟨[.call 0 none], [], rfl, rfl⟩ (by decide)
  cases hgone

/-- A record is about to be written, while a peer asks for it. -/
def puttingNode : Node where
  shared := ⟨Time.unix 1000000 0, none, true⟩
  threads := [.handleGetValue [1], .store .peer ⟨[1], [8], none⟩]

def putNode : Node where
  shared := ⟨Time.unix 1000000 0, some (some ⟨[1], [8], some (Time.unix 1000000 0)⟩), false⟩
  threads := [.handleGetValue [1], .stored [8]]

/-- Half an hour after the put the peer gets the record. -/
def laterGet : List Label := [.tick (Time.unix 1001800 0), .call 0 none, .call 0 none]

def answeredNode : Node where
  shared := ⟨Time.unix 1001800 0, some (some ⟨[1], [8], some (Time.unix 1000000 0)⟩), false⟩
  threads := [.answered (some ⟨[1], [8], some (Time.unix 1000000 0)⟩), .stored [8]]

/-- The record is put, and a later GET does not delete it. -/
theorem kept_iff_laterGet :
    Node.step acceptAll 3600000000000 [1] (.call 1 none) puttingNode = some putNode ∧
    Trace.run (Node.step acceptAll 3600000000000 [1]) laterGet putNode = some answeredNode ∧
    Kept acceptAll 3600000000000 [1] laterGet putNode
      { (⟨[1], [8], none⟩ : Record) with timeReceived := some puttingNode.shared.now }
      puttingNode.shared.now := by
  have hi : puttingNode.threads[1]? = some (store .peer ⟨[1], [8], none⟩) := rfl
  have hput : Node.step acceptAll 3600000000000 [1] (.call 1 none) puttingNode = some putNode := rfl
  have hrun : Trace.run (Node.step acceptAll 3600000000000 [1]) laterGet putNode =
    some answeredNode := rfl
  have hnoPut : NoPut acceptAll 3600000000000 [1] laterGet putNode := by
    intro i w' htakes
    rcases (takes_cons rfl).mp htakes with ⟨⟨⟩, -⟩ | htakes
    rcases (takes_cons rfl).mp htakes with ⟨⟨⟩, rfl⟩ | htakes
    · exact nofun
    rcases (takes_cons rfl).mp htakes with ⟨⟨⟩, rfl⟩ | ⟨before, after, heq, -⟩
    · exact nofun
    · simp at heq
  refine ⟨hput, hrun, (kept_iff hi hput hrun hnoPut).mpr ?_⟩
  rintro ⟨i, w', c, -, -, -, hc, hread⟩
  -- at the put no call has read
  rcases i with _ | _ | i
  · cases hc
    exact hread
  · cases hc
    exact hread
  · cases hc

end KadDht.Values
