import KadDht.Lib.Exclusive
import KadDht.Values.Record
import KadDht.Values.Select

/-!
# Values — puts that run at the same time (`handlers.go`, `routing.go`)

`handlePutValue` and `PutValue` both read the stored record, compare, and write. The lock that
`handlePutValue` takes keeps other peers away in between; `PutValue` does not take it.

* **`neverWorse_iff`** — when the stored value is as good as every value that was put successfully,
  in every run.
-/

namespace KadDht.Values

open Trace List Call

/-- In a strict weak order, what is not below something that is not below a third is not below the
third. -/
theorem not_rel_trans {α : Type*} {lt : α → α → Prop} [IsStrictWeakOrder α lt] {a b c : α}
    (hab : ¬ lt a b) (hbc : ¬ lt b c) : ¬ lt a c := by
  intro hac
  have hba : ¬ lt b a := fun hba => hbc (Trans.trans hba hac)
  have hcb : ¬ lt c b := fun hcb => hab (Trans.trans hac hcb)
  exact (IsStrictWeakOrder.incomp_trans a b c ⟨hab, hba⟩ ⟨hbc, hcb⟩).1 hac

/-! ## The values that are put -/

def Valid (v : Validator) (key value : Bytes) : Prop := ∀ t, v.validate t key value = none

def Stable (v : Validator) : Prop :=
  ∀ t key value, v.validate t key value = none → Valid v key value

/-- `Validator.Select` never fails, and chooses the first of two values unless the second is
better. -/
def SelectsFirst (v : Validator) (better : Bytes → Bytes → Prop) : Prop :=
  ∀ key a b, ∃ sel, v.select key a b = .ok sel ∧ (sel = 0 ↔ ¬ better a b)

def Current (v : Validator) (s : Shared) (value : Bytes) : Prop :=
  ∃ rec, s.entry = some (some rec) ∧ rec.value = value ∧ Valid v rec.key rec.value

inductive Offers (v : Validator) (key : Bytes) : Call → Origin → Bytes → Prop where
  | peer {rec : Record} (hkey : key ≠ []) (hrec : rec.key = key)
    (hvalid : Valid v key rec.value) :
    Offers v key (.handlePutValue ⟨key, some rec⟩) .peer rec.value
  | node {value : Bytes} (hvalid : Valid v key value) : Offers v key (.putValue value) .node value

/-- The calls are puts on the key that have not started, and nobody has the lock. What is stored
under the key is a record of the key, if it is a record. -/
structure Starts (key : Bytes) (w : Node) : Prop where
  calls : ∀ c ∈ w.threads, (∃ msg, c = .handlePutValue msg ∧ msg.key = key) ∨ ∃ x, c = .putValue x
  free : w.shared.locked = false
  key_eq : ∀ rec, w.shared.entry = some (some rec) → rec.key = key

/-- A call that is not a put that has not started. -/
def Started : Call → Prop
  | .handlePutValue _ => False
  | .putValue _ => False
  | _ => True

variable {w w0 : Node} {c : Call} {origin : Origin} {x : Bytes} {i : Nat}

theorem Starts.not_mem_of_started {key : Bytes} (h : Starts key w) (hmem : c ∈ w.threads) :
    ¬ Started c := by
  rcases h.calls c hmem with ⟨msg, rfl, -⟩ | ⟨x, rfl⟩
  · exact id
  · exact id

/-- A put that can succeed: nothing better is stored at the beginning. -/
def Able (v : Validator) (key : Bytes) (better : Bytes → Bytes → Prop) (w0 : Node)
    (origin : Origin) (value : Bytes) : Prop :=
  (∃ c ∈ w0.threads, Offers v key c origin value) ∧
    ∀ x, Current v w0.shared x → ¬ better value x

/-- In every run, what is stored is at least as good as every value that was put successfully. -/
def NeverWorse (v : Validator) (maxRecordAge : Int64) (key : Bytes)
    (better : Bytes → Bytes → Prop) (w0 : Node) : Prop :=
  ∀ ls w, Trace.run (Node.step v maxRecordAge key) ls w0 = some w →
    ∀ x, .stored x ∈ w.threads →
      ∃ rec, w.shared.entry = some (some rec) ∧ ¬ better rec.value x

/-! ## The comparison -/

variable {v : Validator} {maxRecordAge : Int64} {key : Bytes} {better : Bytes → Bytes → Prop}
  {s : Shared} {rec : Record} {err : Option String}

theorem getRecordFromDatastore_cases (hstable : Stable v) (s : Shared) :
    (∃ r, s.entry = some (some r) ∧ Valid v r.key r.value ∧
      getRecordFromDatastore v none s = .ok (some r)) ∨
    (∀ x, ¬ Current v s x) ∧ getRecordFromDatastore v none s = .ok none := by
  have habsent (h : ∀ r, s.entry ≠ some (some r)) : ∀ x, ¬ Current v s x :=
    fun _ hx => h hx.choose hx.choose_spec.1
  unfold getRecordFromDatastore
  split
  · next h => cases h
  · split
    · next r hentry =>
      split
      · next hvalid =>
        exact .inl ⟨r, hentry, hstable _ _ _ (Option.isNone_iff_eq_none.mp hvalid), rfl⟩
      · next hvalid =>
        refine .inr ⟨?_, rfl⟩
        rintro x ⟨r', hentry', -, hr'⟩
        cases hentry.symm.trans hentry'
        exact hvalid (Option.isNone_iff_eq_none.mpr (hr' _))
    · next hnone => exact .inr ⟨habsent hnone, rfl⟩

theorem select_rejects_iff (hsel : SelectsFirst v better) (k a b : Bytes) (msg : String) :
    (match v.select k a b with
      | .error e => some e
      | .ok i => if i ≠ 0 then some msg else none) = none ↔ ¬ better a b := by
  obtain ⟨sel, hok, hzero⟩ := hsel k a b
  rw [hok, ← hzero]
  by_cases h : sel = 0
  · simp [h]
  · simp [h]

theorem getLocal_eq {r : Option Record}
    (hkey : ∀ r, s.entry = some (some r) → r.key = key)
    (hr : ∀ r', r = some r' → s.entry = some (some r'))
    (h : getRecordFromDatastore v none s = .ok r) : getLocal v key none s = .ok r := by
  unfold getLocal
  rw [h]
  cases r with
  | none => rfl
  | some r => exact if_neg (not_not.mpr (hkey r (hr r rfl)))

/-- **A put passes** if the datastore works and nothing better is stored. -/
theorem rejects_eq_none_iff [Std.Irrefl better] (hstable : Stable v)
    (hsel : SelectsFirst v better)
    (hkey : ∀ r, s.entry = some (some r) → r.key = key) (origin : Origin) :
    rejects v key rec err s origin = none ↔
      err = none ∧ ∀ x, Current v s x → ¬ better rec.value x := by
  cases err with
  | some e =>
    refine iff_of_false ?_ fun h => nomatch h.1
    cases origin <;> exact nofun
  | none =>
    rcases getRecordFromDatastore_cases hstable s with ⟨r, hentry, hvalid, hget⟩ | ⟨hnone, hget⟩
    · have hcurrent : (none = (none : Option String) ∧ ∀ x, Current v s x → ¬ better rec.value x) ↔
          ¬ better rec.value r.value := by
        refine ⟨fun h => h.2 _ ⟨r, hentry, rfl, hvalid⟩, fun h => ⟨rfl, ?_⟩⟩
        rintro x ⟨r', hentry', rfl, -⟩
        cases hentry.symm.trans hentry'
        exact h
      have hlocal := getLocal_eq hkey (fun r' hr' => Option.some.inj hr' ▸ hentry) hget
      rw [hcurrent]
      cases origin with
      | peer =>
        rw [rejects, hget]
        exact select_rejects_iff hsel _ _ _ _
      | node =>
        rw [rejects, hlocal]
        dsimp only
        by_cases hsame : r.value = rec.value
        · -- the same value is not compared
          rw [if_pos hsame, hsame]
          exact iff_of_true rfl (irrefl _)
        · rw [if_neg hsame]
          exact select_rejects_iff hsel _ _ _ _
    · have hlocal := getLocal_eq hkey (fun r' hr' => by cases hr') hget
      refine iff_of_true ?_ ⟨rfl, fun x hx => (hnone x hx).elim⟩
      cases origin with
      | peer => rw [rejects, hget]
      | node => rw [rejects, hlocal]

/-! ## What is written -/

inductive CallOk (v : Validator) (key : Bytes) (better : Bytes → Bytes → Prop) (w0 : Node) :
    Call → Prop where
  | lock {rec : Record} (hkey : rec.key = key)
    (h : ∃ c ∈ w0.threads, Offers v key c .peer rec.value) : CallOk v key better w0 (.lock rec)
  | compare {origin : Origin} {rec : Record} (hkey : rec.key = key)
    (h : ∃ c ∈ w0.threads, Offers v key c origin rec.value) :
    CallOk v key better w0 (.compare origin rec)
  | store {origin : Origin} {rec : Record} (hkey : rec.key = key)
    (h : Able v key better w0 origin rec.value) : CallOk v key better w0 (.store origin rec)
  | stored {origin : Origin} {x : Bytes} (h : Able v key better w0 origin x) :
    CallOk v key better w0 (.stored x)
  | failed (e : String) : CallOk v key better w0 (.failed e)

/-- Only values of successful puts are written, over what was stored at the beginning. -/
structure Sound (v : Validator) (key : Bytes) (better : Bytes → Bytes → Prop) (w0 w : Node) :
    Prop where
  calls : ∀ c ∈ w.threads, c ∈ w0.threads ∨ CallOk v key better w0 c
  entry : w.shared.entry = w0.shared.entry ∧ (∀ x, .stored x ∉ w.threads) ∨
    ∃ origin rec, w.shared.entry = some (some rec) ∧ rec.key = key ∧
      Valid v key rec.value ∧ Able v key better w0 origin rec.value

theorem Offers.valid (h : Offers v key c origin x) : Valid v key x := by
  cases h with
  | peer hkey hrec hvalid => exact hvalid
  | node hvalid => exact hvalid

namespace Sound

variable {w0 w w' : Node}

theorem ok (hstart : Starts key w0) (h : Sound v key better w0 w) {c : Call}
    (hmem : c ∈ w.threads) (hc : Started c) : CallOk v key better w0 c :=
  (h.calls c hmem).resolve_left fun hold => hstart.not_mem_of_started hold hc

theorem key_eq (hstart : Starts key w0) (h : Sound v key better w0 w) :
    ∀ r, w.shared.entry = some (some r) → r.key = key := by
  intro r hr
  rcases h.entry with ⟨heq, -⟩ | ⟨origin, rec, hrec, hkey, -, -⟩
  · exact hstart.key_eq r (heq ▸ hr)
  · cases hrec.symm.trans hr
    exact hkey

/-- A put that passes is not worse than what was stored at the beginning. -/
theorem able [IsStrictWeakOrder Bytes better] (h : Sound v key better w0 w)
    {origin : Origin} {x : Bytes} (hoffers : ∃ c ∈ w0.threads, Offers v key c origin x)
    (hpass : ∀ y, Current v w.shared y → ¬ better x y) : Able v key better w0 origin x := by
  refine ⟨hoffers, fun y hy => ?_⟩
  rcases h.entry with ⟨heq, -⟩ | ⟨origin', rec, hrec, hkey, hvalid, hable⟩
  · obtain ⟨r, hr, rfl, hr'⟩ := hy
    exact hpass r.value ⟨r, heq ▸ hr, rfl, hr'⟩
  · -- what is stored now is not worse either
    exact not_rel_trans (hpass rec.value ⟨rec, hrec, rfl, hkey ▸ hvalid⟩) (hable.2 y hy)

/-- A call goes on without a write. -/
theorem set (h : Sound v key better w0 w) {i : Nat} {c' : Call} {s' : Shared}
    (hentry : s'.entry = w.shared.entry) (hok : CallOk v key better w0 c')
    (hnew : ∀ x, c' ≠ .stored x) : Sound v key better w0 ⟨s', w.threads.set i c'⟩ where
  calls := by
    intro c hc
    rcases mem_or_eq_of_mem_set hc with hc | rfl
    · exact h.calls c hc
    · exact .inr hok
  entry := by
    show s'.entry = _ ∧ _ ∨ _
    rw [hentry]
    refine h.entry.imp_left fun hold => ⟨hold.1, fun x hx => ?_⟩
    rcases mem_or_eq_of_mem_set hx with hx | hx
    · exact hold.2 x hx
    · exact hnew x hx.symm

end Sound

theorem checkMessage_ne_stored (now : Time) (msg : PutMessage) (x : Bytes) :
    checkMessage v now msg ≠ .stored x := by
  unfold checkMessage
  repeat' split
  all_goals exact Call.noConfusion

theorem checkMessage_ok (hstable : Stable v) (hstart : Starts key w0) {now : Time}
    {msg : PutMessage} (hmem : .handlePutValue msg ∈ w0.threads) :
    CallOk v key better w0 (checkMessage v now msg) := by
  have hkey : msg.key = key := by
    rcases hstart.calls _ hmem with ⟨msg', heq, hkey⟩ | ⟨x, heq⟩
    · exact handlePutValue.inj heq ▸ hkey
    · cases heq
  unfold checkMessage
  split
  · exact .failed _
  · next hne =>
    split
    · exact .failed _
    · next rec hrec =>
      split
      · exact .failed _
      · next hsame =>
        split
        · exact .failed _
        · next hvalid =>
          have hreckey : rec.key = key := (not_not.mp hsame).symm.trans hkey
          refine .lock hreckey ⟨_, hmem, ?_⟩
          obtain ⟨k, r⟩ := msg
          obtain rfl : r = some rec := hrec
          obtain rfl : k = key := hkey
          exact .peer hne hreckey (hreckey ▸ hstable _ _ _ hvalid)

/-- **Every step** keeps this. -/
theorem sound_step [IsStrictWeakOrder Bytes better] (hstable : Stable v)
    (hsel : SelectsFirst v better) {w' : Node} {l : Label} (hstart : Starts key w0)
    (h : Sound v key better w0 w) (hstep : Node.step v maxRecordAge key l w = some w') :
    Sound v key better w0 w' := by
  cases l with
  | tick now =>
    obtain ⟨-, ⟨⟩⟩ := Option.ite_none_right_eq_some.mp hstep
    exact { h with }
  | call i err =>
    obtain ⟨c, c', s', hi, hgo, rfl⟩ := Pool.advance_eq_some hstep
    have hmem := mem_of_getElem? hi
    cases goes hgo with
    | message msg =>
      rcases h.calls _ hmem with hstarts | hok
      · exact h.set rfl (checkMessage_ok hstable hstart hstarts) (checkMessage_ne_stored _ msg)
      · cases hok
    | locks rec hfree =>
      cases h.ok hstart hmem trivial with
      | lock hkey hoffers => exact h.set rfl (.compare hkey hoffers) nofun
    | invalid hvalid => exact h.set rfl (.failed _) nofun
    | valid hvalid =>
      rcases h.calls _ hmem with hstarts | hok
      · refine h.set rfl (.compare rfl ⟨_, hstarts, .node (hstable _ _ _ hvalid)⟩) fun x hx => ?_
        cases hx
      · cases hok
    | rejected hrejects | storeFails herr =>
      exact h.set (unlock_entry _ _) (.failed _) nofun
    | @passes origin rec hrejects =>
      have hpass := ((rejects_eq_none_iff hstable hsel (h.key_eq hstart) origin).mp hrejects).2
      cases h.ok hstart hmem trivial with
      | compare hkey hoffers =>
        exact h.set rfl (.store hkey (h.able hoffers hpass)) nofun
    | @stores origin rec herr =>
      cases h.ok hstart hmem trivial with
      | store hkey hable =>
        refine ⟨fun c hc => ?_, .inr ⟨origin, { rec with timeReceived := some w.shared.now },
          unlock_entry _ _, hkey, hable.1.choose_spec.2.valid, hable⟩⟩
        rcases mem_or_eq_of_mem_set hc with hc | rfl
        · exact h.calls c hc
        · exact .inr (.stored hable)
    | reads k | bad hbad | good hgood | deletes herr | deleteFails herr =>
      cases h.ok hstart hmem trivial

/-! ## The lock -/

def HoldsLock : Call → Prop
  | .compare .peer _ => True
  | .store .peer _ => True
  | _ => False

theorem HoldsLock.started (h : HoldsLock c) : Started c := by
  cases c <;> trivial

/-- One call at a time has the lock, what it is about to write is not worse than what is stored, and
neither is what is stored than what was written. -/
structure Guarded (v : Validator) (better : Bytes → Bytes → Prop) (w : Node) : Prop where
  lock : Exclusive HoldsLock (w.shared.locked = true) w.threads
  store : ∀ rec, .store .peer rec ∈ w.threads → ∀ x, Current v w.shared x → ¬ better rec.value x
  stored : ∀ x, .stored x ∈ w.threads → ∃ y, Current v w.shared y ∧ ¬ better y x

namespace Guarded

variable {w : Node} {i : Nat} {c c' : Call} {s' : Shared}

/-- A call goes on without a write. -/
theorem set (h : Guarded v better w) (hentry : s'.entry = w.shared.entry)
    (hlock : Exclusive HoldsLock (s'.locked = true) (w.threads.set i c'))
    (hstore : ∀ rec, c' = .store .peer rec → ∀ x, Current v w.shared x → ¬ better rec.value x)
    (hstored : ∀ x, c' ≠ .stored x) : Guarded v better ⟨s', w.threads.set i c'⟩ := by
  have hcurrent (x : Bytes) : Current v s' x ↔ Current v w.shared x := by
    unfold Current
    rw [hentry]
  refine ⟨hlock, fun rec hmem x hx => ?_, fun x hmem => ?_⟩
  · rw [hcurrent] at hx
    rcases mem_or_eq_of_mem_set hmem with hmem | heq
    · exact h.store rec hmem x hx
    · exact hstore rec heq.symm x hx
  · rcases mem_or_eq_of_mem_set hmem with hmem | heq
    · obtain ⟨y, hy, hxy⟩ := h.stored x hmem
      exact ⟨y, (hcurrent y).mpr hy, hxy⟩
    · exact (hstored x heq.symm).elim

/-- A call that does not have the lock afterwards, and has released it if it had it. -/
theorem leave (h : Guarded v better w) (hi : w.threads[i]? = some c)
    (hentry : s'.entry = w.shared.entry) (hnot : ¬ HoldsLock c')
    (hold : HoldsLock c ∨ s'.locked = w.shared.locked) (hstored : ∀ x, c' ≠ .stored x) :
    Guarded v better ⟨s', w.threads.set i c'⟩ := by
  have hlock : Exclusive HoldsLock (s'.locked = true) (w.threads.set i c') := by
    rcases hold with hc | heq
    · exact h.lock.release hi hc hnot
    · rw [heq]
      exact h.lock.set hi fun hc' => (hnot hc').elim
  refine h.set hentry hlock (fun rec hc' => ?_) hstored
  rw [hc'] at hnot
  exact (hnot trivial).elim

/-- The write of a call that has the lock. -/
theorem write [IsStrictWeakOrder Bytes better] {rec : Record} {now : Time}
    (h : Guarded v better w) (hi : w.threads[i]? = some (.store .peer rec))
    (hvalid : Valid v rec.key rec.value)
    (hentry : s'.entry = some (some { rec with timeReceived := some now })) :
    Guarded v better ⟨s', w.threads.set i (.stored rec.value)⟩ := by
  have hlock : Exclusive HoldsLock False (w.threads.set i (.stored rec.value)) :=
    h.lock.release hi trivial id
  have hget {j : Nat} {d : Call} (hj : (w.threads.set i (.stored rec.value))[j]? = some d)
      (hd : HoldsLock d) : False := hlock.taken j d hj hd
  have hcurrent : Current v s' rec.value := ⟨_, hentry, rfl, hvalid⟩
  refine ⟨h.lock.release hi trivial id, fun r hmem => ?_, fun x hmem => ⟨rec.value, hcurrent, ?_⟩⟩
  · obtain ⟨j, hj⟩ := mem_iff_getElem?.mp hmem
    exact (hget hj trivial).elim
  · rcases mem_or_eq_of_mem_set hmem with hmem | heq
    · -- what was stored before is between the two
      obtain ⟨y, hy, hyx⟩ := h.stored x hmem
      exact not_rel_trans (h.store rec (mem_of_getElem? hi) y hy) hyx
    · cases heq
      exact irrefl _

end Guarded

theorem checkMessage_not_holdsLock (now : Time) (msg : PutMessage) :
    ¬ HoldsLock (checkMessage v now msg) := by
  unfold checkMessage
  repeat' split
  all_goals exact id

/-- **Every step** keeps this if the node has no put that can succeed. -/
theorem guarded_step [IsStrictWeakOrder Bytes better] (hstable : Stable v)
    (hsel : SelectsFirst v better) {w' : Node} {l : Label} (hstart : Starts key w0)
    (hsound : Sound v key better w0 w) (hnode : ∀ x, ¬ Able v key better w0 .node x)
    (h : Guarded v better w) (hstep : Node.step v maxRecordAge key l w = some w') :
    Guarded v better w' := by
  cases l with
  | tick now =>
    obtain ⟨-, ⟨⟩⟩ := Option.ite_none_right_eq_some.mp hstep
    exact { h with }
  | call i err =>
    obtain ⟨c, c', s', hi, hgo, rfl⟩ := Pool.advance_eq_some hstep
    have hmem := mem_of_getElem? hi
    cases goes hgo with
    | message msg =>
      exact h.leave hi rfl (checkMessage_not_holdsLock _ msg) (.inr rfl)
        (checkMessage_ne_stored _ msg)
    | locks rec hfree =>
      have hlock : Exclusive HoldsLock (true = true) (w.threads.set i (.compare .peer rec)) :=
        h.lock.acquire (by rw [hfree]; exact Bool.false_ne_true) rfl
      exact h.set rfl hlock nofun nofun
    | invalid hvalid | valid hvalid => exact h.leave hi rfl id (.inr rfl) nofun
    | @rejected origin | @storeFails origin =>
      refine h.leave hi (unlock_entry _ _) id ?_ nofun
      cases origin with
      | peer => exact .inl trivial
      | node => exact .inr rfl
    | @passes origin rec hrejects =>
      have hpass := ((rejects_eq_none_iff hstable hsel (hsound.key_eq hstart) origin).mp hrejects).2
      refine h.set rfl (h.lock.set hi fun hlock => ?_) (fun r hr => ?_) nofun
      · cases origin with
        | peer => trivial
        | node => exact hlock.elim
      · cases hr
        exact hpass
    | @stores origin rec herr =>
      cases hsound.ok hstart hmem trivial with
      | store hkey hable =>
        cases origin with
        | peer =>
          have hvalid := hable.1.choose_spec.2.valid
          exact h.write hi (hkey.symm ▸ hvalid) (unlock_entry _ _)
        | node => exact (hnode _ hable).elim
    | reads k | bad hbad | good hgood | deletes herr | deleteFails herr =>
      cases hsound.ok hstart hmem trivial

/-! ## A worse value overwrites a better one -/

/-- A call takes a step. -/
theorem step_call {l : List Call} {c' : Call} {s s' : Shared} (hi : l[i]? = some c)
    (hstep : step v maxRecordAge key none c s = some (c', s')) :
    Node.step v maxRecordAge key (.call i none) ⟨s, l⟩ = some ⟨s', l.set i c'⟩ := by
  show Pool.advance _ _ i = _
  rw [Pool.advance]
  rw [hi]
  dsimp only
  rw [hstep]
  rfl

/-- A call writes its record. -/
theorem step_store {l : List Call} {rec : Record} {s : Shared}
    (hi : l[i]? = some (.store origin rec)) :
    Node.step v maxRecordAge key (.call i none) ⟨s, l⟩ =
      some ⟨unlock origin
          { s with entry := some (some { rec with timeReceived := some s.now }) },
        l.set i (.stored rec.value)⟩ := step_call hi rfl

variable (maxRecordAge) in
/-- A call gets to its store without the others, if the lock is free and the record stored is not
better. -/
theorem reaches_store [Std.Irrefl better] (hstable : Stable v) (hsel : SelectsFirst v better)
    (hi : w.threads[i]? = some c) (hoffers : Offers v key c origin x)
    (hfree : origin = .peer → w.shared.locked = false)
    (hkey : ∀ r, w.shared.entry = some (some r) → r.key = key)
    (hpass : ∀ y, Current v w.shared y → ¬ better x y) :
    ∃ ls rec locked, rec.value = x ∧ (origin = .node → locked = w.shared.locked) ∧
      Trace.run (Node.step v maxRecordAge key) ls w =
        some ⟨{ w.shared with locked := locked }, w.threads.set i (.store origin rec)⟩ := by
  have hget (c : Call) : (w.threads.set i c)[i]? = some c := getElem?_set_at hi
  -- the comparison, in a state that differs in the lock at most
  have hcompare (rec : Record) (locked : Bool) (hx : rec.value = x) :
      step v maxRecordAge key none (.compare origin rec) { w.shared with locked := locked } =
        some (.store origin rec, { w.shared with locked := locked }) := by
    have hnone : rejects v key rec none { w.shared with locked := locked } origin = none :=
      (rejects_eq_none_iff hstable hsel hkey origin).mpr ⟨rfl, fun y hy => hx ▸ hpass y hy⟩
    dsimp only [step]
    rw [hnone]
  cases hoffers with
  | @peer rec hne hreckey hvalid =>
    refine ⟨[.call i none, .call i none, .call i none], { rec with timeReceived := none }, true,
      rfl, nofun, ?_⟩
    have hmessage : step v maxRecordAge key none (.handlePutValue ⟨key, some rec⟩) w.shared =
        some (.lock { rec with timeReceived := none }, w.shared) := by
      show some (checkMessage v w.shared.now ⟨key, some rec⟩, w.shared) = _
      have hsame : ¬ key ≠ rec.key := fun h => h hreckey.symm
      unfold checkMessage
      rw [if_neg hne]
      dsimp only
      rw [if_neg hsame, hreckey, hvalid w.shared.now]
    have hlock : step v maxRecordAge key none (.lock { rec with timeReceived := none })
        w.shared = some (.compare .peer { rec with timeReceived := none },
          { w.shared with locked := true }) := by
      dsimp only [step]
      rw [hfree rfl]
      rfl
    refine run_cons.mpr ⟨_, step_call hi hmessage, run_cons.mpr ⟨_, step_call (hget _) hlock,
      run_cons.mpr ⟨_, ?_, rfl⟩⟩⟩
    rw [set_set, step_call (hget _) (hcompare { rec with timeReceived := none } true rfl), set_set]
  | @node x hvalid =>
    refine ⟨[.call i none, .call i none], ⟨key, x, none⟩, w.shared.locked, rfl, fun _ => rfl, ?_⟩
    have hput : step v maxRecordAge key none (.putValue x) w.shared =
        some (.compare .node ⟨key, x, none⟩, w.shared) := by
      dsimp only [step]
      rw [hvalid w.shared.now]
    refine run_cons.mpr ⟨_, step_call hi hput, run_cons.mpr ⟨_, ?_, rfl⟩⟩
    rw [step_call (hget _) (hcompare _ w.shared.locked rfl), set_set]

/-- **Of two puts** that can succeed, and of which one is the node's, the worse one overwrites the
better one: both compare before either writes. -/
theorem overwrites [IsStrictWeakOrder Bytes better] (hstable : Stable v)
    (hsel : SelectsFirst v better) (hstart : Starts key w0) {origin' : Origin} {y : Bytes}
    (hx : Able v key better w0 origin x) (hy : Able v key better w0 origin' y)
    (hnode : origin = .node ∨ origin' = .node) (hlt : better x y) :
    ¬ NeverWorse v maxRecordAge key better w0 := by
  obtain ⟨⟨c, hc, hoffers⟩, hpass⟩ := hx
  obtain ⟨⟨d, hd, hoffers'⟩, hpass'⟩ := hy
  obtain ⟨i, hi⟩ := mem_iff_getElem?.mp hc
  obtain ⟨j, hj⟩ := mem_iff_getElem?.mp hd
  have hij : i ≠ j := by
    rintro rfl
    cases hi.symm.trans hj
    have hsame : x = y := by
      cases hoffers with
      | peer | node => cases hoffers'; rfl
    exact irrefl x (hsame.symm ▸ hlt)
  -- both puts compare, the worse one first
  obtain ⟨ls1, rec, locked, rfl, hlocked, hrun1⟩ := reaches_store maxRecordAge hstable hsel hi
    hoffers (fun _ => hstart.free) hstart.key_eq hpass
  have hj1 : (w0.threads.set i (.store origin rec))[j]? = some d := by
    rw [getElem?_set_ne hij, hj]
  have hfree : origin' = .peer → locked = false := by
    rintro rfl
    exact (hlocked (hnode.resolve_right nofun)).trans hstart.free
  obtain ⟨ls2, rec', locked', rfl, -, hrun2⟩ := reaches_store maxRecordAge hstable hsel
    (w := ⟨{ w0.shared with locked := locked }, w0.threads.set i (.store origin rec)⟩) hj1
    hoffers' hfree hstart.key_eq hpass'
  -- the better one is written, and then the other one
  let threads := (w0.threads.set i (.store origin rec)).set j (.store origin' rec')
  have hj2 : threads[j]? = some (.store origin' rec') := getElem?_set_at hj1
  have hi2 : (threads.set j (.stored rec'.value))[i]? = some (.store origin rec) := by
    rw [getElem?_set_ne hij.symm, getElem?_set_ne hij.symm, getElem?_set_at hi]
  intro hnever
  have hrun := run_append.mpr ⟨_, hrun1, run_append.mpr ⟨_, hrun2,
    run_cons.mpr ⟨_, step_store hj2, run_singleton.trans (step_store hi2)⟩⟩⟩
  have hmem : stored rec'.value ∈
      (threads.set j (.stored rec'.value)).set i (.stored rec.value) := by
    refine mem_iff_getElem?.mpr ⟨j, ?_⟩
    rw [getElem?_set_ne hij, getElem?_set_at hj2]
  obtain ⟨r, hr, hnot⟩ := hnever _ _ hrun rec'.value hmem
  rw [unlock_entry] at hr
  cases Option.some.inj hr
  exact hnot hlt

/-! ## When the stored value never gets worse -/

/-- What a run preserves. -/
theorem sound_run [IsStrictWeakOrder Bytes better] (hstable : Stable v)
    (hsel : SelectsFirst v better) {ls : List Label} (hstart : Starts key w0)
    (hrun : Trace.run (Node.step v maxRecordAge key) ls w0 = some w) :
    Sound v key better w0 w ∧
      ((∀ x, ¬ Able v key better w0 .node x) → Guarded v better w) := by
  have hinit : Sound v key better w0 w0 ∧
      ((∀ x, ¬ Able v key better w0 .node x) → Guarded v better w0) := by
    have hnone {c : Call} (hmem : c ∈ w0.threads) (hc : Started c) : False :=
      hstart.not_mem_of_started hmem hc
    exact ⟨⟨fun c hc => .inl hc, .inl ⟨rfl, fun x hx => hnone hx trivial⟩⟩, fun _ =>
      ⟨.of_none fun c hmem hc => hnone hmem hc.started,
        fun rec hmem => (hnone hmem trivial).elim, fun x hmem => (hnone hmem trivial).elim⟩⟩
  refine Trace.invariant (P := fun w => Sound v key better w0 w ∧
    ((∀ x, ¬ Able v key better w0 .node x) → Guarded v better w))
    (fun l _ w1 w2 h hstep => ?_) hinit hrun
  exact ⟨sound_step hstable hsel hstart h.1 hstep,
    fun hnode => guarded_step hstable hsel hstart h.1 hnode (h.2 hnode) hstep⟩

/-- **The stored value never gets worse** exactly if no put of the node that can succeed differs in
rank from another put that can. -/
theorem neverWorse_iff [IsStrictWeakOrder Bytes better] (hstable : Stable v)
    (hsel : SelectsFirst v better) {w0 : Node} (hstart : Starts key w0) :
    NeverWorse v maxRecordAge key better w0 ↔
      ∀ x, Able v key better w0 .node x → ∀ origin y, Able v key better w0 origin y →
        ¬ better x y ∧ ¬ better y x := by
  constructor
  · intro hnever x hx origin y hy
    exact ⟨fun hlt => overwrites hstable hsel hstart hx hy (.inl rfl) hlt hnever,
      fun hlt => overwrites hstable hsel hstart hy hx (.inr rfl) hlt hnever⟩
  · intro hequal ls w hrun x hmem
    obtain ⟨hsound, hguarded⟩ := sound_run hstable hsel hstart hrun
    by_cases hnode : ∃ z, Able v key better w0 .node z
    · -- all values that are written are of one rank
      obtain ⟨z, hz⟩ := hnode
      rcases hsound.entry with ⟨-, hnone⟩ | ⟨origin, rec, hrec, -, -, hable⟩
      · exact (hnone x hmem).elim
      · cases hsound.ok hstart hmem trivial with
        | stored hx =>
          exact ⟨rec, hrec, not_rel_trans (hequal z hz _ _ hable).2 (hequal z hz _ _ hx).1⟩
    · obtain ⟨y, ⟨rec, hrec, rfl, -⟩, hy⟩ := (hguarded fun z hz => hnode ⟨z, hz⟩).stored x hmem
      exact ⟨rec, hrec, hy⟩

/-! ## A put of the node and a put of a peer -/

def preferLonger : Validator := ⟨fun _ _ _ => none, fun _ => selectLonger⟩

theorem preferLonger_stable : Stable preferLonger := fun _ _ _ _ _ => rfl

theorem preferLonger_selects : SelectsFirst preferLonger longer := by
  intro key a b
  refine ⟨_, rfl, ?_⟩
  by_cases h : a.length < b.length
  · simp [longer, h]
  · simp [longer, h]

/-- Nothing is stored, and the node puts a value while a peer puts a better one. -/
def twoPuts : Node where
  shared := ⟨Time.unix 0 0, none, false⟩
  threads := [.putValue [7], .handlePutValue ⟨[1], some ⟨[1], [7, 8], none⟩⟩]

/-- The node has found nothing stored, the peer puts its value, and the node overwrites it. -/
theorem not_neverWorse_twoPuts : ¬ NeverWorse preferLonger 0 [1] longer twoPuts := by
  intro hnever
  have hrun : Trace.run (Node.step preferLonger 0 [1])
      [.call 0 none, .call 0 none, .call 1 none, .call 1 none, .call 1 none, .call 1 none,
        .call 0 none] twoPuts =
      some ⟨⟨Time.unix 0 0, some (some ⟨[1], [7], some (Time.unix 0 0)⟩), false⟩,
        [.stored [7], .stored [7, 8]]⟩ := rfl
  obtain ⟨rec, hrec, hnot⟩ := hnever _ _ hrun [7, 8] (by simp)
  cases Option.some.inj hrec
  exact hnot (by decide : 1 < 2)

/-- The node puts a value while a peer puts one of the same length. -/
def equalPuts : Node :=
  { twoPuts with threads := [.putValue [7], .handlePutValue ⟨[1], some ⟨[1], [8], none⟩⟩] }

theorem neverWorse_iff_equalPuts : NeverWorse preferLonger 0 [1] longer equalPuts := by
  have hlength {origin : Origin} {x : Bytes}
      (hx : Able preferLonger [1] longer equalPuts origin x) : x.length = 1 := by
    obtain ⟨⟨c, hc, hoffers⟩, -⟩ := hx
    simp only [equalPuts, mem_cons, not_mem_nil, or_false] at hc
    rcases hc with rfl | rfl
    · cases hoffers
      rfl
    · cases hoffers
      rfl
  refine (neverWorse_iff preferLonger_stable preferLonger_selects ⟨fun c hc => ?_, rfl, ?_⟩).mpr ?_
  · simp only [equalPuts, mem_cons, not_mem_nil, or_false] at hc
    rcases hc with rfl | rfl
    · exact .inr ⟨_, rfl⟩
    · exact .inl ⟨_, rfl, rfl⟩
  · exact nofun
  · intro x hx origin y hy
    simp [longer, hlength hx, hlength hy]

end KadDht.Values
