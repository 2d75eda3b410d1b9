import KadDht.Lib.Query

/-!
# Lib — commits that fail halfway

The commit of a batch may fail after some of its writes took effect. Everything else on the store
works; what a computation then leaves behind depends on the commits that failed, whether it returns
a result or an error.

* **`EndsIn`**, **`Ends`** — what holds when a computation has ended, with a result or an error.
-/

namespace KadDht

open List Datastore Batch

/-! ## Batches -/

variable {d : Datastore} {k : DsKey}

theorem Batch.mem_keys_applyTo {b : Batch} (h : k ∈ (b.applyTo d).keys) :
    k ∈ d.keys ∨ ∃ v, .put k v ∈ b := by
  induction b generalizing d with
  | nil => exact .inl h
  | cons op b ih =>
    rcases ih h with hold | ⟨v, hv⟩
    · cases op with
      | put k' v =>
        rcases mem_keys_put.mp hold with hold | rfl
        · exact .inl hold
        · exact .inr ⟨v, mem_cons_self⟩
      | delete k' => exact .inl (mem_keys_delete.mp hold).1
    · exact .inr ⟨v, mem_cons_of_mem op hv⟩

theorem Batch.mem_keys_of_deletes {b : Batch} (hb : ∀ op ∈ b, ∃ k, op = .delete k)
    (h : k ∈ (b.applyTo d).keys) : k ∈ d.keys := by
  rcases mem_keys_applyTo h with hold | ⟨v, hv⟩
  · exact hold
  · obtain ⟨k', ⟨⟩⟩ := hb _ hv

theorem Datastore.length_keys_delete (h : k ∈ d.keys) :
    (d.delete k).keys.length + 1 = d.keys.length := by
  have hkeys : (d.delete k).keys = d.keys.erase k := by
    rw [show d.keys.erase k = d.keys.filter (· != k) from d.nodup.erase_eq_filter k]
    show (d.entries.filter _).map Prod.fst = (d.entries.map Prod.fst).filter _
    rw [filter_map]
    refine congrArg (map Prod.fst) (filter_congr fun e _ => ?_)
    rw [Bool.eq_iff_iff, decide_eq_true_iff]
    exact bne_iff_ne.symm
  rw [hkeys, length_erase_of_mem h]
  have hpos := length_pos_of_mem h
  omega

theorem Batch.length_keys_deleteAll {ks : List DsKey} (hnodup : ks.Nodup)
    (h : ∀ k ∈ ks, k ∈ d.keys) :
    (applyTo (ks.map .delete) d).keys.length + ks.length = d.keys.length := by
  induction ks generalizing d with
  | nil => rfl
  | cons k ks ih =>
    obtain ⟨hk, hks⟩ := nodup_cons.mp hnodup
    have hrest := ih (d := d.delete k) hks fun k' hk' => mem_keys_delete.mpr
      ⟨h k' (mem_cons_of_mem k hk'), fun heq => hk (heq ▸ hk')⟩
    have hone := length_keys_delete (h k mem_cons_self)
    rw [length_cons]
    show (applyTo (ks.map .delete) (d.delete k)).keys.length + (ks.length + 1) = _
    omega

theorem Datastore.length_keys_put (d : Datastore) (k : DsKey) (v : Bytes) :
    (d.put k v).keys.length = if k ∈ d.keys then d.keys.length else d.keys.length + 1 := by
  have hkeys : (d.put k v).keys.length = (d.delete k).keys.length + 1 := by
    show (((d.delete k).entries ++ [(k, v)]).map Prod.fst).length = _
    rw [map_append, length_append]
    rfl
  rw [hkeys]
  split
  · next h => exact length_keys_delete h
  · next h => rw [delete_of_not_mem h]

theorem Batch.length_keys_putAll_add (es : List (DsKey × Bytes)) (d : Datastore)
    (h : (es.map Prod.fst).Nodup) :
    (applyTo (es.map fun e => .put e.1 e.2) d).keys.length +
      (es.filter fun e => e.1 ∈ d.keys).length = d.keys.length + es.length := by
  induction es generalizing d with
  | nil => rfl
  | cons e es ih =>
    obtain ⟨he, hes⟩ := nodup_cons.mp h
    have hrest := ih (d.put e.1 e.2) hes
    have hfilter : (es.filter fun e' => e'.1 ∈ (d.put e.1 e.2).keys) =
        es.filter fun e' => e'.1 ∈ d.keys := by
      refine filter_congr fun e' he' => decide_eq_decide.mpr ?_
      rw [mem_keys_put, or_iff_left]
      exact fun heq => he (heq ▸ mem_map_of_mem he')
    rw [hfilter, length_keys_put] at hrest
    rw [length_cons, filter_cons]
    show (applyTo _ (d.put e.1 e.2)).keys.length + _ = _
    by_cases hmem : e.1 ∈ d.keys
    · rw [if_pos hmem] at hrest
      rw [if_pos (decide_eq_true hmem), length_cons]
      omega
    · rw [if_neg hmem] at hrest
      rw [if_neg (by simpa using hmem)]
      omega

theorem Batch.length_keys_putAll (es : List (DsKey × Bytes)) (d : Datastore)
    (h : (d.keys ++ es.map Prod.fst).Nodup) :
    (applyTo (es.map fun e => .put e.1 e.2) d).keys.length = d.keys.length + es.length := by
  obtain ⟨-, hes, hdisjoint⟩ := nodup_append.mp h
  have hnone : (es.filter fun e => e.1 ∈ d.keys) = [] := by
    refine filter_eq_nil_iff.mpr fun e he hmem => ?_
    exact hdisjoint _ (of_decide_eq_true hmem) _ (mem_map_of_mem he) rfl
  have hadd := length_keys_putAll_add es d hes
  rwa [hnone] at hadd

/-! ## Computations -/

/-- Which commits fail, by the number of the call: with what error, and what part of the batch they
apply. -/
structure CommitFaults where
  applied : Nat → Option (String × (Batch → Batch))
  sublist : ∀ n e g b, applied n = some (e, g) → (g b).Sublist b

/-- No commit fails. -/
def CommitFaults.none : CommitFaults where
  applied _ := .none
  sublist _ _ _ _ h := nomatch h

namespace DsM

variable {σ α β : Type}

def commitWith (faults : CommitFaults) (what : String) (b : Batch) : DsM σ Unit := fun s =>
  match faults.applied s.calls with
  | some (e, g) =>
    ({ s with calls := s.calls + 1, store := (g b).applyTo s.store }, .error (.error (what ++ e)))
  | none => ({ s with calls := s.calls + 1, store := b.applyTo s.store }, .ok ())

/-- The computation ends, with a result or an error, and then the condition holds of it, the
caller's state and the store, provided that the outcomes of the calls other than commits are as
assumed. -/
def EndsIn (H : (Nat → Option String) → Prop) (m : DsM σ α) (c : σ) (d : Datastore)
    (Q : Except Failure α → σ → Datastore → Prop) : Prop :=
  ∀ s : Session σ, H s.faults → s.caller = c → s.store = d →
    H (m s).1.faults ∧ Q (m s).2 (m s).1.caller (m s).1.store

abbrev Ends (m : DsM σ α) (c : σ) (d : Datastore)
    (Q : Except Failure α → σ → Datastore → Prop) : Prop :=
  EndsIn (fun faults => ∀ n, faults n = none) m c d Q

variable {m : DsM σ α} {f : α → DsM σ β} {c c' : σ} {d d' : Datastore} {a : α}
  {H : (Nat → Option String) → Prop}

variable {Q : Except Failure α → σ → Datastore → Prop}

theorem Returns.ends (h : Returns m c d a c' d') (hQ : Q (.ok a) c' d') : Ends m c d Q := by
  intro s hs hc hd
  obtain ⟨s', hrun, hs', rfl, rfl⟩ := h s hs hc hd
  rw [hrun]
  exact ⟨hs', hQ⟩

theorem ends_pure (hQ : Q (.ok a) c d) : EndsIn H (pure a) c d Q :=
  fun _ hs hc hd => ⟨hs, hc ▸ hd ▸ hQ⟩

theorem ends_fail {e : Failure} (hQ : Q (.error e) c d) : EndsIn H (fail e) c d Q :=
  fun _ hs hc hd => ⟨hs, hc ▸ hd ▸ hQ⟩

theorem ends_call {what : String} {Q : Except Failure Unit → σ → Datastore → Prop}
    (hok : ∀ faults n, H faults → faults n = none → Q (.ok ()) c d)
    (hfail : ∀ faults n e, H faults → faults n = some e → Q (.error (.error (what ++ e))) c d) :
    EndsIn H (call what) c d Q := by
  intro s hs hc hd
  unfold call
  split
  · next e he => exact ⟨hs, hc ▸ hd ▸ hfail _ _ e hs he⟩
  · next hnone => exact ⟨hs, hc ▸ hd ▸ hok _ _ hs hnone⟩

theorem ends_caller {Q : Except Failure σ → σ → Datastore → Prop} (hQ : Q (.ok c) c d) :
    EndsIn H caller c d Q := by
  rintro s hs rfl rfl
  exact ⟨hs, hQ⟩

theorem ends_store {Q : Except Failure Datastore → σ → Datastore → Prop} (hQ : Q (.ok d) c d) :
    EndsIn H store c d Q := by
  rintro s hs rfl rfl
  exact ⟨hs, hQ⟩

theorem ends_setCaller {Q : Except Failure Unit → σ → Datastore → Prop} (hQ : Q (.ok ()) c' d) :
    EndsIn H (setCaller c') c d Q := by
  rintro s hs rfl rfl
  exact ⟨hs, hQ⟩

theorem EndsIn.mono {Q' : Except Failure α → σ → Datastore → Prop} (h : EndsIn H m c d Q)
    (himp : ∀ r c' d', Q r c' d' → Q' r c' d') : EndsIn H m c d Q' := by
  intro s hs hc hd
  obtain ⟨hs', hQ⟩ := h s hs hc hd
  exact ⟨hs', himp _ _ _ hQ⟩

theorem EndsIn.bind {Q : Except Failure β → σ → Datastore → Prop}
    (hm : EndsIn H m c d fun r c' d' => match r with
      | .ok a => EndsIn H (f a) c' d' Q
      | .error e => Q (.error e) c' d') : EndsIn H (m >>= f) c d Q := by
  intro s hs hc hd
  obtain ⟨hs1, hQ⟩ := hm s hs hc hd
  cases hrun : (m s).2 with
  | ok a =>
    rw [hrun] at hQ
    rw [bind_of_ok (eq_of_snd hrun)]
    exact hQ (m s).1 hs1 rfl rfl
  | error e =>
    rw [hrun] at hQ
    rw [bind_of_error (eq_of_snd hrun)]
    exact ⟨hs1, hQ⟩

theorem Returns.bind_ends {Q : Except Failure β → σ → Datastore → Prop}
    (hm : Returns m c d a c' d') (hf : Ends (f a) c' d' Q) : Ends (m >>= f) c d Q :=
  EndsIn.bind (hm.ends hf)

theorem EndsIn.handle {g : String → DsM σ α} {Q : Except Failure α → σ → Datastore → Prop}
    (hm : EndsIn H m c d fun r c' d' => match r with
      | .error (.error e) => EndsIn H (g e) c' d' Q
      | r => Q r c' d') : EndsIn H (DsM.handle m g) c d Q := by
  intro s hs hc hd
  obtain ⟨hs1, hQ⟩ := hm s hs hc hd
  unfold DsM.handle
  split
  · next s1 e heq =>
    rw [heq] at hs1 hQ
    exact hQ s1 hs1 rfl rfl
  · next hno =>
    refine ⟨hs1, ?_⟩
    split at hQ
    · next e heq => exact (hno _ e (Prod.ext rfl heq)).elim
    · exact hQ

theorem ends_commitWith {faults : CommitFaults} {what : String} {b : Batch}
    {Q : Except Failure Unit → σ → Datastore → Prop} (hok : Q (.ok ()) c (b.applyTo d))
    (hfail : ∀ n e (b' : Batch), faults.applied n ≠ none → b'.Sublist b →
      Q (.error (.error (what ++ e))) c (b'.applyTo d)) :
    EndsIn H (commitWith faults what b) c d Q := by
  intro s hs hc hd
  unfold commitWith
  split
  · next e g hg =>
    refine ⟨hs, ?_⟩
    rw [hc, hd]
    exact hfail _ e (g b) (fun hnone => nomatch hnone.symm.trans hg) (faults.sublist _ e g b hg)
  · refine ⟨hs, ?_⟩
    rw [hc, hd]
    exact hok

end DsM

end KadDht
