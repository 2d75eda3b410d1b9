import Mathlib.Data.List.Sort

/-!
# Lib — a key-value datastore with batches

A datastore maps path-like keys to bytes. Keys are kept in cleaned form, writes are collected
in a batch and take effect when the batch is committed, and every call can fail.

* **`DsKey`** — a cleaned path: a key cannot be built in any other form.
* **`DsM`** — a computation with calls on a datastore: it carries the state of the caller, and an
  oracle that says which of the calls fail. A failed call leaves the store alone.
-/

namespace KadDht

open List

/-! ## Keys -/

/-- One step of path cleaning: empty components and `.` are dropped, `..` removes the component
before it. -/
def cleanStep (done : List (List Char)) (component : List Char) : List (List Char) :=
  if component = [] ∨ component = ['.'] then done
  else if component = ['.', '.'] then done.dropLast
  else done ++ [component]

def cleanComponents (path : List Char) : List (List Char) :=
  (path.splitOn '/').foldl cleanStep []

def cleanPath (path : List Char) : List Char := '/' :: ['/'].intercalate (cleanComponents path)

structure PlainComponent (w : List Char) : Prop where
  ne_nil : w ≠ []
  ne_dot : w ≠ ['.']
  ne_dots : w ≠ ['.', '.']
  no_slash : '/' ∉ w

theorem not_mem_of_mem_splitOn {path w : List Char} (h : w ∈ path.splitOn '/') : '/' ∉ w := by
  induction path generalizing w with
  | nil =>
    rw [splitOn_nil, mem_singleton] at h
    simp [h]
  | cons c path ih =>
    rw [splitOn_cons_eq_if_modifyHead] at h
    split at h
    · rcases mem_cons.mp h with rfl | h
      · simp
      · exact ih h
    · next hc =>
      cases hsplit : path.splitOn '/' with
      | nil => exact absurd hsplit (splitOn_ne_nil _ _)
      | cons x xs =>
        rw [hsplit, modifyHead_cons] at h
        rw [hsplit] at ih
        rcases mem_cons.mp h with rfl | h
        · have hx := ih mem_cons_self
          have hc' : ¬ '/' = c := fun heq => hc (heq ▸ beq_self_eq_true c)
          simp [hx, hc']
        · exact ih (mem_cons_of_mem x h)

theorem foldl_cleanStep_plain (done ws : List (List Char)) (h : ∀ w ∈ done, PlainComponent w)
    (hws : ∀ w ∈ ws, '/' ∉ w) : ∀ w ∈ ws.foldl cleanStep done, PlainComponent w := by
  refine foldlRecOn ws _ (motive := fun done => ∀ w ∈ done, PlainComponent w) h ?_
  intro done h w hw
  unfold cleanStep
  split
  · exact h
  · next hkeep =>
    rw [not_or] at hkeep
    split
    · exact fun w' hw' => h w' (dropLast_subset done hw')
    · next hdots =>
      intro w' hw'
      rcases mem_append.mp hw' with hw' | hw'
      · exact h w' hw'
      · rw [mem_singleton] at hw'
        exact hw' ▸ ⟨hkeep.1, hkeep.2, hdots, hws w hw⟩

theorem cleanComponents_plain (path : List Char) : ∀ w ∈ cleanComponents path, PlainComponent w :=
  foldl_cleanStep_plain [] _ (fun _ hw => absurd hw not_mem_nil) fun _ =>
    not_mem_of_mem_splitOn

theorem foldl_cleanStep_of_plain (done ws : List (List Char)) (h : ∀ w ∈ ws, PlainComponent w) :
    ws.foldl cleanStep done = done ++ ws := by
  induction ws generalizing done with
  | nil => simp
  | cons w ws ih =>
    have hw := h w mem_cons_self
    rw [foldl_cons, cleanStep, if_neg (by simp [hw.ne_nil, hw.ne_dot]), if_neg hw.ne_dots,
      ih _ fun w' hw' => h w' (mem_cons_of_mem w hw')]
    simp

theorem cleanComponents_intercalate (ws : List (List Char)) (h : ∀ w ∈ ws, PlainComponent w) :
    cleanComponents (['/'].intercalate ws) = ws ∧
      cleanComponents ('/' :: ['/'].intercalate ws) = ws := by
  have hplain : cleanComponents (['/'].intercalate ws) = ws := by
    cases ws with
    | nil => rfl
    | cons w ws =>
      unfold cleanComponents
      rw [splitOn_intercalate '/' (fun w' hw' => (h w' hw').no_slash) (cons_ne_nil w ws),
        foldl_cleanStep_of_plain [] _ h, nil_append]
  refine ⟨hplain, Eq.trans ?_ hplain⟩
  unfold cleanComponents
  rw [splitOn_cons_eq_if_modifyHead]
  simp [cleanStep]

theorem cleanPath_idem (path : List Char) : cleanPath (cleanPath path) = cleanPath path := by
  have h := (cleanComponents_intercalate _ (cleanComponents_plain path)).2
  rw [cleanPath, show cleanComponents (cleanPath path) = cleanComponents path from h]
  rfl

structure DsKey where
  path : List Char
  clean : cleanPath path = path
deriving DecidableEq

namespace DsKey

def new (path : List Char) : DsKey := ⟨cleanPath path, cleanPath_idem path⟩

@[simp] theorem new_path (k : DsKey) : new k.path = k := by
  cases k
  simp only [new, mk.injEq]
  assumption

theorem path_new_intercalate (ws : List (List Char)) (h : ∀ w ∈ ws, PlainComponent w) :
    (new (['/'].intercalate ws)).path = '/' :: ['/'].intercalate ws := by
  show cleanPath _ = _
  rw [cleanPath, (cleanComponents_intercalate ws h).1]

end DsKey

/-! ## Stores and batches -/

abbrev Bytes := List UInt8

/-- A store lists its entries; the keys are distinct. -/
structure Datastore where
  entries : List (DsKey × Bytes)
  nodup : (entries.map Prod.fst).Nodup
deriving DecidableEq

namespace Datastore

def empty : Datastore := ⟨[], List.nodup_nil⟩

def keys (d : Datastore) : List DsKey := d.entries.map Prod.fst

def delete (d : Datastore) (k : DsKey) : Datastore where
  entries := d.entries.filter fun e => e.1 ≠ k
  nodup := d.nodup.sublist (List.filter_sublist.map Prod.fst)

def put (d : Datastore) (k : DsKey) (v : Bytes) : Datastore where
  entries := (d.delete k).entries ++ [(k, v)]
  nodup := by
    rw [List.map_append, List.map_singleton, ← List.concat_eq_append]
    refine (d.delete k).nodup.concat fun hk => ?_
    obtain ⟨e, he, rfl⟩ := List.mem_map.mp hk
    simp [delete] at he

variable {d : Datastore} {k k' : DsKey} {v : Bytes} {e : DsKey × Bytes}

theorem mem_keys_delete : k' ∈ (d.delete k).keys ↔ k' ∈ d.keys ∧ k' ≠ k := by
  simp only [keys, delete, mem_map, mem_filter, decide_eq_true_eq]
  constructor
  · rintro ⟨e, ⟨he, hne⟩, rfl⟩
    exact ⟨⟨e, he, rfl⟩, hne⟩
  · rintro ⟨⟨e, he, rfl⟩, hne⟩
    exact ⟨e, ⟨he, hne⟩, rfl⟩

theorem mem_keys_put : k' ∈ (d.put k v).keys ↔ k' ∈ d.keys ∨ k' = k := by
  have hput : (d.put k v).keys = (d.delete k).keys ++ [k] := by
    rw [keys, put, map_append]
    rfl
  rw [hput, mem_append, mem_keys_delete, mem_singleton]
  by_cases hk : k' = k
  · simp [hk]
  · simp [hk]

theorem mem_keys_foldl_delete {ks : List DsKey} :
    k ∈ (ks.foldl delete d).keys ↔ k ∈ d.keys ∧ k ∉ ks := by
  induction ks generalizing d with
  | nil => simp
  | cons k' ks ih =>
    rw [foldl_cons, ih, mem_keys_delete, and_assoc, mem_cons, not_or]

/-! ### Entries -/

theorem mem_entries_delete : e ∈ (d.delete k).entries ↔ e ∈ d.entries ∧ e.1 ≠ k := by
  simp only [delete, mem_filter, decide_eq_true_eq]

theorem mem_entries_put : e ∈ (d.put k v).entries ↔ e ∈ d.entries ∧ e.1 ≠ k ∨ e = (k, v) := by
  rw [put, mem_append, mem_singleton, mem_entries_delete]

theorem mem_entries_foldl_delete {ks : List DsKey} :
    e ∈ (ks.foldl delete d).entries ↔ e ∈ d.entries ∧ e.1 ∉ ks := by
  induction ks generalizing d with
  | nil => simp
  | cons k ks ih =>
    rw [foldl_cons, ih, mem_entries_delete, and_assoc, mem_cons, not_or]

theorem eq_of_mem_entries {e' : DsKey × Bytes} (he : e ∈ d.entries) (he' : e' ∈ d.entries)
    (h : e.1 = e'.1) : e = e' :=
  inj_on_of_nodup_map d.nodup he he' h

@[ext] theorem ext {d' : Datastore} (h : d.entries = d'.entries) : d = d' := by
  cases d
  cases d'
  simpa using h

theorem delete_of_not_mem (h : k ∉ d.keys) : d.delete k = d := by
  refine ext (filter_eq_self.mpr fun e he => decide_eq_true fun heq => h ?_)
  exact heq ▸ mem_map_of_mem he

theorem delete_put (d : Datastore) (k : DsKey) (v : Bytes) : (d.put k v).delete k = d.delete k := by
  refine ext ?_
  show filter _ ((d.delete k).entries ++ [(k, v)]) = _
  rw [filter_append, filter_cons_of_neg (by simp), filter_nil, append_nil]
  exact filter_eq_self.mpr fun e he => (mem_filter.mp he).2

def find (d : Datastore) (k : DsKey) : Option Bytes :=
  (d.entries.find? fun e => e.1 = k).map Prod.snd

theorem find_of_not_mem (h : k ∉ d.keys) : d.find k = none := by
  rw [find, Option.map_eq_none_iff, find?_eq_none]
  intro e he heq
  rw [decide_eq_true_iff] at heq
  exact h (heq ▸ mem_map_of_mem he)

theorem find_put (d : Datastore) (k : DsKey) (v : Bytes) : (d.put k v).find k = some v := by
  have hnone : (d.delete k).entries.find? (fun e => e.1 = k) = none :=
    find?_eq_none.mpr fun e he => by simpa using (mem_filter.mp he).2
  show (((d.delete k).entries ++ [(k, v)]).find? _).map Prod.snd = _
  rw [find?_append, hnone]
  simp

theorem find_eq_some_iff : d.find k = some v ↔ (k, v) ∈ d.entries := by
  constructor
  · intro h
    obtain ⟨e, he, rfl⟩ := Option.map_eq_some_iff.mp h
    obtain rfl : e.1 = k := by simpa using find?_some he
    exact mem_of_find?_eq_some he
  · intro h
    have hsome : (d.entries.find? fun e => e.1 = k).isSome := by
      rw [find?_isSome]
      exact ⟨_, h, decide_eq_true rfl⟩
    obtain ⟨e, he⟩ := Option.isSome_iff_exists.mp hsome
    have hkey : e.1 = k := by simpa using find?_some he
    -- the keys are distinct, so it is the same entry
    have hentry : e = (k, v) := eq_of_mem_entries (mem_of_find?_eq_some he) h hkey
    rw [find, he, hentry]
    rfl

theorem find_eq_none_iff : d.find k = none ↔ k ∉ d.keys := by
  constructor
  · intro h hk
    obtain ⟨e, he, rfl⟩ := mem_map.mp hk
    have hsome : d.find e.1 = some e.2 := find_eq_some_iff.mpr he
    rw [h] at hsome
    cases hsome
  · exact find_of_not_mem

theorem find_delete_of_ne (d : Datastore) (h : k' ≠ k) : (d.delete k).find k' = d.find k' := by
  refine Option.ext fun v => ?_
  rw [find_eq_some_iff, find_eq_some_iff, mem_entries_delete]
  exact and_iff_left h

theorem find_delete (d : Datastore) (k : DsKey) : (d.delete k).find k = none :=
  find_eq_none_iff.mpr fun hk => (mem_keys_delete.mp hk).2 rfl

theorem find_put_of_ne (d : Datastore) (v : Bytes) (h : k' ≠ k) :
    (d.put k v).find k' = d.find k' := by
  rw [← find_delete_of_ne d h]
  refine Option.ext fun w => ?_
  rw [find_eq_some_iff, find_eq_some_iff, mem_entries_put, mem_entries_delete]
  refine or_iff_left fun heq => h ?_
  exact congrArg Prod.fst heq

end Datastore

inductive BatchOp where
  | put (k : DsKey) (v : Bytes)
  | delete (k : DsKey)
deriving DecidableEq

abbrev Batch := List BatchOp

def BatchOp.apply (d : Datastore) : BatchOp → Datastore
  | .put k v => d.put k v
  | .delete k => d.delete k

def BatchOp.key : BatchOp → DsKey
  | .put k _ => k
  | .delete k => k

def BatchOp.value : BatchOp → Option Bytes
  | .put _ v => some v
  | .delete _ => none

theorem BatchOp.find_apply (op : BatchOp) (d : Datastore) :
    (op.apply d).find op.key = op.value := by
  cases op with
  | put k v => exact d.find_put k v
  | delete k => exact d.find_delete k

theorem BatchOp.find_apply_of_ne (op : BatchOp) (d : Datastore) {k : DsKey} (h : k ≠ op.key) :
    (op.apply d).find k = d.find k := by
  cases op with
  | put k' v => exact d.find_put_of_ne v h
  | delete k' => exact d.find_delete_of_ne h

def Batch.applyTo (b : Batch) (d : Datastore) : Datastore := b.foldl BatchOp.apply d

theorem Batch.applyTo_append (b b' : Batch) (d : Datastore) :
    Batch.applyTo (b ++ b') d = Batch.applyTo b' (Batch.applyTo b d) := foldl_append

variable {b : Batch}

theorem Batch.find_applyTo_of_ne {k : DsKey} (d : Datastore)
    (h : ∀ op ∈ b, k ≠ op.key) : (b.applyTo d).find k = d.find k := by
  induction b generalizing d with
  | nil => rfl
  | cons op b ih =>
    have hrest := ih (op.apply d) fun op' hop' => h op' (mem_cons_of_mem op hop')
    exact hrest.trans (op.find_apply_of_ne d (h op mem_cons_self))

theorem Batch.find_applyTo {op : BatchOp} (d : Datastore) (hmem : op ∈ b)
    (h : ∀ op' ∈ b, op'.key = op.key → op' = op) : (b.applyTo d).find op.key = op.value := by
  induction b generalizing d with
  | nil => cases hmem
  | cons op' b ih =>
    by_cases hlater : op ∈ b
    · exact ih (op'.apply d) hlater fun op1 hop1 => h op1 (mem_cons_of_mem op' hop1)
    · obtain rfl := (mem_cons.mp hmem).resolve_right hlater
      refine (find_applyTo_of_ne (op.apply d) fun op' hop' heq => hlater ?_).trans (op.find_apply d)
      exact h op' (mem_cons_of_mem op hop') heq.symm ▸ hop'

theorem Batch.applyTo_deleteAll (ks : List DsKey) (d : Datastore) (h : ∀ k ∈ d.keys, k ∈ ks) :
    Batch.applyTo (ks.map .delete) d = Datastore.empty := by
  induction ks generalizing d with
  | nil =>
    have hnil : d.keys = [] := eq_nil_iff_forall_not_mem.mpr fun k hk => not_mem_nil (h k hk)
    exact Datastore.ext (map_eq_nil_iff.mp hnil)
  | cons k ks ih =>
    refine ih (d.delete k) fun k' hk' => ?_
    obtain ⟨e, he, rfl⟩ := mem_map.mp hk'
    rw [Datastore.delete, mem_filter, decide_eq_true_iff] at he
    exact (mem_cons.mp (h e.1 (mem_map_of_mem he.1))).resolve_left he.2

theorem Batch.applyTo_putAll (es : List (DsKey × Bytes)) (d : Datastore)
    (h : (d.keys ++ es.map Prod.fst).Nodup) :
    (Batch.applyTo (es.map fun e => .put e.1 e.2) d).entries = d.entries ++ es := by
  induction es generalizing d with
  | nil => simp [Batch.applyTo]
  | cons e es ih =>
    have hnew : e.1 ∉ d.keys := by
      intro hmem
      rw [map_cons, nodup_append] at h
      exact h.2.2 _ hmem _ mem_cons_self rfl
    have hput : (d.put e.1 e.2).entries = d.entries ++ [e] := by
      have hkeep : (d.delete e.1).entries = d.entries := by
        refine filter_eq_self.mpr fun e' he' => decide_eq_true fun heq => hnew ?_
        exact heq ▸ mem_map_of_mem he'
      show (d.delete e.1).entries ++ [(e.1, e.2)] = d.entries ++ [e]
      rw [hkeep]
    have hkeys : (d.put e.1 e.2).keys = d.keys ++ [e.1] := by
      rw [Datastore.keys, hput, map_append]
      rfl
    have hih := ih (d.put e.1 e.2) (by rw [hkeys, append_assoc]; exact h)
    rw [hput, append_assoc] at hih
    exact hih

/-! ## The order of keys -/

/-- `query.OrderByKey`: keys are compared byte by byte. -/
def pathLe : List Char → List Char → Bool
  | [], _ => true
  | _ :: _, [] => false
  | a :: as, b :: bs => if a = b then pathLe as bs else decide (a.toNat < b.toNat)

theorem pathLe_total (a b : List Char) : pathLe a b = true ∨ pathLe b a = true := by
  induction a generalizing b with
  | nil => exact .inl rfl
  | cons x a ih =>
    cases b with
    | nil => exact .inr rfl
    | cons y b =>
      by_cases hxy : x = y
      · subst hxy
        simpa [pathLe] using ih b
      · have hne : x.toNat ≠ y.toNat := fun h => hxy (Char.toNat_inj.mp h)
        simp only [pathLe, hxy, Ne.symm hxy, if_false, decide_eq_true_eq]
        omega

theorem pathLe_antisymm {a b : List Char} (hab : pathLe a b = true) (hba : pathLe b a = true) :
    a = b := by
  induction a generalizing b with
  | nil =>
    cases b with
    | nil => rfl
    | cons y b => simp [pathLe] at hba
  | cons x a ih =>
    cases b with
    | nil => simp [pathLe] at hab
    | cons y b =>
      by_cases hxy : x = y
      · subst hxy
        simp only [pathLe, if_true] at hab hba
        rw [ih hab hba]
      · simp only [pathLe, hxy, Ne.symm hxy, if_false, decide_eq_true_eq] at hab hba
        omega

theorem pathLe_trans {a b c : List Char} (hab : pathLe a b = true) (hbc : pathLe b c = true) :
    pathLe a c = true := by
  induction a generalizing b c with
  | nil => rfl
  | cons x a ih =>
    cases b with
    | nil => simp [pathLe] at hab
    | cons y b =>
      cases c with
      | nil => simp [pathLe] at hbc
      | cons z c =>
        simp only [pathLe] at hab hbc ⊢
        by_cases hxy : x = y <;> by_cases hyz : y = z
        · subst hxy hyz
          simp only [if_true] at hab hbc ⊢
          exact ih hab hbc
        · subst hxy
          simpa [hyz] using hbc
        · subst hyz
          simpa [hxy] using hab
        · simp only [hxy, hyz, if_false, decide_eq_true_eq] at hab hbc
          have hxz : x ≠ z := fun h => by
            subst h
            omega
          simp only [hxz, if_false, decide_eq_true_eq]
          omega

def Datastore.sorted (d : Datastore) : List (DsKey × Bytes) :=
  d.entries.insertionSort fun a b => pathLe a.1.path b.1.path = true

theorem Datastore.sorted_perm (d : Datastore) : d.sorted.Perm d.entries := perm_insertionSort _ _

theorem Datastore.mem_sorted_keys (d : Datastore) (k : DsKey) :
    k ∈ d.sorted.map Prod.fst ↔ k ∈ d.keys :=
  (d.sorted_perm.map Prod.fst).mem_iff

theorem Datastore.sorted_pairwise (d : Datastore) :
    d.sorted.Pairwise fun a b => pathLe a.1.path b.1.path = true := by
  have : Std.Total fun a b : DsKey × Bytes => pathLe a.1.path b.1.path = true :=
    ⟨fun a b => pathLe_total _ _⟩
  have : IsTrans (DsKey × Bytes) fun a b => pathLe a.1.path b.1.path = true :=
    ⟨fun a b c => pathLe_trans⟩
  exact pairwise_insertionSort _ _

/-! ## Computations -/

/-- How a computation stops: with an error it returns, or with a panic. -/
inductive Failure where
  | error (msg : String)
  | panic
deriving DecidableEq

/-- The state of a computation: the caller's own state, the store, and the outcome of each call
on the store (`none` when it succeeds) with the number of calls so far. -/
structure Session (σ : Type) where
  caller : σ
  store : Datastore
  faults : Nat → Option String
  calls : Nat

/-- No call on the store fails. -/
def Session.Healthy {σ : Type} (s : Session σ) : Prop := ∀ n, s.faults n = none

def DsM (σ α : Type) : Type := Session σ → Session σ × Except Failure α

namespace DsM

variable {σ α β : Type}

instance : Monad (DsM σ) where
  pure a := fun s => (s, .ok a)
  bind m f := fun s => match m s with
    | (s, .ok a) => f a s
    | (s, .error e) => (s, .error e)

/-- A call on the store that fails or succeeds as the oracle says. -/
def call (what : String) : DsM σ Unit := fun s =>
  let s' := { s with calls := s.calls + 1 }
  match s.faults s.calls with
  | some e => (s', .error (.error (what ++ e)))
  | none => (s', .ok ())

/-- Return an error, or panic. -/
def fail (f : Failure) : DsM σ α := fun s => (s, .error f)

def store : DsM σ Datastore := fun s => (s, .ok s.store)

def caller : DsM σ σ := fun s => (s, .ok s.caller)

def setCaller (c : σ) : DsM σ Unit := fun s => ({ s with caller := c }, .ok ())

def newBatch : DsM σ Batch := do
  call "failed to create batch: "
  pure []

def commit (b : Batch) : DsM σ Unit := do
  call "failed to commit batch: "
  fun s => ({ s with store := b.applyTo s.store }, .ok ())

def put (k : DsKey) (v : Bytes) : DsM σ Unit := do
  call ""
  fun s => ({ s with store := s.store.put k v }, .ok ())

def delete (k : DsKey) : DsM σ Unit := do
  call ""
  fun s => ({ s with store := s.store.delete k }, .ok ())

/-- Go on with `f` after an error. A panic is passed on. -/
def handle (m : DsM σ α) (f : String → DsM σ α) : DsM σ α := fun s =>
  match m s with
  | (s, .error (.error e)) => f e s
  | r => r

def ignore (m : DsM σ Unit) : DsM σ Unit := handle m fun _ => pure ()

variable {s s' : Session σ}

theorem eq_of_snd {r : Session σ × Except Failure α} {e : Except Failure α} (h : r.2 = e) :
    r = (r.1, e) := Prod.ext rfl h

variable {a : α} {m : DsM σ α} {f : α → DsM σ β} {u : Unit}

theorem pure_ok {b : α} : (pure a : DsM σ α) s = (s', .ok b) ↔ s' = s ∧ b = a := by
  show (s, Except.ok a) = (s', .ok b) ↔ _
  simp [eq_comm]

theorem bind_of_ok (h : m s = (s', .ok a)) : (m >>= f) s = f a s' := by
  simp only [bind, h]

theorem bind_of_error {e : Failure} (h : m s = (s', .error e)) : (m >>= f) s = (s', .error e) := by
  simp only [bind, h]

theorem bind_ok {b : β} :
    (m >>= f) s = (s', .ok b) ↔ ∃ s1 a, m s = (s1, .ok a) ∧ f a s1 = (s', .ok b) := by
  show (match m s with
    | (s, .ok a) => f a s
    | (s, .error e) => (s, .error e)) = (s', .ok b) ↔ _
  split
  · next s1 a heq => simp [heq]
  · next s1 e heq => simp [heq]

theorem caller_ok {c : σ} (h : (caller : DsM σ σ) s = (s', .ok c)) : s' = s ∧ c = s.caller := by
  rw [caller, Prod.mk.injEq, Except.ok.injEq] at h
  exact ⟨h.1.symm, h.2.symm⟩

theorem store_ok {d : Datastore} (h : (store : DsM σ Datastore) s = (s', .ok d)) :
    s' = s ∧ d = s.store := by
  rw [store, Prod.mk.injEq, Except.ok.injEq] at h
  exact ⟨h.1.symm, h.2.symm⟩

theorem setCaller_ok {c : σ} (h : (setCaller c : DsM σ Unit) s = (s', .ok u)) :
    s'.caller = c ∧ s'.store = s.store := by
  rw [setCaller, Prod.mk.injEq] at h
  exact ⟨by rw [← h.1], by rw [← h.1]⟩

theorem call_ok {what : String} (h : (call what : DsM σ Unit) s = (s', .ok u)) :
    s'.caller = s.caller ∧ s'.store = s.store := by
  unfold call at h
  split at h
  · simp at h
  · rw [Prod.mk.injEq] at h
    exact ⟨by rw [← h.1], by rw [← h.1]⟩

theorem newBatch_ok (h : (newBatch : DsM σ Batch) s = (s', .ok b)) :
    s'.caller = s.caller ∧ s'.store = s.store ∧ b = [] := by
  obtain ⟨s1, u, hcall, hpure⟩ := bind_ok.mp h
  obtain ⟨rfl, rfl⟩ := pure_ok.mp hpure
  obtain ⟨hcaller, hstore⟩ := call_ok hcall
  exact ⟨hcaller, hstore, rfl⟩

theorem commit_ok (h : (commit b : DsM σ Unit) s = (s', .ok u)) :
    s'.caller = s.caller ∧ s'.store = b.applyTo s.store := by
  obtain ⟨s1, v, hcall, hset⟩ := bind_ok.mp h
  obtain ⟨hcaller, hstore⟩ := call_ok hcall
  rw [Prod.mk.injEq] at hset
  rw [← hset.1, ← hcaller, ← hstore]
  exact ⟨rfl, rfl⟩

theorem fail_ok {f : Failure} : ¬ (fail f : DsM σ α) s = (s', .ok a) := by
  simp [fail]

/-! ### Runs without a fault -/

/-- Without a fault, the computation takes the caller's state `c` and the store `d` to `c'` and
`d'`, and returns `a`. -/
def Returns (m : DsM σ α) (c : σ) (d : Datastore) (a : α) (c' : σ) (d' : Datastore) : Prop :=
  ∀ s : Session σ, s.Healthy → s.caller = c → s.store = d →
    ∃ s', m s = (s', .ok a) ∧ s'.Healthy ∧ s'.caller = c' ∧ s'.store = d'

section Returns

variable {m : DsM σ α} {f : α → DsM σ β} {a : α} {b : β} {c c' c'' : σ} {d d' d'' : Datastore}

theorem returns_pure : Returns (pure a : DsM σ α) c d a c d :=
  fun s hs hc hd => ⟨s, rfl, hs, hc, hd⟩

theorem Returns.bind (hm : Returns m c d a c' d') (hf : Returns (f a) c' d' b c'' d'') :
    Returns (m >>= f) c d b c'' d'' := by
  intro s hs hc hd
  obtain ⟨s1, hrun1, hs1, hc1, hd1⟩ := hm s hs hc hd
  obtain ⟨s2, hrun2, hs2⟩ := hf s1 hs1 hc1 hd1
  exact ⟨s2, bind_ok.mpr ⟨s1, a, hrun1, hrun2⟩, hs2⟩

theorem returns_call (what : String) : Returns (call what : DsM σ Unit) c d () c d := by
  intro s hs hc hd
  refine ⟨{ s with calls := s.calls + 1 }, ?_, hs, hc, hd⟩
  rw [call, hs s.calls]

theorem returns_caller : Returns (caller : DsM σ σ) c d c c d :=
  fun s hs hc hd => ⟨s, by rw [caller, hc], hs, hc, hd⟩

theorem returns_store : Returns (store : DsM σ Datastore) c d d c d :=
  fun s hs hc hd => ⟨s, by rw [store, hd], hs, hc, hd⟩

theorem returns_setCaller : Returns (setCaller c' : DsM σ Unit) c d () c' d :=
  fun s hs _ hd => ⟨{ s with caller := c' }, rfl, hs, rfl, hd⟩

theorem returns_write (g : Datastore → Datastore) : Returns
    (call "" >>= fun _ => (fun s => ({ s with store := g s.store }, .ok ()) : DsM σ Unit))
    c d () c (g d) := by
  apply (returns_call "").bind
  exact fun s hs hc hd => ⟨{ s with store := g s.store }, rfl, hs, hc, congrArg g hd⟩

theorem returns_put (k : DsKey) (v : Bytes) : Returns (put k v : DsM σ Unit) c d () c (d.put k v) :=
  returns_write fun d => d.put k v

theorem returns_delete (k : DsKey) : Returns (delete k : DsM σ Unit) c d () c (d.delete k) :=
  returns_write fun d => d.delete k

/-- There is no error to handle. -/
theorem Returns.handle (hm : Returns m c d a c' d') (g : String → DsM σ α) :
    Returns (DsM.handle m g) c d a c' d' := by
  intro s hs hc hd
  obtain ⟨s', hrun, hs'⟩ := hm s hs hc hd
  exact ⟨s', by rw [DsM.handle, hrun], hs'⟩

end Returns

/-! ### What a computation keeps -/

def Keeps (P : Datastore → Prop) (m : DsM σ α) : Prop :=
  ∀ s, P s.store → P (m s).1.store

section Keeps

variable {P : Datastore → Prop} {m : DsM σ α} {f : α → DsM σ β}

theorem keeps_pure (a : α) : Keeps P (pure a : DsM σ α) := fun _ h => h

theorem Keeps.bind (hm : Keeps P m) (hf : ∀ a, Keeps P (f a)) : Keeps P (m >>= f) := by
  intro s hs
  have hs1 := hm s hs
  show P (match m s with
    | (s, .ok a) => f a s
    | (s, .error e) => (s, .error e)).1.store
  split
  · next s1 a heq =>
    rw [heq] at hs1
    exact hf a s1 hs1
  · next s1 e heq =>
    rw [heq] at hs1
    exact hs1

theorem keeps_call (what : String) : Keeps P (call what : DsM σ Unit) := by
  intro s hs
  unfold call
  split
  · exact hs
  · exact hs

theorem keeps_caller : Keeps P (caller : DsM σ σ) := fun _ h => h

theorem keeps_store : Keeps P (store : DsM σ Datastore) := fun _ h => h

theorem keeps_setCaller (c : σ) : Keeps P (setCaller c) := fun _ h => h

theorem Keeps.handle (hm : Keeps P m) {g : String → DsM σ α} (hg : ∀ e, Keeps P (g e)) :
    Keeps P (DsM.handle m g) := by
  intro s hs
  have hs1 := hm s hs
  unfold DsM.handle
  split
  · next s1 e heq =>
    rw [heq] at hs1
    exact hg e s1 hs1
  · exact hs1

end Keeps

end DsM

end KadDht
