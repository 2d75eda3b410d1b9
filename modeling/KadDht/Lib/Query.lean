import KadDht.Lib.Datastore

/-!
# Lib — queries by a key prefix

A query lists the entries strictly below a key: those whose path goes on with a separator after the
path of the key. On paths made of plain components this is the order of component lists.
-/

namespace KadDht

open List DsKey

/-- `ds.Query` with a prefix: the entries strictly below a key, or all of them for the root. -/
def Datastore.query (d : Datastore) (pfx : DsKey) : List (DsKey × Bytes) :=
  if pfx.path = ['/'] then d.entries
  else d.entries.filter fun e => (pfx.path ++ ['/']).isPrefixOf e.1.path

namespace DsM

variable {σ α : Type}

/-- `ds.QueryIter`. An error in the middle of the results is an error all the same. -/
def query (pfx : DsKey) : DsM σ (List (DsKey × Bytes)) := do
  call ""
  let d ← store
  pure (d.query pfx)

/-- A computation that does not touch the store. -/
def ofExcept : Except Failure α → DsM σ α
  | .ok a => pure a
  | .error f => fail f

variable {c : σ} {d : Datastore}

theorem returns_query (pfx : DsKey) : Returns (query pfx : DsM σ _) c d (d.query pfx) c d := by
  apply (returns_call "").bind
  exact returns_store.bind returns_pure

theorem returns_ofExcept {a : α} {r : Except Failure α} (h : r = .ok a) :
    Returns (ofExcept r : DsM σ α) c d a c d := h ▸ returns_pure

theorem Returns.result_eq {m : DsM σ α} {c' c'' : σ} {d' d'' : Datastore} {a b : α}
    (ha : Returns m c d a c' d') (hb : Returns m c d b c'' d'') : a = b := by
  obtain ⟨s1, hrun1, -⟩ := ha ⟨c, d, fun _ => none, 0⟩ (fun _ => rfl) rfl rfl
  obtain ⟨s2, hrun2, -⟩ := hb ⟨c, d, fun _ => none, 0⟩ (fun _ => rfl) rfl rfl
  exact Except.ok.inj (Prod.mk.inj (hrun1.symm.trans hrun2)).2

end DsM

/-! ## Paths and components -/

def joined (ws : List (List Char)) : List Char := ws.flatMap fun w => '/' :: w

@[simp] theorem joined_nil : joined [] = [] := rfl

@[simp] theorem joined_cons (w : List Char) (ws : List (List Char)) :
    joined (w :: ws) = '/' :: (w ++ joined ws) := rfl

variable {ws vs : List (List Char)}

theorem joined_eq_intercalate (h : ws ≠ []) : joined ws = '/' :: ['/'].intercalate ws := by
  induction ws with
  | nil => exact (h rfl).elim
  | cons w ws ih =>
    cases ws with
    | nil => simp
    | cons w' ws =>
      rw [joined_cons, ih (cons_ne_nil w' ws), intercalate_cons_cons,
        append_assoc, singleton_append]

theorem append_slash_prefix {w v x y : List Char} (hw : '/' ∉ w) (hv : '/' ∉ v)
    (hy : y = [] ∨ ∃ y', y = '/' :: y') (h : w ++ '/' :: x <+: v ++ y) :
    w = v ∧ '/' :: x <+: y := by
  induction w generalizing v with
  | nil =>
    cases v with
    | nil => exact ⟨rfl, h⟩
    | cons c v =>
      have hc := (cons_prefix_cons.mp h).1
      exact absurd (hc ▸ mem_cons_self) hv
  | cons a w ih =>
    cases v with
    | nil =>
      rcases hy with rfl | ⟨y', rfl⟩
      · simp at h
      · have ha := (cons_prefix_cons.mp h).1
        exact absurd (ha ▸ mem_cons_self) hw
    | cons c v =>
      obtain ⟨rfl, hrest⟩ := cons_prefix_cons.mp h
      obtain ⟨rfl, hy'⟩ := ih (fun hmem => hw (mem_cons_of_mem a hmem))
        (fun hmem => hv (mem_cons_of_mem a hmem)) hrest
      exact ⟨rfl, hy'⟩

theorem joined_eq_nil_or (ws : List (List Char)) : joined ws = [] ∨ ∃ y, joined ws = '/' :: y := by
  cases ws with
  | nil => exact .inl rfl
  | cons w ws => exact .inr ⟨_, joined_cons w ws⟩

theorem joined_ne_root (h : ∀ w ∈ ws, w ≠ []) : joined ws ≠ ['/'] := by
  cases ws with
  | nil => simp
  | cons w ws => simp [h w mem_cons_self]

/-- **Below.** A path goes on after another one, with a separator, exactly when it has more
components. -/
theorem joined_prefix_iff (hws : ∀ w ∈ ws, '/' ∉ w) (hvs : ∀ v ∈ vs, '/' ∉ v) :
    joined ws ++ ['/'] <+: joined vs ↔ ∃ v rest, vs = ws ++ v :: rest := by
  induction ws generalizing vs with
  | nil =>
    cases vs with
    | nil => simp
    | cons v vs => simp
  | cons w ws ih =>
    constructor
    · intro h
      cases vs with
      | nil => simp at h
      | cons v vs =>
        rw [joined_cons, joined_cons, cons_append, append_assoc] at h
        have hrest := (cons_prefix_cons.mp h).2
        -- what follows the component starts with a separator
        obtain ⟨x, hx⟩ : ∃ x, joined ws ++ ['/'] = '/' :: x := by
          rcases joined_eq_nil_or ws with hnil | ⟨y, hy⟩
          · exact ⟨[], by rw [hnil]; rfl⟩
          · exact ⟨y ++ ['/'], by rw [hy]; rfl⟩
        rw [hx] at hrest
        obtain ⟨rfl, htail⟩ := append_slash_prefix (hws w mem_cons_self)
          (hvs v mem_cons_self) (joined_eq_nil_or vs) hrest
        rw [← hx, ih (fun w' hw' => hws w' (mem_cons_of_mem w hw'))
          (fun v' hv' => hvs v' (mem_cons_of_mem w hv'))] at htail
        obtain ⟨v', rest, rfl⟩ := htail
        exact ⟨v', rest, rfl⟩
    · rintro ⟨v, rest, rfl⟩
      rw [cons_append, joined_cons, joined_cons, cons_append, append_assoc]
      refine cons_prefix_cons.mpr ⟨rfl, (prefix_append_right_inj w).mpr ?_⟩
      refine (ih (fun w' hw' => hws w' (mem_cons_of_mem w hw')) fun v' hv' => ?_).mpr ⟨v, rest, rfl⟩
      exact hvs v' (mem_cons_of_mem w hv')

/-- Components that are each followed by a separator, and a last one that may be missing. -/
theorem intercalate_concat (ws : List (List Char)) (v : List Char) :
    ['/'].intercalate (ws ++ [v]) = (ws.flatMap fun w => w ++ ['/']) ++ v := by
  induction ws with
  | nil => simp
  | cons w ws ih =>
    rw [cons_append, flatMap_cons, append_assoc, ← ih]
    cases ws with
    | nil => simp
    | cons w' ws => simp [intercalate_cons_cons]

/-- The key of components that are each followed by a separator; an empty last one is dropped. -/
theorem DsKey.path_new_joined {v : List Char} (hws : ∀ w ∈ ws, PlainComponent w)
    (hv : v = [] ∨ PlainComponent v) :
    (new ((ws.flatMap fun w => w ++ ['/']) ++ v)).path =
      '/' :: ['/'].intercalate (ws ++ if v = [] then [] else [v]) := by
  have hslash : ∀ w ∈ ws ++ [v], '/' ∉ w := by
    intro w hw
    rcases mem_append.mp hw with hw | hw
    · exact (hws w hw).no_slash
    · obtain rfl := mem_singleton.mp hw
      rcases hv with rfl | hv
      · simp
      · exact hv.no_slash
  show '/' :: ['/'].intercalate (cleanComponents _) = _
  congr 2
  rw [cleanComponents, ← intercalate_concat, splitOn_intercalate '/' hslash (by simp), foldl_append,
    foldl_cleanStep_of_plain [] ws hws, nil_append]
  rcases hv with rfl | hv
  · simp [cleanStep]
  · rw [if_neg hv.ne_nil, foldl_cleanStep_of_plain ws [v] (by simpa using hv)]

theorem cleanComponents_joined (h : ∀ w ∈ ws, PlainComponent w) :
    cleanComponents (joined ws) = ws := by
  cases ws with
  | nil => rfl
  | cons w ws =>
    rw [joined_eq_intercalate (cons_ne_nil w ws)]
    exact (cleanComponents_intercalate (w :: ws) h).2

theorem DsKey.path_new (h : ∀ w ∈ ws, PlainComponent w) (hne : ws ≠ []) :
    (new (joined ws)).path = joined ws := by
  show cleanPath (joined ws) = joined ws
  rw [cleanPath, cleanComponents_joined h, joined_eq_intercalate hne]

theorem DsKey.new_joined_inj (hws : ∀ w ∈ ws, PlainComponent w) (hvs : ∀ v ∈ vs, PlainComponent v)
    (hne : ws ≠ []) (hne' : vs ≠ []) (h : new (joined ws) = new (joined vs)) :
    ws = vs := by
  have hpath := congrArg path h
  rw [path_new hws hne, path_new hvs hne'] at hpath
  rw [← cleanComponents_joined hws, hpath, cleanComponents_joined hvs]

/-- **A query by components** finds the entries with more components. -/
theorem Datastore.mem_query_joined {d : Datastore} {v : Bytes} (hws : ∀ w ∈ ws, PlainComponent w)
    (hvs : ∀ w ∈ vs, PlainComponent w) (hne : ws ≠ []) (hne' : vs ≠ []) :
    (new (joined vs), v) ∈ d.query (new (joined ws)) ↔
      (new (joined vs), v) ∈ d.entries ∧ ∃ w rest, vs = ws ++ w :: rest := by
  have hroot : (new (joined ws)).path ≠ ['/'] := by
    rw [path_new hws hne]
    exact joined_ne_root fun w hw => (hws w hw).ne_nil
  rw [query, if_neg hroot, mem_filter, isPrefixOf_iff_prefix, path_new hws hne,
    path_new hvs hne',
    joined_prefix_iff (fun w hw => (hws w hw).no_slash) fun w hw => (hvs w hw).no_slash]

end KadDht
