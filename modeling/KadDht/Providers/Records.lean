import KadDht.Providers.Manager

/-!
# Providers — records in the datastore

The paths of the records are made of plain components, as long as neither the key nor the peer
identifier is empty, so that a query by a key finds the records of the key and no others.

* **`mem_load_entries`**, **`mem_load_providers`** — what `loadProviderSet` leaves in the datastore,
  and what it returns.
-/

namespace KadDht.Providers

open List Datastore

variable {k k' : Bytes} {p p' : PeerId} {validity now now' t : Int64} {d : Datastore}

/-! ## Times -/

theorem readTimeValue_timeValue (t : Int64) : readTimeValue (timeValue t) = some t := by
  rw [readTimeValue, timeValue, Varint.varint_putVarint t.le_toInt t.toInt_lt, Option.map_some,
    Int64.ofInt_toInt]

theorem toInt_sub (t u : Int64) :
    (sub t u).toInt = max (-2 ^ 63) (min (2 ^ 63 - 1) (t.toInt - u.toInt)) := by
  rw [sub, Int64.toInt_ofInt_of_le (by omega) (by omega)]

theorem expired_iff :
    expired validity now t = true ↔
      validity.toInt < max (-2 ^ 63) (min (2 ^ 63 - 1) (now.toInt - t.toInt)) := by
  rw [expired, decide_eq_true_iff, gt_iff_lt, Int64.lt_iff_toInt_lt, toInt_sub]

theorem lt_of_expired (h : expired validity now t = true) :
    validity.toInt < now.toInt - t.toInt := by
  have hmin := validity.le_toInt
  rw [expired_iff] at h
  omega

theorem expired_mono (hle : now ≤ now') (h : expired validity now t = true) :
    expired validity now' t = true := by
  rw [Int64.le_iff_toInt_le] at hle
  rw [expired_iff] at h ⊢
  omega

/-! ## Sets -/

namespace ProviderSet

variable {ps : ProviderSet} {rs : List (PeerId × Int64)}

theorem mem_setVal : p' ∈ (ps.setVal p t).providers ↔ p' = p ∨ p' ∈ ps.providers := by
  rw [(ps.setVal p t).mem_iff, ps.mem_iff]
  show (Function.update ps.set p (some t) p').isSome = true ↔ _
  by_cases hp : p' = p
  · simp [hp]
  · simp [hp]

theorem mem_foldl_setVal :
    p ∈ (rs.foldl (fun out r => out.setVal r.1 r.2) ps).providers ↔
      p ∈ ps.providers ∨ ∃ t, (p, t) ∈ rs := by
  induction rs generalizing ps with
  | nil => simp
  | cons r rs ih =>
    rw [foldl_cons, ih, mem_setVal]
    constructor
    · rintro ((rfl | hp) | ⟨t, ht⟩)
      · exact .inr ⟨r.2, mem_cons_self⟩
      · exact .inl hp
      · exact .inr ⟨t, mem_cons_of_mem r ht⟩
    · rintro (hp | ⟨t, ht⟩)
      · exact .inl (.inr hp)
      · rcases mem_cons.mp ht with rfl | ht
        · exact .inl (.inl rfl)
        · exact .inr ⟨t, ht⟩

theorem mem_of_set_foldl
    (h : (rs.foldl (fun out r => out.setVal r.1 r.2) ps).set p = some t) :
    ps.set p = some t ∨ (p, t) ∈ rs := by
  refine foldlRecOn rs _ (motive := fun out : ProviderSet => out.set p = some t →
    ps.set p = some t ∨ (p, t) ∈ rs) .inl ?_ h
  intro out hout r hr hset
  by_cases hp : p = r.1
  · have hnew : (out.setVal r.1 r.2).set p = some r.2 := by
      rw [hp]
      exact Function.update_self ..
    rw [hnew] at hset
    cases hset
    exact .inr (hp ▸ hr)
  · have hold : (out.setVal r.1 r.2).set p = out.set p := Function.update_of_ne hp ..
    exact hout (hold ▸ hset)

end ProviderSet

/-! ## Paths -/

def providersName : List Char := ['p', 'r', 'o', 'v', 'i', 'd', 'e', 'r', 's']

theorem plain_providers : PlainComponent providersName := by
  constructor <;> decide

theorem lastComponent_append {a w : List Char} (hw : '/' ∉ w) :
    lastComponent (a ++ '/' :: w) = w := by
  have htake : ((w.reverse ++ '/' :: a.reverse).takeWhile (· ≠ '/')) = w.reverse := by
    rw [takeWhile_append_of_pos fun c hc => decide_eq_true ?_]
    · simp
    · rintro rfl
      exact hw (mem_reverse.mp hc)
  rw [lastComponent, reverse_append, reverse_cons, append_assoc,
    singleton_append, htake, reverse_reverse]

theorem mem_of_mem_query {pfx : DsKey} {e : DsKey × Bytes} (h : e ∈ d.query pfx) :
    e ∈ d.entries := by
  rw [query] at h
  split at h
  · exact h
  · exact mem_of_mem_filter h

variable [Base32Lib]

def components (k : Bytes) (p : PeerId) : List (List Char) :=
  [providersName, Base32Lib.encode k, Base32Lib.encode p]

theorem mkProvKeyFor_eq (k : Bytes) (p : PeerId) : mkProvKeyFor k p = joined (components k p) := by
  simp [mkProvKeyFor, mkProvKey, providersKeyPrefix, components, providersName]

theorem mkProvKey_eq (k : Bytes) : mkProvKey k = joined [providersName, Base32Lib.encode k] := by
  simp [mkProvKey, providersKeyPrefix, providersName]

theorem plain_encode {bs : List UInt8} (h : bs ≠ []) : PlainComponent (Base32Lib.encode bs) := by
  refine ⟨Base32Lib.encode_ne_nil h, fun hdot => ?_, fun hdots => ?_, Base32Lib.no_slash bs⟩
  · exact Base32Lib.no_dot bs (hdot ▸ mem_singleton_self _)
  · exact Base32Lib.no_dot bs (hdots ▸ mem_cons_self)

theorem plain_key (hk : k ≠ []) : ∀ w ∈ [providersName, Base32Lib.encode k], PlainComponent w := by
  rintro w (_ | ⟨_, _ | ⟨_, hw⟩⟩)
  · exact plain_providers
  · exact plain_encode hk
  · cases hw

theorem plain_components (hk : k ≠ []) (hp : p ≠ []) : ∀ w ∈ components k p, PlainComponent w := by
  rintro w (_ | ⟨_, _ | ⟨_, _ | ⟨_, hw⟩⟩⟩)
  · exact plain_providers
  · exact plain_encode hk
  · exact plain_encode hp
  · cases hw

theorem components_ne_nil (k : Bytes) (p : PeerId) : components k p ≠ [] := cons_ne_nil _ _

theorem recordKey_eq (k : Bytes) (p : PeerId) :
    recordKey k p = DsKey.new (joined (components k p)) := by
  rw [recordKey, mkProvKeyFor_eq]

theorem path_recordKey (hk : k ≠ []) (hp : p ≠ []) : (recordKey k p).path = mkProvKeyFor k p := by
  rw [recordKey_eq, DsKey.path_new (plain_components hk hp) (components_ne_nil k p),
    mkProvKeyFor_eq]

theorem recordKey_inj (hk : k ≠ []) (hp : p ≠ []) (hk' : k' ≠ []) (hp' : p' ≠ [])
    (h : recordKey k p = recordKey k' p') : k = k' ∧ p = p' := by
  rw [recordKey_eq, recordKey_eq] at h
  have hcomponents := DsKey.new_joined_inj (plain_components hk hp) (plain_components hk' hp')
    (components_ne_nil k p) (components_ne_nil k' p') h
  simp only [components, cons.injEq, true_and, and_true] at hcomponents
  exact ⟨Base32Lib.encode_injective hcomponents.1, Base32Lib.encode_injective hcomponents.2⟩

theorem mem_query_key {v : Bytes} (hk : k ≠ []) (hp : p ≠ []) (hk' : k' ≠ []) :
    (recordKey k p, v) ∈ d.query (DsKey.new (mkProvKey k')) ↔
      (recordKey k p, v) ∈ d.entries ∧ k = k' := by
  rw [recordKey_eq, mkProvKey_eq, mem_query_joined (plain_key hk')
    (plain_components hk hp) (cons_ne_nil _ _) (components_ne_nil k p)]
  refine and_congr_right fun _ => ⟨?_, ?_⟩
  · rintro ⟨w, rest, heq⟩
    simp only [components, cons_append, nil_append, cons.injEq, true_and] at heq
    exact Base32Lib.encode_injective heq.1
  · rintro rfl
    exact ⟨_, [], rfl⟩

/-! ## Reading records -/

theorem readRecord_record (hk : k ≠ []) (hp : p ≠ []) :
    readRecord validity now (recordKey k p, timeValue t) =
      if expired validity now t then none else some (p, t) := by
  have hpath : lastComponent (recordKey k p).path = Base32Lib.encode p := by
    rw [path_recordKey hk hp]
    exact lastComponent_append (plain_encode hp).no_slash
  rw [readRecord, readTimeValue_timeValue, hpath, Base32Lib.decode_encode]
  rfl

/-- What the loop of `loadProviderSet` does when nothing fails. -/
theorem loadLoop_eq (results : List (DsKey × Bytes)) (d : Datastore) (out : ProviderSet) :
    loadLoop validity now .none results d out =
      (((results.filter fun e => (readRecord validity now e).isNone).map Prod.fst).foldl
          Datastore.delete d,
        (results.filterMap (readRecord validity now)).foldl
          (fun out r => out.setVal r.1 r.2) out) := by
  induction results generalizing d out with
  | nil => rfl
  | cons e results ih =>
    rw [loadLoop, if_neg (by simp [Faults.none])]
    cases hread : readRecord validity now e with
    | none =>
      rw [filter_cons_of_pos (by simp [hread]), filterMap_cons_none hread, map_cons, foldl_cons]
      exact ih (d.delete e.1) out
    | some r =>
      rw [filter_cons_of_neg (by simp [hread]), filterMap_cons_some hread, foldl_cons]
      exact ih d (out.setVal r.1 r.2)

/-! ## `loadProviderSet` -/

section Load

variable {order : MapOrder (DsKey × Bytes)}

theorem mem_load_entries {e : DsKey × Bytes} :
    e ∈ (loadProviderSet validity now order .none d k).1.entries ↔
      e ∈ d.entries ∧
        (e ∈ d.query (DsKey.new (mkProvKey k)) → readRecord validity now e ≠ none) := by
  rw [loadProviderSet, loadLoop_eq, mem_entries_foldl_delete]
  refine and_congr_right fun he => ?_
  constructor
  · intro hkept hquery hnone
    refine hkept (mem_map_of_mem (mem_filter.mpr ⟨(order.perm _).mem_iff.mpr hquery, ?_⟩))
    rw [hnone]
    rfl
  · intro hkept hdeleted
    obtain ⟨e', he', hkey⟩ := mem_map.mp hdeleted
    obtain ⟨hvisited, hnone⟩ := mem_filter.mp he'
    have hquery : e' ∈ d.query (DsKey.new (mkProvKey k)) := (order.perm _).mem_iff.mp hvisited
    -- a key has one entry
    obtain rfl := eq_of_mem_entries (mem_of_mem_query hquery) he hkey
    exact hkept hquery (Option.isNone_iff_eq_none.mp hnone)

theorem mem_load_providers :
    p ∈ (loadProviderSet validity now order .none d k).2.providers ↔
      ∃ e ∈ d.query (DsKey.new (mkProvKey k)), ∃ t, readRecord validity now e = some (p, t) := by
  rw [loadProviderSet, loadLoop_eq, ProviderSet.mem_foldl_setVal]
  constructor
  · rintro (hnew | ⟨t, ht⟩)
    · cases hnew
    · obtain ⟨e, he, hread⟩ := mem_filterMap.mp ht
      exact ⟨e, (order.perm _).mem_iff.mp he, t, hread⟩
  · rintro ⟨e, he, t, hread⟩
    exact .inr ⟨t, mem_filterMap.mpr ⟨e, (order.perm _).mem_iff.mpr he, hread⟩⟩

theorem exists_of_load_set
    (h : (loadProviderSet validity now order .none d k).2.set p = some t) :
    ∃ e ∈ d.query (DsKey.new (mkProvKey k)), readRecord validity now e = some (p, t) := by
  rw [loadProviderSet, loadLoop_eq] at h
  rcases ProviderSet.mem_of_set_foldl h with hnew | hmem
  · cases hnew
  · obtain ⟨e, he, hread⟩ := mem_filterMap.mp hmem
    exact ⟨e, (order.perm _).mem_iff.mp he, hread⟩

end Load

end KadDht.Providers
