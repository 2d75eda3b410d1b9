import Mathlib.Data.List.Range

/-!
# RtRefresh — a refresh of the routing table (`rtrefresh/rt_refresh_manager.go`)

`doRefresh` refreshes the tracked common prefix lengths one after the other. At the first one
without peers it goes on to a bound that depends on this gap, and returns. Only a refresh without a
gap gets to the end, where it is announced.

* **`doRefresh_announces_iff`** — what is refreshed, and when it is announced.
-/

namespace KadDht.RtRefresh

open List

/-- What a refresh finds. The number of peers is asked for at most once for each `cpl`. -/
structure Env where
  forceRefresh : Bool
  queryForSelf : Option String
  /-- The number of `refreshCpls`. -/
  tracked : Nat
  eligible : Nat → Bool
  refreshKeyGenFnc : Nat → Except String String
  refreshQueryFnc : String → Option String
  nPeersForCpl : Nat → Nat
  /-- The context is cancelled when the refresh could be announced. -/
  cancelled : Option String

variable (env : Env)

/-- The prefix lengths for which a query runs, and the error. -/
def refreshCpl (cpl : Nat) : List Nat × Option String :=
  match env.refreshKeyGenFnc cpl with
  | .error err => ([], some s!"failed to generated query key for cpl={cpl}, err={err}")
  | .ok key =>
    ([cpl], (env.refreshQueryFnc key).map fun err => s!"failed to refresh cpl={cpl}, err={err}")

def rfnc (cpl : Nat) : List Nat × Option String :=
  if env.forceRefresh || env.eligible cpl then refreshCpl env cpl else ([], none)

/-- Some prefix lengths are refreshed, whatever their errors. -/
def refreshAll (cpls : List Nat) : List Nat × List String :=
  (cpls.flatMap fun cpl => (rfnc env cpl).1, cpls.filterMap fun cpl => (rfnc env cpl).2)

/-- The loop over what is left of `refreshCpls`. The flag tells that it returned. -/
def cplLoop : List Nat → List Nat × List String × Bool
  | [] => ([], [], false)
  | c :: cpls =>
    match rfnc env c with
    | (done, some err) =>
      let (rest, merr, returned) := cplLoop cpls
      (done ++ rest, err :: merr, returned)
    | (done, none) =>
      if env.nPeersForCpl c = 0 then
        let lastCpl := min (2 * (c + 1)) (env.tracked - 1)
        let (rest, merr) := refreshAll env (range' (c + 1) (lastCpl - c))
        (done ++ rest, merr, true)
      else
        let (rest, merr, returned) := cplLoop cpls
        (done ++ rest, merr, returned)

/-- The prefix lengths refreshed, how often `refreshDoneCh` is written to, and the errors. -/
structure Refresh where
  refreshed : List Nat
  announced : Nat
  merr : List String

def doRefresh : Refresh :=
  let selfErr := (env.queryForSelf.map ("failed to query for self, err=" ++ ·)).toList
  match cplLoop env (range env.tracked) with
  | (done, merr, true) => ⟨done, 0, selfErr ++ merr⟩
  | (done, merr, false) =>
    match env.cancelled with
    | some err => ⟨done, 0, [err]⟩
    | none => ⟨done, 1, selfErr ++ merr⟩

theorem rfnc_sublist (cpl : Nat) : (rfnc env cpl).1 <+ [cpl] := by
  rw [rfnc]
  split
  · rw [refreshCpl]
    split
    · exact nil_sublist _
    · exact .refl _
  · exact nil_sublist _

theorem refreshAll_sublist (cpls : List Nat) : (refreshAll env cpls).1 <+ cpls := by
  induction cpls with
  | nil => exact .refl _
  | cons c cpls ih => exact (rfnc_sublist env c).append ih

/-- What is left of the loop refreshes some of the lengths that are left. -/
theorem cplLoop_sublist (c n : Nat) (hn : c + n = env.tracked) :
    (cplLoop env (range' c n)).1 <+ range' c n := by
  induction n generalizing c with
  | zero => exact .refl _
  | succ n ih =>
    have hrest := ih (c + 1) (by omega)
    have hc := rfnc_sublist env c
    rw [range'_succ, cplLoop]
    split
    · next heq =>
      rw [heq] at hc
      exact hc.append hrest
    · next heq =>
      rw [heq] at hc
      split
      · -- the bound after a gap is below the last length
        refine hc.append ((refreshAll_sublist env _).trans (range'_sublist_right.mpr ?_))
        omega
      · exact hc.append hrest

theorem cplLoop_returned_iff (cpls : List Nat) : (cplLoop env cpls).2.2 = false ↔
    ∀ c ∈ cpls, (rfnc env c).2 = none → env.nPeersForCpl c ≠ 0 := by
  induction cpls with
  | nil => simp [cplLoop]
  | cons c cpls ih =>
    rw [forall_mem_cons, cplLoop, ← ih]
    split
    · next heq => simp [heq]
    · next heq =>
      split
      · next hgap => simp [heq, hgap]
      · next hgap => simp [heq, hgap]

/-- **What a refresh does.** Every tracked length is refreshed at most once, and no other. Unless it
is cancelled, the refresh is announced exactly if there is no gap: no length that is refreshed
without an error, or not due, and has no peers. -/
theorem doRefresh_announces_iff :
    (doRefresh env).refreshed.Nodup ∧ (∀ cpl ∈ (doRefresh env).refreshed, cpl < env.tracked) ∧
    (env.cancelled = none → ((doRefresh env).announced = 1 ↔
      ∀ c < env.tracked, (rfnc env c).2 = none → env.nPeersForCpl c ≠ 0)) := by
  have hdone : (doRefresh env).refreshed = (cplLoop env (range env.tracked)).1 := by
    rw [doRefresh]
    split
    · next heq => rw [heq]
    · next heq =>
      rw [heq]
      cases env.cancelled <;> rfl
  have hsub := cplLoop_sublist env 0 env.tracked (Nat.zero_add _)
  rw [← range_eq_range', ← hdone] at hsub
  refine ⟨hsub.nodup nodup_range, fun cpl h => mem_range.mp (hsub.subset h), fun hctx => ?_⟩
  have hreturned := cplLoop_returned_iff env (range env.tracked)
  simp only [mem_range] at hreturned
  rw [← hreturned, doRefresh]
  split
  · next heq => simp [heq]
  · next heq => simp [heq, hctx]

/-- The only tracked length has no peers. -/
theorem doRefresh_silent :
    doRefresh ⟨true, none, 1, fun _ => true, fun _ => .ok "key", fun _ => none, fun _ => 0, none⟩
      = ⟨[0], 0, []⟩ := rfl

end KadDht.RtRefresh
