import KadDht.Lib.Clock
import KadDht.Lib.Cover
import KadDht.Provider.Network
import KadDht.Queue.Persist
import Mathlib.Data.List.TakeWhile

/-!
# Provider — the reprovide history (`provider/provider.go`)

A successful reprovide is logged in the datastore under `/history/<hex-timestamp>/<prefix>`. After
a restart the log tells which regions were reprovided recently. Entries that are older than the
reprovide interval are collected, at most once in an interval; the log is not filtered in any other
way when it is read.

* **`written_afterReprovides`** — the log over whole runs, whatever fails.
* **`recentExact_iff`** — when the regions loaded are the fresh ones.
-/

namespace KadDht

open BitKey ProvideQueue List Datastore DsM Time

namespace SweepingProvider

namespace ReprovideHistory

/-! ## Timestamps and keys -/

/-- `%08x` of a signed integer: at least eight characters, with the sign. -/
def hex08 (n : Int64) : List Char :=
  let m := n.toInt.natAbs
  if n < 0 then '-' :: hexFixed (max 7 (m.log2 / 4 + 1)) m
  else hexFixed (max 8 (m.log2 / 4 + 1)) m

def formatTimestampHex (t : Time) : List Char := hex08 t.unixSec

def hexValue (c : Char) : Option Nat :=
  if '0' ≤ c ∧ c ≤ '9' then some (c.toNat - 48)
  else if 'a' ≤ c ∧ c ≤ 'f' then some (c.toNat - 87)
  else if 'A' ≤ c ∧ c ≤ 'F' then some (c.toNat - 55)
  else none

def scanSign : List Char → Bool × List Char
  | '-' :: s => (true, s)
  | '+' :: s => (false, s)
  | s => (false, s)

/-- `fmt.Sscanf` with `%x` into a signed integer: blanks, a sign and digits are read, and what
follows them is not looked at. -/
def sscanfHex (s : List Char) : Option Int64 :=
  let (negative, s) := scanSign (s.dropWhile fun c => c.isWhitespace && c != '\n')
  let digits := s.takeWhile fun c => (hexValue c).isSome
  let value : Int := digits.foldl (fun v c => 16 * v + (hexValue c).getD 0) 0
  let value := if negative then -value else value
  if digits.isEmpty ∨ value < -2 ^ 63 ∨ 2 ^ 63 ≤ value then none else some (Int64.ofInt value)

def parseTimestampHex (s : List Char) : Option Time := (sscanfHex s).map fun ts => Time.unix ts 0

def reprovideHistoryKeyPrefix : List Char := "history".toList

/-- `path.Join`: empty elements are left out. The result is only used as a key, which is cleaned
when it is made. -/
def pathJoin (elements : List (List Char)) : List Char :=
  ['/'].intercalate (elements.filter (· ≠ []))

/-- The key under which the reprovide of a prefix is logged. -/
def historyKey (now : Time) (pfx : Bitstr) : DsKey :=
  DsKey.new (pathJoin [reprovideHistoryKeyPrefix, formatTimestampHex now, bitstrChars pfx])

def parseReprovideHistoryKey (k : List Char) : Except String (Time × Bitstr) :=
  let invalid := "invalid reprovide log key: " ++ String.ofList k
  let parts := k.splitOn '/'
  if parts.length < 3 ∨ parts.length > 4 then .error invalid
  else match parseTimestampHex (parts.getD 2 []) with
    | none => .error invalid
    | some t => .ok (t, if parts.length = 4 then parseBitstr (parts.getD 3 []) else [])

/-! ## The methods -/

/-- The state of the provider the methods read and write, besides the datastore. -/
structure HistoryState where
  /-- Unix seconds. -/
  lastReprovideHistoryGC : Int64
  /-- `logger.Warnf` -/
  warnings : List String
deriving DecidableEq

def warn (text : String) : DsM HistoryState Unit := do
  let h ← DsM.caller
  DsM.setCaller { h with warnings := h.warnings ++ [text] }

/-- A key matches the prefix of a query if it lies strictly below it. -/
def isHistoryKey (k : DsKey) : Bool :=
  ('/' :: reprovideHistoryKeyPrefix ++ ['/']).isPrefixOf k.path

def queryHistory : DsM HistoryState (List DsKey) := do
  DsM.call ""
  let d ← DsM.store
  pure ((d.sorted.map Prod.fst).filter isHistoryKey)

def isFresh (deadline : Time) (k : DsKey) : Bool :=
  match parseReprovideHistoryKey k.path with
  | .ok (t, _) => t.after deadline
  | .error _ => false

/-- The loop of `gcReprovideHistoryIfNeeded`: the keys are sorted by time, so that it stops at the
first fresh one. -/
def gcLoop (deadline : Time) : List DsKey → DsM HistoryState Unit
  | [] => pure ()
  | k :: ks => do
    DsM.call ""
    if isFresh deadline k then pure ()
    else do
      DsM.ignore (DsM.delete (DsKey.new k.path))
      gcLoop deadline ks

/-- The body of `gcReprovideHistoryIfNeeded`, up to the first error. -/
def collect (env : Env) (now : Time) : DsM HistoryState Unit := do
  let keys ← queryHistory
  gcLoop (now.add (-env.reprovideInterval)) keys
  let h ← DsM.caller
  DsM.setCaller { h with lastReprovideHistoryGC := now.unixSec }

def gcDue (env : Env) (now : Time) (h : HistoryState) : Prop :=
  ¬ now.sub (Time.unix h.lastReprovideHistoryGC 0) < env.reprovideInterval

instance (env : Env) (now : Time) (h : HistoryState) : Decidable (gcDue env now h) :=
  inferInstanceAs (Decidable (¬ _))

def gcReprovideHistoryIfNeeded (env : Env) (now : Time) : DsM HistoryState Unit :=
  if env.closed then pure ()
  else do
    let h ← DsM.caller
    if gcDue env now h then
      DsM.handle (collect env now) fun e =>
        warn ("could not query reprovide history for gc: " ++ e)
    else pure ()

def persistSuccessfulReprovide (env : Env) (now : Time) (pfx : Bitstr) : DsM HistoryState Unit :=
  if env.closed then pure ()
  else do
    DsM.handle (DsM.put (historyKey now pfx) []) fun e =>
      warn ("could not persist successful reprovide for prefix " ++ bitstrString pfx ++ ": " ++ e)
    gcReprovideHistoryIfNeeded env now

section Load

variable [TrieLib]

def addRegion (regions : Trie Bitstr Unit) (key : Bitstr) : Trie Bitstr Unit :=
  if (findPrefixOfKey regions key).isNone then TrieLib.add (pruneSubtrie regions key) key ()
  else regions

def loadLoop : List DsKey → Trie Bitstr Unit → DsM HistoryState (Trie Bitstr Unit)
  | [], regions => pure regions
  | k :: ks, regions => do
    DsM.call ""
    match parseReprovideHistoryKey k.path with
    | .error _ => do
      DsM.ignore (DsM.delete (DsKey.new k.path))
      loadLoop ks regions
    | .ok (_, key) => loadLoop ks (addRegion regions key)

def loadRecentlyReprovidedRegions (env : Env) (now : Time) :
    DsM HistoryState (Trie Bitstr Unit) :=
  if env.closed then pure .emptyLeaf
  else do
    gcReprovideHistoryIfNeeded env now
    let keys ← queryHistory
    loadLoop keys .emptyLeaf

end Load

/-! ## Keys and back -/

def InRange (ts : Int64) : Prop := 0 ≤ ts.toInt ∧ ts.toInt < 2 ^ 32

instance (ts : Int64) : Decidable (InRange ts) := inferInstanceAs (Decidable (_ ∧ _))

theorem InRange.toNat_lt {ts : Int64} (h : InRange ts) : ts.toInt.toNat < 16 ^ 8 := by
  have hlt := h.2
  omega

theorem hex08_of_inRange {ts : Int64} (h : InRange ts) : hex08 ts = hexFixed 8 ts.toInt.toNat := by
  have hneg : ¬ ts < 0 := by
    rw [Int64.lt_iff_toInt_lt, Int64.toInt_zero, not_lt]
    exact h.1
  have habs : ts.toInt.natAbs = ts.toInt.toNat := by
    have hnonneg := h.1
    omega
  simp only [hex08]
  rw [if_neg hneg, habs, hexWidth_eq (by omega) h.toNat_lt]

theorem hexDigit_read (d : Nat) (h : d < 16) : hexValue (hexDigit d) = some d ∧
    (hexDigit d).isWhitespace = false ∧ hexDigit d ≠ '-' ∧ hexDigit d ≠ '+' := by
  revert d
  decide

theorem foldl_hexFixed {w n : Nat} (h : n < 16 ^ w) :
    (hexFixed w n).foldl (fun (v : Int) c => 16 * v + (hexValue c).getD 0) 0 = n := by
  induction w generalizing n with
  | zero =>
    simp [hexFixed, Nat.lt_one_iff.mp h]
  | succ w ih =>
    have hhigh : n / 16 < 16 ^ w := by
      omega
    have hdigit := (hexDigit_read (n % 16) (Nat.mod_lt n (by omega))).1
    rw [hexFixed, foldl_append, ih hhigh, foldl_cons, foldl_nil, hdigit, Option.getD_some]
    omega

theorem sscanfHex_hexFixed {w n : Nat} (hw : 0 < w) (h : n < 16 ^ w) (hmax : n < 2 ^ 63) :
    sscanfHex (hexFixed w n) = some (Int64.ofInt n) := by
  obtain ⟨c, cs, hcons⟩ : ∃ c cs, hexFixed w n = c :: cs :=
    exists_cons_of_length_pos (by rw [length_hexFixed]; exact hw)
  have hread : ∀ x ∈ c :: cs, ∃ d < 16, x = hexDigit d := fun x hx =>
    mem_hexFixed_digit (hcons ▸ hx)
  obtain ⟨d, hd, rfl⟩ := hread c mem_cons_self
  obtain ⟨-, hblank, hminus, hplus⟩ := hexDigit_read d hd
  have hsign : scanSign ((hexDigit d :: cs).dropWhile fun c => c.isWhitespace && c != '\n')
      = (false, hexDigit d :: cs) := by
    rw [dropWhile_cons_of_neg (by simp [hblank])]
    unfold scanSign
    split
    · next heq => exact absurd (cons.inj heq).1 hminus
    · next heq => exact absurd (cons.inj heq).1 hplus
    · rfl
  have hdigits :
      ((hexDigit d :: cs).takeWhile fun c => (hexValue c).isSome) = hexDigit d :: cs := by
    rw [takeWhile_eq_self_iff]
    intro x hx
    obtain ⟨d, hd, rfl⟩ := hread x hx
    rw [(hexDigit_read d hd).1]
    rfl
  have hvalue := foldl_hexFixed h
  rw [hcons] at hvalue ⊢
  simp only [sscanfHex, hsign, hdigits, hvalue]
  rw [if_neg (by simp; omega)]
  rfl

/-- The key of a log entry: the second and the prefix of a reprovide. -/
def entryKey (e : Int64 × Bitstr) : DsKey := historyKey (Time.unix e.1 0) e.2

def historyParts (e : Int64 × Bitstr) : List (List Char) :=
  reprovideHistoryKeyPrefix :: hexFixed 8 e.1.toInt.toNat ::
    if e.2 = [] then [] else [bitstrChars e.2]

theorem historyParts_plain (e : Int64 × Bitstr) : ∀ w ∈ historyParts e, PlainComponent w := by
  intro w hw
  rw [historyParts, mem_cons, mem_cons] at hw
  rcases hw with rfl | rfl | hw
  · exact ⟨by decide, by decide, by decide, by decide⟩
  · exact hexFixed_plain (by omega) _
  · split at hw
    · cases hw
    · next hne =>
      rw [mem_singleton.mp hw]
      exact bitstrChars_plain hne

section EntryKey

variable {e e' : Int64 × Bitstr}

variable (h : InRange e.1)
include h

theorem entryKey_path : (entryKey e).path = '/' :: ['/'].intercalate (historyParts e) := by
  rw [← DsKey.path_new_intercalate _ (historyParts_plain e)]
  have helements : [reprovideHistoryKeyPrefix, formatTimestampHex (unix e.1 0),
      bitstrChars e.2].filter (· ≠ []) = historyParts e := by
    have hhex := (hexFixed_plain (w := 8) (by omega) e.1.toInt.toNat).ne_nil
    rw [formatTimestampHex, unixSec_unix, hex08_of_inRange h, historyParts]
    rw [filter_cons_of_pos (by decide), filter_cons_of_pos (by simpa using hhex)]
    split
    · next hnil => simp [hnil, bitstrChars]
    · next hne => rw [filter_cons_of_pos (by simpa [bitstrChars] using hne), filter_nil]
  rw [entryKey, historyKey, pathJoin, helements]

theorem splitOn_entryKey : (entryKey e).path.splitOn '/' = [] :: historyParts e := by
  have hslash : ∀ w ∈ [] :: historyParts e, '/' ∉ w := by
    intro w hw
    rcases mem_cons.mp hw with rfl | hw
    · exact not_mem_nil
    · exact (historyParts_plain e w hw).no_slash
  have hsplit := splitOn_intercalate '/' hslash (cons_ne_nil _ _)
  rw [entryKey_path h, ← hsplit]
  rfl

/-- **Keys parse back** to the second and the prefix they were written for. -/
theorem parse_entryKey :
    parseReprovideHistoryKey (entryKey e).path = .ok (unix e.1 0, e.2) := by
  have hscan : parseTimestampHex (hexFixed 8 e.1.toInt.toNat) = some (unix e.1 0) := by
    have hmax := h.2
    have hnonneg := h.1
    rw [parseTimestampHex, sscanfHex_hexFixed (by omega) h.toNat_lt (by omega),
      Int.toNat_of_nonneg hnonneg, Int64.ofInt_toInt]
    rfl
  simp only [parseReprovideHistoryKey]
  rw [splitOn_entryKey h]
  by_cases hp : e.2 = []
  · simp [historyParts, hp, hscan, -Int64.toNat_toInt]
  · simp [historyParts, hp, hscan, parseBitstr_bitstrChars, -Int64.toNat_toInt]

theorem entryKey_inj (h' : InRange e'.1) (heq : entryKey e = entryKey e') : e = e' := by
  have hparse := parse_entryKey h
  rw [heq, parse_entryKey h', Except.ok.injEq, Prod.mk.injEq] at hparse
  have hts := congrArg unixSec hparse.1
  rw [unixSec_unix, unixSec_unix] at hts
  exact Prod.ext hts.symm hparse.2.symm

theorem entryKey_path_eq :
    ∃ rest, (entryKey e).path =
      ('/' :: reprovideHistoryKeyPrefix ++ ['/']) ++ (hexFixed 8 e.1.toInt.toNat ++ rest) := by
  rw [entryKey_path h, historyParts]
  split
  · exact ⟨[], by simp [intercalate, -Int64.toNat_toInt]⟩
  · exact ⟨'/' :: bitstrChars e.2, by simp [intercalate, -Int64.toNat_toInt]⟩

theorem isHistoryKey_entryKey : isHistoryKey (entryKey e) = true := by
  obtain ⟨rest, hpath⟩ := entryKey_path_eq h
  rw [isHistoryKey, hpath, isPrefixOf_iff_prefix]
  exact prefix_append _ _

/-- **Keys are in the order of time.** -/
theorem le_of_pathLe (h' : InRange e'.1)
    (hle : pathLe (entryKey e).path (entryKey e').path = true) : e.1.toInt ≤ e'.1.toInt := by
  by_contra hlt
  -- the other key comes first as well, so that they are the same
  have hge : pathLe (entryKey e').path (entryKey e).path = true := by
    have hts : e'.1.toInt.toNat < e.1.toInt.toNat := by
      have hnonneg := h'.1
      omega
    obtain ⟨rest, hpath⟩ := entryKey_path_eq h
    obtain ⟨rest', hpath'⟩ := entryKey_path_eq h'
    rw [hpath, hpath', pathLe_append_left]
    exact pathLe_hexFixed hts h.toNat_lt rest' rest
  have hkeys : entryKey e = entryKey e' := by
    rw [← DsKey.new_path (entryKey e), pathLe_antisymm hle hge, DsKey.new_path]
  exact hlt (by rw [entryKey_inj h h' hkeys])

end EntryKey

/-! ## What a store logs -/

def history (d : Datastore) : Set (Int64 × Bitstr) := {e | InRange e.1 ∧ entryKey e ∈ d.keys}

/-- The keys of the history were all written by `persistSuccessfulReprovide`, with timestamps in
range. -/
def Written (d : Datastore) : Prop :=
  ∀ k ∈ d.keys, isHistoryKey k = true → ∃ e ∈ history d, k = entryKey e

def Fresh (env : Env) (now : Time) (e : Int64 × Bitstr) : Prop :=
  now.ns - env.reprovideInterval.toInt < (Time.unix e.1 0).ns

instance (env : Env) (now : Time) (e : Int64 × Bitstr) : Decidable (Fresh env now e) :=
  inferInstanceAs (Decidable (_ < _))

theorem InRange.ns_unix {ts : Int64} (h : InRange ts) :
    (Time.unix ts 0).ns = (ts.toInt + 62135596800) * 1000000000 :=
  Time.ns_unix (by have hmax := h.2; omega)

theorem isFresh_entryKey {env : Env} (now : Time) {e : Int64 × Bitstr} (h : InRange e.1) :
    isFresh (now.add (-env.reprovideInterval)) (entryKey e) = true ↔ Fresh env now e := by
  have hsec : (unix e.1 0).sec.toInt = e.1.toInt + 62135596800 :=
    toInt_sec_unix 0 (by have hmax := h.2; omega)
  have hnonneg := h.1
  have hmax := h.2
  have hneg : (-env.reprovideInterval).toInt = -env.reprovideInterval.toInt := by
    have hpos := env.reprovideInterval_pos
    rw [Int64.lt_iff_toInt_lt, Int64.toInt_zero] at hpos
    exact Machine.toInt_neg_eq (by omega)
  rw [isFresh, parse_entryKey h]
  show (unix e.1 0).after _ = true ↔ _
  rw [after_add_iff (by omega) (by omega), hneg, ← sub_eq_add_neg]
  rfl

/-! ## Collecting -/

section Collect

variable {h : HistoryState} {d : Datastore}

def historyKeys (d : Datastore) : List DsKey := (d.sorted.map Prod.fst).filter isHistoryKey

theorem queryHistory_returns : DsM.Returns queryHistory h d (historyKeys d) h d :=
  (returns_call "").bind (returns_store.bind returns_pure)

theorem mem_historyKeys {k : DsKey} : k ∈ historyKeys d ↔ k ∈ d.keys ∧ isHistoryKey k = true := by
  rw [historyKeys, mem_filter, d.mem_sorted_keys]

theorem exists_entries {ks : List DsKey}
    (hks : ∀ k ∈ ks, ∃ e : Int64 × Bitstr, InRange e.1 ∧ k = entryKey e) :
    ∃ es : List (Int64 × Bitstr), ks = es.map entryKey ∧
      ∀ e ∈ es, InRange e.1 := by
  induction ks with
  | nil => exact ⟨[], rfl, fun _ he => absurd he not_mem_nil⟩
  | cons k ks ih =>
    obtain ⟨e, hrange, rfl⟩ := hks k mem_cons_self
    obtain ⟨es, rfl, hes⟩ := ih fun k' hk' => hks k' (mem_cons_of_mem _ hk')
    exact ⟨e :: es, rfl, forall_mem_cons.mpr ⟨hrange, hes⟩⟩

/-- **A query lists the log in the order of time.** -/
theorem historyKeys_eq (hwritten : Written d) :
    ∃ es : List (Int64 × Bitstr),
      historyKeys d = es.map entryKey ∧
      (∀ e, e ∈ es ↔ e ∈ history d) ∧ es.Pairwise fun e e' => e.1.toInt ≤ e'.1.toInt := by
  obtain ⟨es, hes, hrange⟩ : ∃ es : List (Int64 × Bitstr),
      historyKeys d = es.map entryKey ∧
      ∀ e ∈ es, InRange e.1 := by
    apply exists_entries
    intro k hk
    obtain ⟨hk, hhistory⟩ := mem_historyKeys.mp hk
    obtain ⟨e, he, heq⟩ := hwritten k hk hhistory
    exact ⟨e, he.1, heq⟩
  refine ⟨es, hes, fun e => ?_, ?_⟩
  · constructor
    · intro he
      have hmem : entryKey e ∈ historyKeys d := hes ▸ mem_map.mpr ⟨e, he, rfl⟩
      exact ⟨hrange e he, (mem_historyKeys.mp hmem).1⟩
    · rintro ⟨hr, hmem⟩
      have hlisted := mem_historyKeys.mpr ⟨hmem, isHistoryKey_entryKey hr⟩
      rw [hes] at hlisted
      obtain ⟨e', he', heq⟩ := mem_map.mp hlisted
      rwa [← entryKey_inj (hrange e' he') hr heq]
  · have hsorted : (historyKeys d).Pairwise fun k k' => pathLe k.path k'.path = true :=
      (pairwise_map.mpr d.sorted_pairwise).filter _
    rw [hes, pairwise_map] at hsorted
    exact hsorted.imp_of_mem fun he he' hle => le_of_pathLe (hrange _ he) (hrange _ he') hle

theorem gcLoop_returns (deadline : Time) (ks : List DsKey) :
    DsM.Returns (gcLoop deadline ks) h d () h
      ((ks.takeWhile fun k => !isFresh deadline k).foldl Datastore.delete d) := by
  induction ks generalizing d with
  | nil => exact returns_pure
  | cons k ks ih =>
    apply (returns_call "").bind
    cases hfresh : isFresh deadline k with
    | true =>
      rw [if_pos rfl, takeWhile_cons_of_neg (by simp [hfresh])]
      exact returns_pure
    | false =>
      rw [if_neg (by simp), takeWhile_cons_of_pos (by simp [hfresh]), DsKey.new_path]
      exact ((returns_delete k).handle _).bind ih

/-- A loop that stops at the first element that fails the test finds all that pass it, when the
list is ordered accordingly. -/
theorem takeWhile_eq_filter {α : Type} {p : α → Bool} {l : List α}
    (hl : l.Pairwise fun a b => p a = false → p b = false) : l.takeWhile p = l.filter p := by
  induction l with
  | nil => rfl
  | cons a l ih =>
    rw [pairwise_cons] at hl
    cases ha : p a with
    | true => rw [takeWhile_cons_of_pos ha, filter_cons_of_pos ha, ih hl.2]
    | false =>
      rw [takeWhile_cons_of_neg (by simp [ha]), filter_cons_of_neg (by simp [ha]),
        eq_comm, filter_eq_nil_iff]
      intro b hb
      simp [hl.1 b hb ha]

/-- **A collection leaves exactly the fresh entries.** -/
theorem collect_returns (env : Env) (now : Time) (hwritten : Written d) :
    ∃ d', DsM.Returns (collect env now) h d ()
        { h with lastReprovideHistoryGC := now.unixSec } d' ∧
      Written d' ∧ ∀ e, e ∈ history d' ↔ e ∈ history d ∧ Fresh env now e := by
  obtain ⟨es, hkeys, hmem, hsorted⟩ := historyKeys_eq hwritten
  set deadline := now.add (-env.reprovideInterval) with hdeadline
  set expired := (historyKeys d).takeWhile fun k => !isFresh deadline k with hexpired
  have hfresh : ∀ e ∈ es, isFresh deadline (entryKey e) = true ↔
      Fresh env now e := fun e he => isFresh_entryKey now ((hmem e).mp he).1
  -- once an entry is fresh, so are the later ones
  have hfilter : expired = (historyKeys d).filter fun k => !isFresh deadline k := by
    apply takeWhile_eq_filter
    rw [hkeys, pairwise_map]
    refine hsorted.imp_of_mem fun {e e'} he he' hle hstop => ?_
    rw [Bool.not_eq_false', hfresh e he, Fresh, ((hmem e).mp he).1.ns_unix] at hstop
    rw [Bool.not_eq_false', hfresh e' he', Fresh, ((hmem e').mp he').1.ns_unix]
    omega
  have hgone : ∀ e ∈ history d, entryKey e ∈ expired ↔
      ¬ Fresh env now e := by
    intro e he
    rw [hfilter, mem_filter, mem_historyKeys, Bool.not_eq_true', ← Bool.not_eq_true,
      hfresh e ((hmem e).mpr he)]
    exact and_iff_right ⟨he.2, isHistoryKey_entryKey he.1⟩
  have hiff : ∀ e, e ∈ history (expired.foldl delete d) ↔
      e ∈ history d ∧ Fresh env now e := by
    intro e
    rw [history, Set.mem_ofPred_eq, mem_keys_foldl_delete, ← and_assoc]
    exact and_congr_right fun he => by rw [hgone e he, not_not]
  refine ⟨expired.foldl delete d, ?_, fun k hk hhistory => ?_, hiff⟩
  · apply queryHistory_returns.bind
    apply (gcLoop_returns deadline _).bind
    exact returns_caller.bind returns_setCaller
  · obtain ⟨hk, hkept⟩ := mem_keys_foldl_delete.mp hk
    obtain ⟨e, he, rfl⟩ := hwritten k hk hhistory
    refine ⟨e, (hiff e).mpr ⟨he, ?_⟩, rfl⟩
    by_contra hn
    exact hkept ((hgone e he).mpr hn)

theorem gcReprovideHistoryIfNeeded_due {env : Env} {now : Time} (hopen : env.closed = false)
    (hdue : gcDue env now h) (hwritten : Written d) :
    ∃ d', DsM.Returns (gcReprovideHistoryIfNeeded env now) h d ()
        { h with lastReprovideHistoryGC := now.unixSec } d' ∧
      Written d' ∧ ∀ e, e ∈ history d' ↔ e ∈ history d ∧ Fresh env now e := by
  obtain ⟨d', hreturns, hwritten', hiff⟩ := collect_returns (h := h) env now hwritten
  refine ⟨d', ?_, hwritten', hiff⟩
  rw [gcReprovideHistoryIfNeeded, hopen, if_neg Bool.false_ne_true]
  apply returns_caller.bind
  rw [if_pos hdue]
  exact hreturns.handle _

theorem gcReprovideHistoryIfNeeded_skip {env : Env} {now : Time} (hdue : ¬ gcDue env now h) :
    DsM.Returns (gcReprovideHistoryIfNeeded env now) h d () h d := by
  unfold gcReprovideHistoryIfNeeded
  split
  · exact returns_pure
  · apply returns_caller.bind
    rw [if_neg hdue]
    exact returns_pure

/-- **`gcReprovideHistoryIfNeeded`.** Expired entries go if a collection is due. -/
theorem gcReprovideHistoryIfNeeded_returns (env : Env) (now : Time) (hopen : env.closed = false)
    (hwritten : Written d) :
    ∃ h' d', DsM.Returns (gcReprovideHistoryIfNeeded env now) h d () h' d' ∧ Written d' ∧
      ∀ e, e ∈ history d' ↔ e ∈ history d ∧ (gcDue env now h → Fresh env now e) := by
  by_cases hdue : gcDue env now h
  · obtain ⟨d', hreturns, hwritten', hiff⟩ := gcReprovideHistoryIfNeeded_due hopen hdue hwritten
    exact ⟨_, d', hreturns, hwritten', fun e => by rw [hiff, imp_iff_right hdue]⟩
  · exact ⟨h, d, gcReprovideHistoryIfNeeded_skip hdue, hwritten, fun e => by simp [hdue]⟩

end Collect

/-! ## Every store is written by reprovides -/

theorem written_empty : Written Datastore.empty := fun _ hk => absurd hk not_mem_nil

theorem Written.delete {d : Datastore} (h : Written d) (k : DsKey) : Written (d.delete k) := by
  intro k' hk' hhistory
  have hkept := mem_keys_delete.mp hk'
  obtain ⟨e, he, rfl⟩ := h k' hkept.1 hhistory
  exact ⟨e, ⟨he.1, hk'⟩, rfl⟩

theorem Written.put {d : Datastore} (h : Written d) {e : Int64 × Bitstr} (hrange : InRange e.1)
    (v : Bytes) : Written (d.put (entryKey e) v) := by
  intro k hk hhistory
  rcases mem_keys_put.mp hk with hold | rfl
  · obtain ⟨e', he', rfl⟩ := h k hold hhistory
    exact ⟨e', ⟨he'.1, hk⟩, rfl⟩
  · exact ⟨e, ⟨hrange, hk⟩, rfl⟩

theorem keeps_warn {P : Datastore → Prop} (text : String) : DsM.Keeps P (warn text) :=
  keeps_caller.bind fun _ => keeps_setCaller _

theorem keeps_gcLoop (deadline : Time) (ks : List DsKey) :
    DsM.Keeps Written (gcLoop deadline ks) := by
  induction ks with
  | nil => exact keeps_pure ()
  | cons k ks ih =>
    refine (keeps_call "").bind fun _ => ?_
    split
    · exact keeps_pure ()
    · have hdelete : DsM.Keeps Written (delete (DsKey.new k.path) : DsM HistoryState Unit) :=
        (keeps_call "").bind fun _ _ hd => hd.delete _
      exact (hdelete.handle fun _ => keeps_pure ()).bind fun _ => ih

theorem keeps_collect (env : Env) (now : Time) : DsM.Keeps Written (collect env now) := by
  have hquery : DsM.Keeps Written queryHistory :=
    (keeps_call "").bind fun _ => keeps_store.bind fun _ => keeps_pure _
  refine hquery.bind fun ks => ?_
  exact (keeps_gcLoop _ ks).bind fun _ =>
    keeps_caller.bind fun _ => keeps_setCaller _

/-- **Logging a reprovide**, whatever fails, leaves a store that was written by reprovides. -/
theorem keeps_persistSuccessfulReprovide (env : Env) {now : Time} (hnow : InRange now.unixSec)
    (pfx : Bitstr) : DsM.Keeps Written (persistSuccessfulReprovide env now pfx) := by
  unfold persistSuccessfulReprovide
  split
  · exact keeps_pure ()
  · have hput : DsM.Keeps Written (put (historyKey now pfx) [] : DsM HistoryState Unit) := by
      have hkey : historyKey now pfx = entryKey (now.unixSec, pfx) := by
        rw [entryKey, historyKey, historyKey, formatTimestampHex, formatTimestampHex,
          unixSec_unix]
      rw [hkey]
      exact (keeps_call "").bind fun _ _ hd => hd.put (e := (now.unixSec, pfx)) hnow []
    refine (hput.handle fun _ => keeps_warn _).bind fun _ => ?_
    unfold gcReprovideHistoryIfNeeded
    split
    · exact keeps_pure ()
    · refine keeps_caller.bind fun h => ?_
      split
      · exact (keeps_collect env now).handle fun _ => keeps_warn _
      · exact keeps_pure ()

def afterReprovides (s : Session HistoryState) (calls : List (Env × Time × Bitstr)) :
    Session HistoryState :=
  calls.foldl (fun s c => (persistSuccessfulReprovide c.1 c.2.1 c.2.2 s).1) s

/-- **In every run of reprovides** with times in range, the store is written by reprovides, and the
history can be read back. -/
theorem written_afterReprovides {s : Session HistoryState} (hs : Written s.store)
    (calls : List (Env × Time × Bitstr)) (hcalls : ∀ c ∈ calls, InRange c.2.1.unixSec) :
    Written (afterReprovides s calls).store ∧
      ∀ k ∈ (afterReprovides s calls).store.keys, isHistoryKey k = true →
        ∃ e, InRange e.1 ∧ k = entryKey e ∧
          parseReprovideHistoryKey k.path = .ok (Time.unix e.1 0, e.2) := by
  have hwritten : Written (afterReprovides s calls).store := by
    induction calls generalizing s with
    | nil => exact hs
    | cons c calls ih =>
      apply ih
      · exact keeps_persistSuccessfulReprovide c.1 (hcalls c mem_cons_self) c.2.2 s hs
      · exact fun c' hc' => hcalls c' (mem_cons_of_mem c hc')
  refine ⟨hwritten, fun k hk hhistory => ?_⟩
  obtain ⟨e, he, rfl⟩ := hwritten k hk hhistory
  exact ⟨e, he.1, rfl, parse_entryKey he.1⟩

def twoReprovides : Session HistoryState := afterReprovides
  ⟨⟨0, []⟩, .empty, fun n => if n = 1 then some "" else none, 0⟩
  [(sampleEnv [], Time.unix 1700000000 0, [true]), (sampleEnv [], Time.unix 1700000060 0, [false])]

/-- The second call on the datastore fails, which is the query of the first collection. Both entries
can be read back. -/
theorem written_afterReprovides_twoCalls :
    twoReprovides.store.keys.length = 2 ∧
    ∀ k ∈ twoReprovides.store.keys, isHistoryKey k = true → ∃ e, InRange e.1 ∧ k = entryKey e ∧
      parseReprovideHistoryKey k.path = .ok (Time.unix e.1 0, e.2) :=
  ⟨by decide +kernel, (written_afterReprovides written_empty _ (by decide)).2⟩

/-! ## Loading -/

section Loading

variable [TrieLib] {h : HistoryState} {d : Datastore}

theorem addRegion_spec {regions : Trie Bitstr Unit} (hwf : regions.WF) (key : Bitstr) :
    (addRegion regions key).WF ∧
      {k | k ∈ (addRegion regions key).keys} = absorb {k | k ∈ regions.keys} key := by
  have hfind := findPrefixOfKey_isNone hwf key
  unfold addRegion
  split
  · next hnone => exact add_pruneSubtrie hwf (hfind.mp hnone) ()
  · next hsome =>
    have hcov : Covers {k | k ∈ regions.keys} key := by
      by_contra hcov
      exact hsome (hfind.mpr hcov)
    exact ⟨hwf, (absorb_of_covers hcov).symm⟩

theorem foldl_addRegion_spec (keys : List Bitstr) {regions : Trie Bitstr Unit}
    (hwf : regions.WF) : (keys.foldl addRegion regions).WF ∧
      {k | k ∈ (keys.foldl addRegion regions).keys} = absorbAll {k | k ∈ regions.keys} keys := by
  induction keys generalizing regions with
  | nil => exact ⟨hwf, rfl⟩
  | cons key keys ih =>
    obtain ⟨hwf1, hkeys1⟩ := addRegion_spec hwf key
    obtain ⟨hwf2, hkeys2⟩ := ih hwf1
    exact ⟨hwf2, by rw [foldl_cons, hkeys2, hkeys1, absorbAll_cons]⟩

theorem loadLoop_cons {k : DsKey} {t : Time} {key : Bitstr}
    (hparse : parseReprovideHistoryKey k.path = .ok (t, key)) (ks : List DsKey)
    (regions : Trie Bitstr Unit) :
    loadLoop (k :: ks) regions = DsM.call "" >>= fun _ => loadLoop ks (addRegion regions key) := by
  rw [loadLoop]
  simp only [hparse]

theorem loadLoop_returns (es : List (Int64 × Bitstr)) (hes : ∀ e ∈ es, InRange e.1)
    (regions : Trie Bitstr Unit) :
    DsM.Returns (loadLoop (es.map entryKey) regions) h d
      ((es.map Prod.snd).foldl addRegion regions) h d := by
  induction es generalizing regions with
  | nil => exact returns_pure
  | cons e es ih =>
    rw [map_cons, loadLoop_cons (parse_entryKey (hes e mem_cons_self))]
    exact (returns_call "").bind (ih (fun e' he' => hes e' (mem_cons_of_mem e he')) _)

/-- **`loadRecentlyReprovidedRegions`.** The regions are those of the log that a collection, if it
is due, leaves. -/
theorem loadRecentlyReprovidedRegions_returns (env : Env) (now : Time) (hwritten : Written d) :
    ∃ h' d' regions, DsM.Returns (loadRecentlyReprovidedRegions env now) h d regions h' d' ∧
      regions.WF ∧ ∀ x, (∃ r ∈ regions.keys, StartsWith x r) ↔
        ∃ e ∈ history d, env.closed = false ∧ (gcDue env now h → Fresh env now e) ∧
          StartsWith x e.2 := by
  unfold loadRecentlyReprovidedRegions
  cases hclosed : env.closed with
  | true => exact ⟨h, d, .emptyLeaf, returns_pure, Trie.wf_emptyLeaf, fun x => by simp⟩
  | false =>
    obtain ⟨h', d', hgc, hwritten', hiff⟩ :=
      gcReprovideHistoryIfNeeded_returns (h := h) env now hclosed hwritten
    obtain ⟨es, hkeys, hmem, -⟩ := historyKeys_eq hwritten'
    obtain ⟨hwf, hset⟩ := foldl_addRegion_spec (es.map Prod.snd) Trie.wf_emptyLeaf
    refine ⟨h', d', (es.map Prod.snd).foldl addRegion .emptyLeaf, ?_, hwf, fun x => ?_⟩
    · apply hgc.bind
      apply queryHistory_returns.bind
      rw [hkeys]
      exact loadLoop_returns es (fun e he => ((hmem e).mp he).1) .emptyLeaf
    · have hstarts := startsWith_absorbAll (x := x) {k | k ∈ (.emptyLeaf : Trie Bitstr Unit).keys}
        (es.map Prod.snd)
      rw [← hset] at hstarts
      constructor
      · intro hx
        rcases hstarts.mp hx with ⟨r, hr, -⟩ | ⟨p, hp, hx⟩
        · cases hr
        · obtain ⟨e, he, rfl⟩ := mem_map.mp hp
          obtain ⟨hlog, hkept⟩ := (hiff e).mp ((hmem e).mp he)
          exact ⟨e, hlog, rfl, hkept, hx⟩
      · rintro ⟨e, he, -, hkept, hx⟩
        have hloaded : e ∈ es := (hmem e).mpr ((hiff e).mpr ⟨he, hkept⟩)
        exact hstarts.mpr (.inr ⟨e.2, mem_map_of_mem hloaded, hx⟩)

/-- The regions loaded cover exactly the prefixes reprovided during the last interval. -/
def RecentExact (env : Env) (now : Time) (s : Session HistoryState) : Prop :=
  ∃ s' regions, loadRecentlyReprovidedRegions env now s = (s', .ok regions) ∧ regions.WF ∧
    ∀ x, (∃ r ∈ regions.keys, StartsWith x r) ↔
      ∃ e ∈ history s.store, Fresh env now e ∧ StartsWith x e.2

theorem recentExact_iff_log (env : Env) (now : Time) {s : Session HistoryState}
    (hs : s.Healthy) (hwritten : Written s.store) :
    RecentExact env now s ↔ ∀ x,
      (∃ e ∈ history s.store, env.closed = false ∧ (gcDue env now s.caller → Fresh env now e) ∧
        StartsWith x e.2) ↔ ∃ e ∈ history s.store, Fresh env now e ∧ StartsWith x e.2 := by
  obtain ⟨h', d', regions, hreturns, hwf, hstarts⟩ :=
    loadRecentlyReprovidedRegions_returns (h := s.caller) env now hwritten
  obtain ⟨s', hrun, -⟩ := hreturns s hs rfl rfl
  constructor
  · rintro ⟨s1, regions1, hrun1, -, hexact⟩ x
    rw [hrun, Prod.mk.injEq, Except.ok.injEq] at hrun1
    rw [← hrun1.2] at hexact
    exact (hstarts x).symm.trans (hexact x)
  · intro hlog
    exact ⟨s', regions, hrun, hwf, fun x => (hstarts x).trans (hlog x)⟩

/-- **When the recent regions are exact.** The store was written by reprovides, and no call on it
fails. The regions that `loadRecentlyReprovidedRegions` returns cover exactly what was reprovided
during the last interval if and only if a garbage collection is due, or every expired entry of the
log is covered by fresh ones. A provider that is shutting down returns no regions. -/
theorem recentExact_iff (env : Env) (now : Time) {s : Session HistoryState}
    (hs : s.Healthy) (hwritten : Written s.store) :
    RecentExact env now s ↔
      (env.closed = true ∧ ∀ e ∈ history s.store, ¬ Fresh env now e) ∨
      (env.closed = false ∧ (gcDue env now s.caller ∨
        ∀ e ∈ history s.store, ¬ Fresh env now e →
          JointlyCovers {p | ∃ e' ∈ history s.store, Fresh env now e' ∧ e'.2 = p} e.2)) := by
  rw [recentExact_iff_log env now hs hwritten]
  cases hclosed : env.closed with
  | true =>
    constructor
    · intro hlog
      refine .inl ⟨rfl, fun e he hfresh => ?_⟩
      obtain ⟨x, hx⟩ := exists_startsWith e.2
      obtain ⟨e', -, hopen, -⟩ := (hlog x).mpr ⟨e, he, hfresh, hx⟩
      cases hopen
    · rintro (⟨-, hnone⟩ | ⟨hopen, -⟩) x
      · constructor
        · rintro ⟨e, -, hopen, -⟩
          cases hopen
        · rintro ⟨e, he, hfresh, -⟩
          exact absurd hfresh (hnone e he)
      · cases hopen
  | false =>
    constructor
    · intro hlog
      refine .inr ⟨rfl, or_iff_not_imp_left.mpr fun hdue e he _ x hx => ?_⟩
      obtain ⟨e', he', hfresh, hx'⟩ := (hlog x).mp ⟨e, he, rfl, fun h => absurd h hdue, hx⟩
      exact ⟨e'.2, ⟨e', he', hfresh, rfl⟩, hx'⟩
    · rintro (⟨hopen, -⟩ | ⟨-, hcond⟩) x
      · cases hopen
      · constructor
        · rintro ⟨e, he, -, hkept, hx⟩
          by_cases hfresh : Fresh env now e
          · exact ⟨e, he, hfresh, hx⟩
          · rcases hcond with hdue | hcovered
            · exact absurd (hkept hdue) hfresh
            · obtain ⟨p, ⟨e', he', hfresh', rfl⟩, hx'⟩ := hcovered e he hfresh x hx
              exact ⟨e', he', hfresh', hx'⟩
        · rintro ⟨e, he, hfresh, hx⟩
          exact ⟨e, he, rfl, fun _ => hfresh, hx⟩

end Loading

/-- A provider that last collected at `lastGC`, and a store with the given log. -/
def loggedSession (lastGC : Int64) (es : List (Int64 × Bitstr)) : Session HistoryState where
  caller := ⟨lastGC, []⟩
  store := es.foldl (fun d e => d.put (entryKey e) []) Datastore.empty
  faults := fun _ => none
  calls := 0

theorem loggedSession_healthy (lastGC : Int64) (es : List (Int64 × Bitstr)) :
    (loggedSession lastGC es).Healthy := fun _ => rfl

theorem loggedSession_written (lastGC : Int64) {es : List (Int64 × Bitstr)}
    (hes : ∀ e ∈ es, InRange e.1) : Written (loggedSession lastGC es).store := by
  refine foldlRecOn es _ (motive := Written) written_empty fun d hd e he => ?_
  exact hd.put (hes e he) []

theorem mem_history_loggedSession (lastGC : Int64) {es : List (Int64 × Bitstr)}
    (hes : ∀ e ∈ es, InRange e.1) (e : Int64 × Bitstr) :
    e ∈ history (loggedSession lastGC es).store ↔ e ∈ es := by
  have hkeys : ∀ d : Datastore, entryKey e ∈ (es.foldl (fun d e => d.put (entryKey e) []) d).keys ↔
        entryKey e ∈ d.keys ∨ ∃ e' ∈ es, entryKey e = entryKey e' := by
    clear hes
    induction es with
    | nil => simp
    | cons e1 es ih =>
      intro d
      rw [foldl_cons, ih, mem_keys_put, exists_mem_cons_iff, or_assoc]
  rw [history, Set.mem_ofPred_eq, loggedSession, hkeys]
  constructor
  · rintro ⟨hrange, hmem | ⟨e', he', heq⟩⟩
    · cases hmem
    · rwa [entryKey_inj hrange (hes e' he') heq]
  · exact fun he => ⟨hes e he, .inr ⟨e, he, rfl⟩⟩

/-- A minute after a collection, an entry has expired half a minute ago: the region is loaded all
the same. -/
theorem expired_region_loaded :
    ¬ @RecentExact binaryTrie (sampleEnv []) (Time.unix 1700000000 0)
      (loggedSession 1699999940 [(1699920770, [false])]) := by
  have hrange : ∀ e ∈ [((1699920770 : Int64), [false])], InRange e.1 := by decide
  have hdue : ¬ gcDue (sampleEnv []) (unix 1700000000 0) ⟨1699999940, []⟩ := by decide
  have hexpired : ¬ Fresh (sampleEnv []) (unix 1700000000 0) (1699920770, [false]) := by decide
  rw [@recentExact_iff_log binaryTrie _ _ _ (loggedSession_healthy _ _)
    (loggedSession_written _ hrange)]
  intro hlog
  obtain ⟨x, hx⟩ := exists_startsWith [false]
  obtain ⟨e, he, hfresh, -⟩ := (hlog x).mp ⟨(1699920770, [false]),
    (mem_history_loggedSession _ hrange _).mpr mem_cons_self, rfl, fun h => absurd h hdue, hx⟩
  rw [mem_history_loggedSession _ hrange, mem_singleton] at he
  exact hexpired (he ▸ hfresh)

/-- When a collection is due, only the fresh region is loaded. -/
theorem recentExact_due :
    @RecentExact binaryTrie (sampleEnv []) (Time.unix 1700000000 0)
      (loggedSession 0 [(1699919000, [false]), (1699999000, [true])]) :=
  (@recentExact_iff binaryTrie (sampleEnv []) (unix 1700000000 0) _
    (loggedSession_healthy 0 _) (loggedSession_written 0 (by decide))).mpr
    (.inr ⟨rfl, .inl (by decide)⟩)

end ReprovideHistory

end SweepingProvider

end KadDht
