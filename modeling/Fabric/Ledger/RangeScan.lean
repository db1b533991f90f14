import Fabric.Ledger.Calls
import Mathlib.Data.List.Pairwise

/-!
# Range scans

A scan of a range of keys of a namespace runs over a range of composite keys. These are ordered
by their namespaces first, so that a range with two bounds stays in its namespace; an empty
bound is no bound of the database, and the scan runs into the other namespaces on that side.
-/

namespace Fabric.Ledger

open Fabric.Common List Std.ExtTreeMap

/-! ### The order of composite keys -/

/-- Composite keys are ordered by namespace and then by key: the separator sorts first. -/
theorem compare_constructCompositeKey {ns ns' : Bytes} (h : NulFree ns) (h' : NulFree ns')
    (key key' : Bytes) : compare (constructCompositeKey ns key) (constructCompositeKey ns' key') =
      (compare ns ns').then (compare key key') := by
  have hsep {b : UInt8} {l : Bytes} (hb : NulFree (b :: l)) :
      compare 0x00 b = .lt ∧ compare b 0x00 = .gt := by
    have hpos := UInt8.pos_iff_ne_zero.mpr fun hzero => hb (hzero ▸ List.mem_cons_self)
    exact ⟨Std.compare_eq_lt.mpr hpos, Std.compare_eq_gt.mpr hpos⟩
  simp only [constructCompositeKey, compositeKeySep]
  induction ns generalizing ns' with
  | nil =>
    cases ns' with
    | nil => simp [List.compare_eq_compareLex]
    | cons => simp [(hsep h').1]
  | cons _ _ ih =>
    cases ns' with
    | nil => simp [(hsep h).2]
    | cons =>
      have htail {c : UInt8} {l : Bytes} (hl : NulFree (c :: l)) : NulFree l :=
        fun hmem => hl (List.mem_cons_of_mem c hmem)
      have hrec := ih (htail h) (htail h')
      simp only [List.compare_eq_compareLex] at hrec ⊢
      simp only [List.cons_append, List.compareLex_cons_cons, hrec, Ordering.then_assoc]

/-! ### Exhausting an iterator -/

/-- The result for an entry that was not deleted, with its version. -/
def liveKV (e : Bytes × Bytes) : Option (KV × ℕ) :=
  match scanEntry e with
  | .ok committedKV => committedKV.value.map fun value =>
      (⟨committedKV.key, value⟩, committedKV.version)
  | .error _ => none

/-- The results of scanning entries, with their versions. -/
def scanned (entries : List (Bytes × Bytes)) : List (KV × ℕ) := entries.filterMap liveKV

/-- Every entry has a key that can be split. -/
def Splits (entries : List (Bytes × Bytes)) : Prop :=
  ∀ e ∈ entries, ∃ committedKV, scanEntry e = .ok committedKV

theorem nextLive_eq (h : Splits entries) :
    ∃ rest, nextLive entries = .ok ((scanned entries).head?, rest) ∧
      scanned rest = (scanned entries).tail ∧ Splits rest := by
  induction entries with
  | nil => exact ⟨[], rfl, rfl, h⟩
  | cons e entries ih =>
    obtain ⟨committedKV, hkv⟩ := h e mem_cons_self
    have htail : Splits entries := fun e' he' => h e' (mem_cons_of_mem e he')
    cases hvalue : committedKV.value with
    | none =>
      obtain ⟨rest, hnext, hrest, hsplits⟩ := ih htail
      refine ⟨rest, ?_, ?_, hsplits⟩
      · simpa [nextLive, scanned, liveKV, hkv, hvalue] using hnext
      · simpa [scanned, liveKV, hkv, hvalue] using hrest
    | some =>
      refine ⟨entries, ?_, ?_, htail⟩
      · simp [nextLive, scanned, liveKV, hkv, hvalue]
      · simp [scanned, liveKV, hkv, hvalue]

theorem collect_eq (h : Splits entries) (n : ℕ) (ns : Bytes) :
    KVScanner.collect n ⟨ns, entries⟩ = .ok (((scanned entries).take n).map Prod.fst) := by
  induction n generalizing entries with
  | zero => rfl
  | succ _ ih =>
    obtain ⟨rest, hnext, hrest, hsplits⟩ := nextLive_eq h
    cases hscan : scanned entries with
    | nil => simp [KVScanner.collect, KVScanner.next, hnext, hscan]
    | cons =>
      simp [KVScanner.collect, KVScanner.next, hnext, hscan, ih hsplits, hrest]

/-- Record a result as a read. -/
def NsRWs.record (nsRWs : NsRWs) (kv : KV × ℕ) : NsRWs :=
  { nsRWs with
    readMap := nsRWs.readMap.insert kv.1.key ⟨⟨kv.1.key, kv.2⟩, some kv.1.value⟩ }

variable {k : Key} {kv : KV × ℕ}

theorem eq_of_read_put_record_ne {s s' : LockBasedTxSimulator} {ns : Bytes} {nsRWs : NsRWs}
    (hholds : Holds s ns nsRWs) (hread : s'.read = s.read)
    (hk : (s'.put ns (nsRWs.record kv)).read k ≠ s.read k) : k = (ns, kv.1.key) := by
  contrapose! hk
  rw [LockBasedTxSimulator.read_put, hread]
  split_ifs with hns
  · subst hns
    have hkey : kv.1.key ≠ k.2 := fun heq => hk (Prod.ext rfl heq.symm)
    rw [NsRWs.record, Std.ExtTreeMap.getElem?_insert, if_neg (by simpa using hkey), hholds.read]
  · rfl

theorem sCollect_ends (h : Splits entries) (n : ℕ) (ns : Bytes) (s : LockBasedTxSimulator) :
    Ends (sCollect n ⟨ns, entries⟩) s
      (fun kvs s' => kvs = ((scanned entries).take n).map Prod.fst ∧
        ∀ k, s'.read k ≠ s.read k → k.1 = ns ∧ k.2 ∈ kvs.map KV.key)
      fun _ _ => False := by
  induction n generalizing entries s with
  | zero =>
    simp [sCollect]
  | succ _ ih =>
    obtain ⟨rest, hnext, hrest, hsplits⟩ := nextLive_eq h
    cases hscan : scanned entries with
    | nil => simp [sCollect, sNext, hnext, hscan]
    | cons kv =>
      rw [hscan] at hrest
      simp only [sCollect, sNext, hnext, hscan, List.head?_cons, ends_bind, ends_pure]
      apply getOrCreateNsRWHolder_ends
      intro nsRWs s₁ hholds _ hread _ _ _
      apply (ih hsplits (s₁.put ns (nsRWs.record kv))).imp
      rintro kvs' s' ⟨rfl, hreads⟩
      refine ⟨by simp [hrest], fun k hk => ?_⟩
      by_cases hlater : s'.read k = (s₁.put ns (nsRWs.record kv)).read k
      · rw [hlater] at hk
        rw [eq_of_read_put_record_ne hholds hread hk]
        simp
      · obtain ⟨hns, hmem⟩ := hreads k hlater
        exact ⟨hns, mem_cons_of_mem _ hmem⟩

/-! ### The entries of a scanner -/

section Scanner

variable {db : DB} {ns startKey endKey : Bytes} {e : Bytes × Bytes} {value : Bytes}

theorem scanEntry_composite (hk : NulFree k.1) (encodedValue : Bytes) :
    scanEntry (k.composite, encodedValue) =
      .ok ⟨k.2, (decodeValue encodedValue).2, (decodeValue encodedValue).1⟩ := by
  simp [scanEntry, Key.composite, splitCompositeKey_construct hk]

/-- A key lies in the range of a scan, where an empty bound is none. -/
def InKeyRange (startKey endKey key : Bytes) : Prop :=
  (compare startKey key).isLE ∧ (endKey = [] ∨ compare key endKey = .lt)

/-- The keys of the namespace in the range that are not deleted, with their values, in order and
once. -/
structure ExactScan (db : DB) (ns startKey endKey : Bytes) (kvs : List KV) : Prop where
  sorted : kvs.Pairwise fun kv kv' => compare kv.key kv'.key = .lt
  mem : ∀ kv, kv ∈ kvs ↔ InKeyRange startKey endKey kv.key ∧
    (getCommittedValueAndVersion db ns kv.key).1 = some kv.value

/-- No other namespace with a key that is not deleted lies on a side of the scanned one without
bound. -/
def NoForeign (db : DB) (ns startKey endKey : Bytes) : Prop :=
  ∀ k : Key, NulFree k.1 → (getCommittedValueAndVersion db k.1 k.2).1.isSome →
    (startKey = [] → compare k.1 ns ≠ .lt) ∧ (endKey = [] → compare k.1 ns ≠ .gt)

/-- The composite key lies in the range of the database that a scanner covers. -/
def Covers (ns startKey endKey : Bytes) (k : Key) : Prop :=
  (startKey = [] ∨ ((compare ns k.1).then (compare startKey k.2)).isLE) ∧
    (endKey = [] ∨ (compare k.1 ns).then (compare k.2 endKey) = .lt)

theorem mem_dbItr (hns : NulFree ns) (hk : NulFree k.1) {encodedValue : Bytes} :
    (k.composite, encodedValue) ∈ (getCommittedRangeScanner db ns startKey endKey).dbItr ↔
      db[k.composite]? = some encodedValue ∧ Covers ns startKey endKey k := by
  have hstart := compare_constructCompositeKey hns hk startKey k.2
  have hend := compare_constructCompositeKey hk hns k.2 endKey
  simp only [getCommittedRangeScanner, getIterator, mem_filter,
    mem_toList_iff_getElem?_eq_some, Covers]
  apply and_congr_right
  intro _
  simp only [Key.composite]
  split_ifs with h h' h' <;> simp_all

theorem covers_self_iff (ns key : Bytes) :
    Covers ns startKey endKey (ns, key) ↔ InKeyRange startKey endKey key := by
  have hnil (h : startKey = []) : (compare startKey key).isLE := by
    rw [h]
    exact List.isLE_compareLex_nil_left
  simp only [Covers, Std.compare_self]
  apply and_congr_left
  intro _
  exact or_iff_right_of_imp hnil

theorem covers_iff_of_ne (hk : k.1 ≠ ns) : Covers ns startKey endKey k ↔
    (compare k.1 ns = .lt → startKey = []) ∧ (compare k.1 ns = .gt → endKey = []) := by
  have hswap : compare ns k.1 = (compare k.1 ns).swap := Std.OrientedCmp.eq_swap
  rw [Covers, hswap]
  cases hcmp : compare k.1 ns with
  | lt => simp
  | eq => exact absurd (Std.compare_eq_iff_eq.mp hcmp) hk
  | gt => simp

theorem exists_encodedValue (h : (getCommittedValueAndVersion db k.1 k.2).1 = some value) :
    ∃ encodedValue, db[k.composite]? = some encodedValue ∧
      (decodeValue encodedValue).1 = some value := by
  unfold getCommittedValueAndVersion at h
  split at h
  · cases h
  · exact ⟨_, ‹_›, h⟩

theorem exists_key_of_mem_dbItr (hdb : Keyed db)
    (he : e ∈ (getCommittedRangeScanner db ns startKey endKey).dbItr) :
    ∃ k : Key, NulFree k.1 ∧ e = (k.composite, e.2) := by
  have hmem := (mem_filter.mp he).1
  rw [mem_toList_iff_getElem?_eq_some] at hmem
  obtain ⟨k, hk, heq⟩ := hdb e.1 (mem_iff_isSome_getElem?.mpr (by simp [hmem]))
  exact ⟨k, hk, Prod.ext heq.symm rfl⟩

theorem splits_dbItr (hdb : Keyed db) :
    Splits (getCommittedRangeScanner db ns startKey endKey).dbItr := by
  intro e he
  obtain ⟨k, hk, heq⟩ := exists_key_of_mem_dbItr hdb he
  rw [heq]
  exact ⟨_, scanEntry_composite hk e.2⟩

theorem liveKV_composite (hk : NulFree k.1) (encodedValue : Bytes) :
    liveKV (k.composite, encodedValue) = (decodeValue encodedValue).1.map fun value =>
      (⟨k.2, value⟩, (decodeValue encodedValue).2) := by
  rw [liveKV, scanEntry_composite hk]

theorem exists_key_of_liveKV (hdb : Keyed db) (hns : NulFree ns)
    (he : e ∈ (getCommittedRangeScanner db ns startKey endKey).dbItr)
    (hlive : liveKV e = some kv) : ∃ k : Key, e.1 = k.composite ∧ NulFree k.1 ∧
      Covers ns startKey endKey k ∧ k.2 = kv.1.key ∧
        (getCommittedValueAndVersion db k.1 k.2).1 = some kv.1.value := by
  obtain ⟨k, hk, heq⟩ := exists_key_of_mem_dbItr hdb he
  rw [heq] at he hlive
  obtain ⟨hget, hcovers⟩ := (mem_dbItr hns hk).mp he
  rw [liveKV_composite hk] at hlive
  obtain ⟨value, hvalue, rfl⟩ := Option.map_eq_some_iff.mp hlive
  refine ⟨k, congrArg Prod.fst heq, hk, hcovers, rfl, ?_⟩
  rw [getCommittedValueAndVersion, ← Key.composite, hget]
  exact hvalue

theorem exists_liveKV (hns : NulFree ns) (hk : NulFree k.1) (hcovers : Covers ns startKey endKey k)
    (hvalue : (getCommittedValueAndVersion db k.1 k.2).1 = some value) :
    ∃ e ∈ (getCommittedRangeScanner db ns startKey endKey).dbItr, ∃ version,
      e.1 = k.composite ∧ liveKV e = some (⟨k.2, value⟩, version) := by
  obtain ⟨encodedValue, hget, hdec⟩ := exists_encodedValue hvalue
  refine ⟨(k.composite, encodedValue), (mem_dbItr hns hk).mpr ⟨hget, hcovers⟩,
    (decodeValue encodedValue).2, rfl, ?_⟩
  rw [liveKV_composite hk, hdec]
  rfl

theorem mem_scanned_iff (hdb : Keyed db) (hns : NulFree ns) {kv : KV} :
    kv ∈ (scanned (getCommittedRangeScanner db ns startKey endKey).dbItr).map Prod.fst ↔
      ∃ k : Key, NulFree k.1 ∧ Covers ns startKey endKey k ∧ k.2 = kv.key ∧
        (getCommittedValueAndVersion db k.1 k.2).1 = some kv.value := by
  simp only [scanned, mem_map, mem_filterMap]
  constructor
  · rintro ⟨_, ⟨e, he, hlive⟩, rfl⟩
    obtain ⟨k, -, hk⟩ := exists_key_of_liveKV hdb hns he hlive
    exact ⟨k, hk⟩
  · rintro ⟨k, hk, hcovers, hkey, hvalue⟩
    obtain ⟨e, he, version, -, hlive⟩ := exists_liveKV hns hk hcovers hvalue
    exact ⟨_, ⟨e, he, hlive⟩, by rw [hkey]⟩

theorem sorted_dbItr : (getCommittedRangeScanner db ns startKey endKey).dbItr.Pairwise
    fun e e' => compare e.1 e'.1 = .lt :=
  ordered_keys_toList.filter _

theorem exactScan_of_noForeign (hdb : Keyed db) (hns : NulFree ns)
    (h : NoForeign db ns startKey endKey) : ExactScan db ns startKey endKey
      ((scanned (getCommittedRangeScanner db ns startKey endKey).dbItr).map Prod.fst) := by
  have hown {k : Key} (hk : NulFree k.1) (hcovers : Covers ns startKey endKey k)
      (hlive : (getCommittedValueAndVersion db k.1 k.2).1.isSome) : k.1 = ns := by
    by_contra hne
    obtain ⟨hstart, hend⟩ := h k hk hlive
    obtain ⟨hlt, hgt⟩ := (covers_iff_of_ne hne).mp hcovers
    cases hcmp : compare k.1 ns with
    | lt => exact hstart (hlt hcmp) hcmp
    | eq => exact hne (Std.compare_eq_iff_eq.mp hcmp)
    | gt => exact hend (hgt hcmp) hcmp
  constructor
  · rw [pairwise_map, scanned, pairwise_filterMap]
    apply sorted_dbItr.imp_of_mem
    intro e e' he he' hlt kv hkv kv' hkv'
    obtain ⟨k, heq, hk, hcovers, hkey, hvalue⟩ := exists_key_of_liveKV hdb hns he hkv
    obtain ⟨k', heq', hk', hcovers', hkey', hvalue'⟩ := exists_key_of_liveKV hdb hns he' hkv'
    -- in one namespace the order of composite keys is that of the keys
    rw [heq, heq', Key.composite, Key.composite, compare_constructCompositeKey hk hk',
      hown hk hcovers (by simp [hvalue]), hown hk' hcovers' (by simp [hvalue']),
      Std.compare_self, hkey, hkey'] at hlt
    exact hlt
  · intro kv
    rw [mem_scanned_iff hdb hns, ← covers_self_iff ns]
    constructor
    · rintro ⟨k, hk, hcovers, hkey, hvalue⟩
      have heq : k = (ns, kv.key) := Prod.ext (hown hk hcovers (by simp [hvalue])) hkey
      rw [heq] at hcovers hvalue
      exact ⟨hcovers, hvalue⟩
    · rintro ⟨hcovers, hvalue⟩
      exact ⟨(ns, kv.key), hns, hcovers, rfl, hvalue⟩

/-- Two entries do not give results with the same key. -/
def KeysDiffer (e e' : Bytes × Bytes) : Prop :=
  ∀ kv, liveKV e = some kv → ∀ kv', liveKV e' = some kv' → kv.1.key ≠ kv'.1.key

instance : Std.Symm KeysDiffer :=
  ⟨fun _ _ h kv hkv kv' hkv' => (h kv' hkv' kv hkv).symm⟩

/-- If another namespace is covered, a key is foreign, or is returned twice. -/
theorem noForeign_of_exactScan (hdb : Keyed db) (hns : NulFree ns)
    (h : ExactScan db ns startKey endKey
      ((scanned (getCommittedRangeScanner db ns startKey endKey).dbItr).map Prod.fst)) :
    NoForeign db ns startKey endKey := by
  intro k hk hlive
  obtain ⟨value, hvalue⟩ := Option.isSome_iff_exists.mp hlive
  by_contra hforeign
  have hne : k.1 ≠ ns := by
    rintro rfl
    simp at hforeign
  have hcovers : Covers ns startKey endKey k := by
    rw [covers_iff_of_ne hne]
    cases hcmp : compare k.1 ns with
    | lt => simpa [hcmp] using hforeign
    | eq => exact absurd (Std.compare_eq_iff_eq.mp hcmp) hne
    | gt => simpa [hcmp] using hforeign
  -- the key is then one of the scanned namespace as well
  obtain ⟨hrange, hvalue'⟩ := (h.mem ⟨k.2, value⟩).mp
    ((mem_scanned_iff hdb hns).mpr ⟨k, hk, hcovers, rfl, hvalue⟩)
  obtain ⟨e, he, version, heq, hkv⟩ := exists_liveKV hns hk hcovers hvalue
  obtain ⟨e', he', version', heq', hkv'⟩ :=
    exists_liveKV hns hns ((covers_self_iff ns k.2).mpr hrange) hvalue'
  have hentries : e ≠ e' := by
    rintro rfl
    exact hne (congrArg Prod.fst ((Key.composite_inj hk hns).mp (heq.symm.trans heq')))
  have hsorted := h.sorted
  rw [pairwise_map, scanned, pairwise_filterMap] at hsorted
  have hdiffer : (getCommittedRangeScanner db ns startKey endKey).dbItr.Pairwise KeysDiffer := by
    apply hsorted.imp
    intro a b hlt kv hkv kv' hkv' hkey
    have hself := hlt kv hkv kv' hkv'
    rw [hkey, Std.compare_self] at hself
    cases hself
  exact hdiffer.forall he he' hentries _ hkv _ hkv' rfl

end Scanner

/-! ### Scans of reachable states -/

section Reached

variable {τ : Type} {E : τ → Option Bytes} {txmgr : LockBasedTxMgr} {ns startKey endKey : Bytes}

/-- Exhausting the iterators of a query and a simulator gives exact results, and the simulator
changes its reads only at keys that exist in the namespace. -/
def ScansExactly (db : DB) (ns startKey endKey : Bytes) (n : ℕ) : Prop :=
  ∃ kvs, (getCommittedRangeScanner db ns startKey endKey).collect n = .ok kvs ∧
    ExactScan db ns startKey endKey kvs ∧
    ∀ s : LockBasedTxSimulator, s.isDone = false →
      Ends (getStateRangeScanIterator db ns startKey endKey >>= sCollect n) s
        (fun kvs' s' => kvs' = kvs ∧ ∀ k, s'.read k ≠ s.read k →
          k.1 = ns ∧ (getCommittedValueAndVersion db ns k.2).1.isSome)
        fun _ _ => False

/-- In every reachable state a scan is exact if and only if no other namespace with a key that is
not deleted lies on a side where the scan has no bound. -/
theorem rangeScan_exact_iff {cs : List (Call τ)} (hcs : ∀ c ∈ cs, c.NulFree E)
    (hcalls : newLockBasedTxMgr.calls E cs = some txmgr) (hns : NulFree ns) {n : ℕ}
    (hn : txmgr.db.size < n) :
    ScansExactly txmgr.db ns startKey endKey n ↔ NoForeign txmgr.db ns startKey endKey := by
  have hdb := (LockBasedTxMgr.wellKeyed_of_calls LockBasedTxMgr.wellKeyed_new hcs hcalls).db
  set entries := (getCommittedRangeScanner txmgr.db ns startKey endKey).dbItr with hentries
  have hsplits : Splits entries := splits_dbItr hdb
  have hall : (scanned entries).take n = scanned entries := by
    apply take_of_length_le
    have hlength : entries.length ≤ txmgr.db.toList.length := length_filter_le _ _
    rw [length_toList] at hlength
    have hscanned : (scanned entries).length ≤ entries.length := length_filterMap_le _ _
    omega
  have hcollect := collect_eq hsplits n ns
  rw [hall] at hcollect
  constructor
  · rintro ⟨kvs, hkvs, hexact, -⟩
    obtain rfl := Except.ok.inj (hcollect.symm.trans hkvs)
    exact noForeign_of_exactScan hdb hns hexact
  · intro hforeign
    have hexact := exactScan_of_noForeign hdb hns hforeign
    refine ⟨_, hcollect, hexact, fun s hdone => ?_⟩
    unfold getStateRangeScanIterator checkDone
    simp only [ends_bind, ends_get, hdone, Bool.false_eq_true]
    apply (sCollect_ends hsplits n ns s).imp
    rintro kvs s' ⟨rfl, hreads⟩
    rw [hall] at hreads ⊢
    refine ⟨rfl, fun k hk => ?_⟩
    obtain ⟨hk, hmem⟩ := hreads k hk
    obtain ⟨kv, hkv, hkey⟩ := mem_map.mp hmem
    refine ⟨hk, ?_⟩
    rw [← hkey, ((hexact.mem kv).mp hkv).2]
    rfl

end Reached

/-- A transaction that writes a key in each of two namespaces. -/
def twoNamespaces : TxReadWriteSet :=
  ⟨[⟨[97], [], [newKVWrite [1] (some [5])]⟩, ⟨[98], [], [newKVWrite [2] (some [6])]⟩]⟩

def twoNamespacesCalls : List (Call Bytes) :=
  [.validateAndPrepare ⟨[], [twoNamespaces.marshal]⟩, .commit]

theorem nulFree_twoNamespacesCalls : ∀ c ∈ twoNamespacesCalls, c.NulFree some := by
  have hdec : readWriteSet some twoNamespaces.marshal = .ok twoNamespaces := by decide +kernel
  intro c hc
  rcases mem_pair.mp hc with rfl | rfl
  · intro env henv txRWSet hrw
    rw [mem_singleton.mp henv, hdec] at hrw
    cases hrw
    intro nsRW hns
    rcases mem_pair.mp hns with rfl | rfl <;> decide
  · trivial

/-- A scan with two bounds. -/
theorem rangeScan_exact_twoBounds : ∃ txmgr : LockBasedTxMgr,
    newLockBasedTxMgr.calls some twoNamespacesCalls = some txmgr ∧ txmgr.db.size = 2 ∧
      ScansExactly txmgr.db [98] [1] [3] 3 := by
  refine exists_and_of_checked (fun txmgr => txmgr.db.size = 2) (by decide +kernel) ?_
  intro txmgr hcalls hsize
  rw [rangeScan_exact_iff nulFree_twoNamespacesCalls hcalls (by decide) (by omega)]
  intro k _ _
  simp

/-- A scan without first key returns a key of the namespace before. -/
theorem not_scansExactly_twoNamespaces : (∀ c ∈ twoNamespacesCalls, c.NulFree some) ∧
    NulFree [98] ∧ ∃ txmgr : LockBasedTxMgr,
      newLockBasedTxMgr.calls some twoNamespacesCalls = some txmgr ∧ txmgr.db.size < 3 ∧
        ¬ ScansExactly txmgr.db [98] [] [3] 3 := by
  obtain ⟨txmgr, hcalls, hsize, hkvs, habsent⟩ : ∃ txmgr,
      newLockBasedTxMgr.calls some twoNamespacesCalls = some txmgr ∧ txmgr.db.size < 3 ∧
        (getCommittedRangeScanner txmgr.db [98] [] [3]).collect 3 = .ok [⟨[1], [5]⟩, ⟨[2], [6]⟩] ∧
            (getCommittedValueAndVersion txmgr.db [98] [1]).1 = none := by
    decide +kernel
  refine ⟨nulFree_twoNamespacesCalls, by decide, txmgr, hcalls, hsize, ?_⟩
  rintro ⟨kvs, hcollect, hexact, -⟩
  obtain rfl := Except.ok.inj (hkvs.symm.trans hcollect)
  have hvalue := ((hexact.mem ⟨[1], [5]⟩).mp mem_cons_self).2
  rw [habsent] at hvalue
  cases hvalue

end Fabric.Ledger
