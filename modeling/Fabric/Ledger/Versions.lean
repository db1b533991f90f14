import Fabric.Ledger.Results

/-!
# Versions count writes

An update set holds the writes of a block by composite key: the last value that is written,
and a version that counts the writes on from the committed one, as a 64-bit integer. The
database is what replaying the committed writes gives.
-/

namespace Fabric.Ledger

open Fabric.Common List

/-- The composite key of a key with its namespace. -/
def Key.composite (k : Key) : Bytes := constructCompositeKey k.1 k.2

theorem Key.composite_inj {k k' : Key} (h : NulFree k.1) (h' : NulFree k'.1) :
    k.composite = k'.composite ↔ k = k' := by
  constructor
  · intro heq
    obtain ⟨hns, hkey⟩ := constructCompositeKey_inj h h' heq
    exact Prod.ext hns hkey
  · rintro rfl
    rfl

/-! ### Reads and writes by key -/

/-- Add a write to an update set. -/
def addKeyWrite (db : DB) (u : UpdateSet) (w : Key × Option Bytes) : UpdateSet :=
  addWrite db w.1.1 u (newKVWrite w.1.2 w.2)

theorem addWriteSetToBatch_eq (txmgr : LockBasedTxMgr) (txRWSet : TxReadWriteSet) :
    txmgr.addWriteSetToBatch txRWSet = { txmgr with
      updateSet := some (txRWSet.keyWrites.foldl (addKeyWrite txmgr.db)
        (txmgr.updateSet.getD ∅)) } := by
  simp only [TxReadWriteSet.keyWrites, foldl_flatMap, foldl_map]
  rfl

theorem validateTx_iff {txmgr : LockBasedTxMgr} {txRWSet : TxReadWriteSet} :
    txmgr.validateTx txRWSet = true ↔ ∀ e ∈ txRWSet.keyReads,
      (∀ u, txmgr.updateSet = some u → e.1.composite ∉ u) ∧
        (getCommittedValueAndVersion txmgr.db e.1.1 e.1.2).2 = e.2 := by
  have hread (ns : Bytes) (r : KVRead) : txmgr.validateRead ns r = true ↔
      (∀ u, txmgr.updateSet = some u → Key.composite (ns, r.key) ∉ u) ∧
        (getCommittedValueAndVersion txmgr.db ns r.key).2 = r.version := by
    cases hu : txmgr.updateSet with
    | none => simp [LockBasedTxMgr.validateRead, hu, getCommitedVersion]
    | some =>
      simp [LockBasedTxMgr.validateRead, hu, Key.composite, getCommitedVersion,
        ← Std.ExtTreeMap.contains_iff_mem]
  simp only [LockBasedTxMgr.validateTx, all_eq_true, hread, TxReadWriteSet.keyReads,
    mem_flatMap, mem_map]
  constructor
  · rintro h e ⟨nsRW, hns, r, hr, rfl⟩
    exact h nsRW hns r hr
  · intro h nsRW hns r hr
    exact h _ ⟨nsRW, hns, r, hr, rfl⟩

/-! ### Pending writes -/

section Updates

variable {db : DB} {writes : List (Key × Option Bytes)}

/-- The value and version that the database holds for a composite key. -/
def committed (db : DB) (compositeKey : Bytes) : Option Bytes × ℕ :=
  match db[compositeKey]? with
  | none => (none, 0)
  | some encodedValue => decodeValue encodedValue

theorem committed_lt (db : DB) (ck : Bytes) : (committed db ck).2 < 2 ^ 64 := by
  unfold committed
  split
  · decide
  · exact decodeValue_lt _

theorem committed_composite (db : DB) (k : Key) :
    committed db k.composite = getCommittedValueAndVersion db k.1 k.2 := rfl

/-- Writes by composite key. -/
def compositeWrites (writes : List (Key × Option Bytes)) : List (Bytes × Option Bytes) :=
  writes.map fun w => (w.1.composite, w.2)

/-- The update set that holds the given writes. -/
def updates (db : DB) (writes : List (Key × Option Bytes)) : UpdateSet :=
  writes.foldl (addKeyWrite db) ∅

theorem updates_append (writes writes' : List (Key × Option Bytes)) :
    updates db (writes ++ writes') = writes'.foldl (addKeyWrite db) (updates db writes) :=
  foldl_append

/-- The version of a key with the pending writes. -/
def pendingVersion (db : DB) (u : UpdateSet) (ck : Bytes) : ℕ :=
  match u[ck]? with
  | some versionedVal => versionedVal.version
  | none => (committed db ck).2

theorem addKeyWrite_eq (db : DB) (u : UpdateSet) (w : Key × Option Bytes) :
    addKeyWrite db u w = u.insert w.1.composite
      ⟨w.2, (pendingVersion db u w.1.composite + 1) % 2 ^ 64⟩ := rfl

/-- An update set holds the last value of a key, and its version counts on from the committed one.
-/
theorem getElem?_updates (ck : Bytes) : (updates db writes)[ck]? =
    if ck ∈ (compositeWrites writes).map Prod.fst then
      some ⟨replay (compositeWrites writes) (fun _ => none) ck,
        ((committed db ck).2 + writeCount (compositeWrites writes) ck) % 2 ^ 64⟩
    else none := by
  induction writes using List.reverseRecOn generalizing ck with
  | nil => simp [updates, compositeWrites]
  | append_singleton writes w ih =>
    have hversion : pendingVersion db (updates db writes) w.1.composite =
        ((committed db w.1.composite).2 +
          writeCount (compositeWrites writes) w.1.composite) % 2 ^ 64 := by
      rw [pendingVersion, ih]
      split_ifs with hmem
      · rfl
      · rw [writeCount_eq_zero_iff.mpr hmem, Nat.add_zero,
          Nat.mod_eq_of_lt (committed_lt db w.1.composite)]
    have happend : compositeWrites (writes ++ [w]) =
        compositeWrites writes ++ [(w.1.composite, w.2)] := by simp [compositeWrites]
    rw [updates_append, foldl_cons, foldl_nil, addKeyWrite_eq, hversion, happend,
      Std.ExtTreeMap.getElem?_insert]
    by_cases hkey : w.1.composite = ck
    · subst hkey
      simp [Nat.add_assoc]
    · have hmem : ck ∈ (compositeWrites writes ++ [(w.1.composite, w.2)]).map Prod.fst ↔
          ck ∈ (compositeWrites writes).map Prod.fst := by simp [Ne.symm hkey]
      simp only [hmem, Std.compare_eq_iff_eq, hkey, if_false, ih, replay_append, replay_cons,
        replay_nil, Function.update_of_ne (Ne.symm hkey), writeCount_append, writeCount_singleton,
        Nat.add_zero]

theorem mem_updates {ck : Bytes} : ck ∈ updates db writes ↔ ∃ w ∈ writes, w.1.composite = ck := by
  rw [Std.ExtTreeMap.mem_iff_isSome_getElem?, getElem?_updates]
  simp only [compositeWrites, map_map]
  split_ifs with hmem
  · simpa using hmem
  · simpa using hmem

end Updates

theorem UpdateSet.getElem?_writeBatch (u : UpdateSet) (db : DB) (key : Bytes) :
    (u.writeBatch db)[key]? = match u[key]? with
      | some vv => some (encodeValue vv.value vv.version)
      | none => db[key]? := by
  have hdistinct : (u.toList.map fun e => (e.1, encodeValue e.2.value e.2.version)).Pairwise
      fun a b => ¬ compare a.1 b.1 = .eq :=
    pairwise_map.mpr Std.ExtTreeMap.distinct_keys_toList
  cases hu : u[key]? with
  | some vv =>
    apply Std.ExtTreeMap.getElem?_insertMany_list_of_mem Std.compare_self hdistinct
    exact mem_map.mpr ⟨(key, vv), Std.ExtTreeMap.mem_toList_iff_getElem?_eq_some.mpr hu, rfl⟩
  | none =>
    apply Std.ExtTreeMap.getElem?_insertMany_list_of_contains_eq_false
    rw [map_map, Bool.eq_false_iff, ne_eq, contains_iff_mem]
    intro hmem
    have hkeys : (Prod.fst ∘ fun e : Bytes × VersionedValue =>
      (e.1, encodeValue e.2.value e.2.version)) = Prod.fst := rfl
    rw [hkeys, Std.ExtTreeMap.map_fst_toList_eq_keys, Std.ExtTreeMap.mem_keys,
      Std.ExtTreeMap.mem_iff_isSome_getElem?, hu] at hmem
    cases hmem

theorem committed_writeBatch (db : DB) (writes : List (Key × Option Bytes)) (ck : Bytes) :
    committed ((updates db writes).writeBatch db) ck =
      (replay (compositeWrites writes) (fun ck => (committed db ck).1) ck,
        ((committed db ck).2 + writeCount (compositeWrites writes) ck) % 2 ^ 64) := by
  rw [committed, UpdateSet.getElem?_writeBatch, getElem?_updates]
  split_ifs with hmem
  · -- the writes decide, whatever was there before
    rw [replay_congr_of_mem hmem]
    exact decodeValue_encodeValue _ (Nat.mod_lt _ (Nat.two_pow_pos 64))
  · have hcount := writeCount_eq_zero_iff.mpr hmem
    rw [replay_of_writeCount_eq_zero hcount, hcount, Nat.add_zero,
      Nat.mod_eq_of_lt (committed_lt db ck)]
    rfl

/-! ### Databases and logs -/

section Logs

variable {log pending : List (Key × Option Bytes)} {db : DB}

/-- The database holds what the writes of the log leave. -/
def Represents (log : List (Key × Option Bytes)) (db : DB) : Prop :=
  ∀ k : Key, NulFree k.1 → getCommittedValueAndVersion db k.1 k.2 =
    (replay log (fun _ => none) k, writeCount log k % 2 ^ 64)

theorem represents_empty : Represents [] ∅ := by
  intro k _
  simp [getCommittedValueAndVersion]

theorem Represents.commit (hdb : Represents log db) (hpending : ∀ w ∈ pending, NulFree w.1.1) :
    Represents (log ++ pending) ((updates db pending).writeBatch db) := by
  intro k hk
  have hinj : ∀ w ∈ pending, w.1.composite = k.composite → w.1 = k := by
    intro w hw heq
    exact (Key.composite_inj (hpending w hw) hk).mp heq
  rw [← committed_composite, committed_writeBatch, compositeWrites, replay_map hinj,
    writeCount_map hinj, committed_composite, hdb k hk, replay_append, writeCount_append,
    Nat.mod_add_mod]
  congr 1
  exact replay_congr (congrArg Prod.fst (hdb k hk))

end Logs

end Fabric.Ledger
