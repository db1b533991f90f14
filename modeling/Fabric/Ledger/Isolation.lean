import Fabric.Ledger.Calls

/-!
# Isolation of namespaces

A key of one namespace and a key of another may have the same composite key if a namespace
holds the separator.
-/

namespace Fabric.Ledger

open Fabric.Common

/-- The transaction reads keys of the namespace only. -/
def ReadsOnly (ns : Bytes) (txRWSet : TxReadWriteSet) : Prop :=
  ∀ e ∈ txRWSet.keyReads, e.1.1 = ns

/-- Committing leaves the namespace as it was, and transactions that read only it stay valid. -/
def Isolated (txmgr prepared : LockBasedTxMgr) (ns : Bytes) : Prop :=
  ∃ committed, prepared.commit = .ok committed ∧
    (∀ key, getCommittedValueAndVersion committed.db ns key =
      getCommittedValueAndVersion txmgr.db ns key) ∧
    ∀ txRWSet, ReadsOnly ns txRWSet → LockBasedTxMgr.validateTx ⟨txmgr.db, some ∅⟩ txRWSet = true →
        prepared.validateTx txRWSet = true ∧
          LockBasedTxMgr.validateTx ⟨committed.db, some ∅⟩ txRWSet = true

theorem exists_composite_eq_iff {ns ck : Bytes} :
    (∃ key, constructCompositeKey ns key = ck) ↔ constructCompositeKey ns [] <+: ck := by
  simp [constructCompositeKey, List.IsPrefix]

section Writes

variable {db : DB} {writes : List (Key × Option Bytes)} {ns : Bytes}

theorem isolated_of_not_isPrefix
    (h : ∀ w ∈ writes, ¬ constructCompositeKey ns [] <+: w.1.composite)
    (txmgr : LockBasedTxMgr) :
    Isolated txmgr ⟨txmgr.db, some (updates txmgr.db writes)⟩ ns := by
  have habsent (key : Bytes) : constructCompositeKey ns key ∉ updates txmgr.db writes := by
    intro hmem
    obtain ⟨w, hw, heq⟩ := mem_updates.mp hmem
    exact h w hw (exists_composite_eq_iff.mp ⟨key, heq.symm⟩)
  have hstate (key : Bytes) : getCommittedValueAndVersion
      ((updates txmgr.db writes).writeBatch txmgr.db) ns key =
        getCommittedValueAndVersion txmgr.db ns key := by
    rw [getCommittedValueAndVersion, UpdateSet.getElem?_writeBatch,
      Std.ExtTreeMap.getElem?_eq_none (habsent key)]
    rfl
  refine ⟨_, rfl, hstate, fun txRWSet hreads hvalid => ?_⟩
  rw [validateTx_iff] at hvalid
  constructor
  · rw [validateTx_iff]
    intro e he
    refine ⟨fun u hu => ?_, (hvalid e he).2⟩
    cases hu
    rw [Key.composite, hreads e he]
    exact habsent e.1.2
  · rw [validateTx_iff]
    intro e he
    refine ⟨(hvalid e he).1, ?_⟩
    have hversion := (hvalid e he).2
    rw [hreads e he] at hversion ⊢
    rw [hstate, hversion]

/-- A write with a composite key of the namespace makes transactions invalid that read the
key. -/
theorem not_isPrefix_of_isolated {txmgr : LockBasedTxMgr}
    (h : Isolated txmgr ⟨txmgr.db, some (updates txmgr.db writes)⟩ ns)
    {w : Key × Option Bytes} (hw : w ∈ writes) :
    ¬ constructCompositeKey ns [] <+: w.1.composite := by
  intro hprefix
  obtain ⟨key, hkey⟩ := exists_composite_eq_iff.mpr hprefix
  obtain ⟨committed, -, -, hvalid⟩ := h
  -- a transaction that has read the key in the state before
  obtain ⟨txRWSet, hreads⟩ : ∃ txRWSet : TxReadWriteSet, txRWSet.keyReads =
      [((ns, key), (getCommittedValueAndVersion txmgr.db ns key).2)] :=
    ⟨⟨[⟨ns, [⟨key, (getCommittedValueAndVersion txmgr.db ns key).2⟩], []⟩]⟩, rfl⟩
  have hpending := (hvalid txRWSet (by simp [ReadsOnly, hreads])
    (by simp [validateTx_iff, hreads])).1
  rw [validateTx_iff, hreads] at hpending
  exact (hpending _ List.mem_cons_self).1 _ rfl (mem_updates.mpr ⟨w, hw, hkey.symm⟩)

end Writes

section Block

variable {τ : Type} {E : τ → Option Bytes} {block valid : Block τ}
  {invalidTxs : List InvalidTransaction} {txmgr prepared : LockBasedTxMgr} {ns₁ ns₂ : Bytes}

/-- A block whose valid transactions write only to one namespace does not affect another one if and
only if no written composite key begins with the other namespace and the separator. -/
theorem isolated_iff
    (hprepare : (validateAndPrepare E block).run txmgr = .ok (valid, invalidTxs) prepared)
    (hwrites : ∀ env ∈ valid.transactions, ∀ w ∈ envWrites E env, w.1.1 = ns₁) :
    Isolated txmgr prepared ns₂ ↔ ∀ env ∈ valid.transactions, ∀ w ∈ envWrites E env,
      ¬ constructCompositeKey ns₂ [] <+: constructCompositeKey ns₁ w.1.2 := by
  obtain ⟨rfl, -⟩ := (validateAndPrepare_updates block txmgr).of_run_eq_ok hprepare
  constructor
  · intro h env henv w hw
    rw [← hwrites env henv w hw]
    exact not_isPrefix_of_isolated h (List.mem_flatMap.mpr ⟨env, henv, hw⟩)
  · intro h
    apply isolated_of_not_isPrefix
    intro w hw
    obtain ⟨env, henv, hw⟩ := List.mem_flatMap.mp hw
    rw [Key.composite, hwrites env henv w hw]
    exact h env henv w hw

end Block

/-- A transaction that writes one key. -/
def writeOne (ns key value : Bytes) : Bytes :=
  TxReadWriteSet.marshal ⟨[⟨ns, [], [newKVWrite key (some value)]⟩]⟩

theorem exists_prepared {τ : Type} {E : τ → Option Bytes} {block : Block τ}
    {txmgr : LockBasedTxMgr}
    {p : Block τ × List InvalidTransaction → LockBasedTxMgr → Prop} [∀ out t, Decidable (p out t)]
    (h : (match (validateAndPrepare E block).run txmgr with
      | .ok out prepared => decide (p out prepared)
      | .error _ _ => false) = true) :
    ∃ valid invalidTxs prepared, (validateAndPrepare E block).run txmgr =
      .ok (valid, invalidTxs) prepared ∧ p (valid, invalidTxs) prepared := by
  split at h
  · rename_i out prepared hprepare
    exact ⟨out.1, out.2, prepared, hprepare, of_decide_eq_true h⟩
  · cases h

/-- A write to namespace "a" does not affect namespace "b". -/
theorem isolated_writeOne : ∃ valid invalidTxs prepared,
    (validateAndPrepare some ⟨[], [writeOne [97] [1] [5]]⟩).run newLockBasedTxMgr =
      .ok (valid, invalidTxs) prepared ∧ valid.transactions ≠ [] ∧
        Isolated newLockBasedTxMgr prepared [98] := by
  obtain ⟨valid, invalidTxs, prepared, hprepare, hvalid, hwrites⟩ : ∃ valid invalidTxs prepared,
      (validateAndPrepare some ⟨[], [writeOne [97] [1] [5]]⟩).run newLockBasedTxMgr =
        .ok (valid, invalidTxs) prepared ∧ valid.transactions ≠ [] ∧
          ∀ env ∈ valid.transactions, ∀ w ∈ envWrites some env, w.1 = ([97], [1]) := by
    refine exists_prepared (p := fun out _ => out.1.transactions ≠ [] ∧
      ∀ env ∈ out.1.transactions, ∀ w ∈ envWrites some env, w.1 = ([97], [1])) ?_
    decide +kernel
  refine ⟨valid, invalidTxs, prepared, hprepare, hvalid, ?_⟩
  have hns : ∀ env ∈ valid.transactions, ∀ w ∈ envWrites some env, w.1.1 = [97] := by
    intro env henv w hw
    rw [hwrites env henv w hw]
  rw [isolated_iff hprepare hns]
  intro env henv w hw
  rw [hwrites env henv w hw]
  decide

/-- "a" with the key "b\0c" and "a\0b" with the key "c" have the same composite key. -/
theorem not_isolated_writeOne : ∃ valid invalidTxs prepared,
    (validateAndPrepare some ⟨[], [writeOne [97] [98, 0, 99] [5]]⟩).run newLockBasedTxMgr =
      .ok (valid, invalidTxs) prepared ∧
    (∀ env ∈ valid.transactions, ∀ w ∈ envWrites some env, w.1.1 = [97]) ∧
    ¬ Isolated newLockBasedTxMgr prepared [97, 0, 98] := by
  obtain ⟨valid, invalidTxs, prepared, hprepare, hwrites, hcommit⟩ :
      ∃ valid invalidTxs prepared, (validateAndPrepare some
        ⟨[], [writeOne [97] [98, 0, 99] [5]]⟩).run newLockBasedTxMgr =
          .ok (valid, invalidTxs) prepared ∧
        (∀ env ∈ valid.transactions, ∀ w ∈ envWrites some env, w.1.1 = [97]) ∧
        prepared.commit.toOption.all (fun committed =>
          getCommittedValueAndVersion committed.db [97, 0, 98] [99] = (some [5], 1)) := by
    refine exists_prepared (p := fun out prepared =>
      (∀ env ∈ out.1.transactions, ∀ w ∈ envWrites some env, w.1.1 = [97]) ∧
        prepared.commit.toOption.all (fun committed =>
          getCommittedValueAndVersion committed.db [97, 0, 98] [99] = (some [5], 1))) ?_
    decide +kernel
  refine ⟨valid, invalidTxs, prepared, hprepare, hwrites, ?_⟩
  rintro ⟨committed, hcommitted, hstate, -⟩
  rw [hcommitted] at hcommit
  have hvalue := of_decide_eq_true hcommit
  rw [hstate] at hvalue
  revert hvalue
  decide +kernel

end Fabric.Ledger
