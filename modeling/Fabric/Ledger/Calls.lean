import Fabric.Ledger.Versions

/-!
# Calls on a transaction manager

A transaction manager is called to prepare blocks, to commit them and to roll them back.
Whatever the block, preparing it leaves the database alone, and the update set holds the
writes of the transactions found valid so far.
-/

namespace Fabric.Ledger

open Fabric.Common List

variable {txRWSet : TxReadWriteSet} {w : Key × Option Bytes}

section Prepare

variable {τ : Type} (E : τ → Option Bytes)

/-- The writes of a transaction. -/
def envWrites (env : τ) : List (Key × Option Bytes) :=
  match readWriteSet E env with
  | .ok txRWSet => txRWSet.keyWrites
  | .error _ => []

variable {E} {db : DB}

/-- The manager after some transactions of a block were found valid. -/
def preparing (E : τ → Option Bytes) (db : DB) (valid : List τ) : LockBasedTxMgr :=
  ⟨db, some (updates db (valid.flatMap (envWrites E)))⟩

theorem preparing_addWriteSetToBatch {env : τ} (hrw : readWriteSet E env = .ok txRWSet)
    (valid : List τ) :
    (preparing E db valid).addWriteSetToBatch txRWSet = preparing E db (valid ++ [env]) := by
  have hwrites : envWrites E env = txRWSet.keyWrites := by rw [envWrites, hrw]
  rw [addWriteSetToBatch_eq, preparing, preparing, flatMap_append, flatMap_singleton,
    hwrites, updates_append]
  rfl

theorem prepareTx_updates {acc : List τ × List InvalidTransaction} {env : τ} :
    Ends (prepareTx E acc env) (preparing E db acc.1)
      (fun acc' txmgr => txmgr = preparing E db acc'.1 ∧ acc'.1 ⊆ acc.1 ++ [env])
      fun e txmgr => txmgr = preparing E db acc.1 ∧ readWriteSet E env = .error e := by
  unfold prepareTx
  cases hrw : readWriteSet E env with
  | error => simp
  | ok =>
    simp only [ends_bind, ends_get, ends_ite, ends_set, ends_pure, preparing_addWriteSetToBatch hrw]
    exact ⟨fun _ => ⟨trivial, List.Subset.refl _⟩, fun _ => ⟨trivial, subset_append_left _ _⟩⟩

/-- Preparing a block leaves the writes of the transactions found valid, also where it fails. -/
theorem validateAndPrepare_updates (block : Block τ) (txmgr : LockBasedTxMgr) :
    Ends (validateAndPrepare E block) txmgr
      (fun out txmgr' => txmgr' = preparing E txmgr.db out.1.transactions ∧
        out.1.transactions ⊆ block.transactions)
      fun e txmgr' => (∃ env ∈ block.transactions, readWriteSet E env = .error e) ∧
        ∃ valid, txmgr' = preparing E txmgr.db valid ∧ valid ⊆ block.transactions := by
  unfold validateAndPrepare
  rw [ends_bind, ends_modify, ends_bind]
  have hfold : Ends (block.transactions.foldlM (prepareTx E) ([], [])) (preparing E txmgr.db [])
      (fun acc txmgr' => txmgr' = preparing E txmgr.db acc.1 ∧ acc.1 ⊆ block.transactions)
      fun e txmgr' => (∃ env ∈ block.transactions, readWriteSet E env = .error e) ∧
        ∃ valid, txmgr' = preparing E txmgr.db valid ∧ valid ⊆ block.transactions := by
    apply Ends.foldlM
    · rintro env henv acc txmgr' ⟨rfl, hacc⟩
      apply prepareTx_updates.mono
      · rintro acc' txmgr' ⟨htxmgr, hsub⟩
        refine ⟨htxmgr, List.Subset.trans hsub ?_⟩
        simpa using ⟨hacc, henv⟩
      · rintro e txmgr' ⟨htxmgr, hmalformed⟩
        exact ⟨⟨env, henv, hmalformed⟩, acc.1, htxmgr, hacc⟩
    · exact ⟨rfl, nil_subset _⟩
  exact hfold.imp fun acc txmgr' hacc => hacc

end Prepare

/-- All namespaces are without separator. -/
def TxReadWriteSet.NulFree (txRWSet : TxReadWriteSet) : Prop :=
  ∀ nsRW ∈ txRWSet.nsRWs, Ledger.NulFree nsRW.nameSpace

theorem TxReadWriteSet.NulFree.keyReads (h : txRWSet.NulFree) {e : Key × ℕ}
    (he : e ∈ txRWSet.keyReads) : Ledger.NulFree e.1.1 := by
  obtain ⟨nsRW, hns, he⟩ := mem_flatMap.mp he
  obtain ⟨r, -, rfl⟩ := mem_map.mp he
  exact h nsRW hns

theorem TxReadWriteSet.NulFree.keyWrites (h : txRWSet.NulFree)
    (hw : w ∈ txRWSet.keyWrites) : Ledger.NulFree w.1.1 := by
  obtain ⟨nsRW, hns, hw⟩ := mem_flatMap.mp hw
  obtain ⟨r, -, rfl⟩ := mem_map.mp hw
  exact h nsRW hns


theorem envWrites_nulFree {τ : Type} {E : τ → Option Bytes} {env : τ}
    (h : ∀ txRWSet, readWriteSet E env = .ok txRWSet → txRWSet.NulFree) (hw : w ∈ envWrites E env) :
    NulFree w.1.1 := by
  rw [envWrites] at hw
  split at hw
  · exact (h _ ‹_›).keyWrites hw
  · cases hw

/-! ### Keys -/

/-- All keys are composite keys of namespaces without separator. -/
def Keyed {α : Type} (m : Std.ExtTreeMap Bytes α) : Prop :=
  ∀ key ∈ m, ∃ k : Key, NulFree k.1 ∧ k.composite = key

theorem keyed_empty {α : Type} : Keyed (∅ : Std.ExtTreeMap Bytes α) := by
  intro key hkey
  simp at hkey

theorem Keyed.updates {db : DB} {writes : List (Key × Option Bytes)}
    (h : ∀ w ∈ writes, NulFree w.1.1) : Keyed (updates db writes) := by
  intro key hkey
  obtain ⟨w, hw, heq⟩ := mem_updates.mp hkey
  exact ⟨w.1, h w hw, heq⟩

theorem Keyed.writeBatch {db : DB} {u : UpdateSet} (hdb : Keyed db) (hu : Keyed u) :
    Keyed (u.writeBatch db) := by
  intro key hkey
  rw [Std.ExtTreeMap.mem_iff_isSome_getElem?, u.getElem?_writeBatch] at hkey
  split at hkey
  · apply hu
    rw [Std.ExtTreeMap.mem_iff_isSome_getElem?, ‹u[key]? = _›]
    rfl
  · exact hdb key (Std.ExtTreeMap.mem_iff_isSome_getElem?.mpr hkey)

/-! ### Sequences of calls -/

/-- A call on a transaction manager. -/
inductive Call (τ : Type)
  | validateAndPrepare (block : Block τ)
  | commit
  | rollback

namespace LockBasedTxMgr

section Calls

variable {τ : Type} (E : τ → Option Bytes)

/-- What a call leaves, unless the process stops. -/
def call (txmgr : LockBasedTxMgr) : Call τ → Option LockBasedTxMgr
  | .validateAndPrepare block =>
    match (validateAndPrepare E block).run txmgr with
    | .ok _ txmgr' => some txmgr'
    | .error _ txmgr' => some txmgr'
  | .commit => txmgr.commit.toOption
  | .rollback => some txmgr.rollback

def calls (txmgr : LockBasedTxMgr) : List (Call τ) → Option LockBasedTxMgr
  | [] => some txmgr
  | c :: cs => (txmgr.call E c).bind fun txmgr' => txmgr'.calls cs

end Calls

end LockBasedTxMgr

/-- The read-write sets of the block use namespaces without separator. -/
def Call.NulFree {τ : Type} (E : τ → Option Bytes) : Call τ → Prop
  | .validateAndPrepare block => ∀ env ∈ block.transactions, ∀ txRWSet,
    readWriteSet E env = .ok txRWSet → txRWSet.NulFree
  | .commit => True
  | .rollback => True

namespace LockBasedTxMgr

variable {τ : Type} {E : τ → Option Bytes} {txmgr txmgr' : LockBasedTxMgr}

/-- The keys of the database and of the update set. -/
structure WellKeyed (txmgr : LockBasedTxMgr) : Prop where
  db : Keyed txmgr.db
  updateSet : ∀ u, txmgr.updateSet = some u → Keyed u

theorem wellKeyed_new : newLockBasedTxMgr.WellKeyed where
  db := keyed_empty
  updateSet := by simp [newLockBasedTxMgr]

theorem WellKeyed.call {c : Call τ} (h : txmgr.WellKeyed) (hc : c.NulFree E)
    (hcall : txmgr.call E c = some txmgr') : txmgr'.WellKeyed := by
  cases c with
  | validateAndPrepare block =>
    have hprep : ∀ valid, valid ⊆ block.transactions → (preparing E txmgr.db valid).WellKeyed := by
      intro valid hvalid
      refine ⟨h.db, fun u hu => ?_⟩
      cases hu
      apply Keyed.updates
      intro w hw
      obtain ⟨env, henv, hw⟩ := mem_flatMap.mp hw
      exact envWrites_nulFree (hc env (hvalid henv)) hw
    have hends := validateAndPrepare_updates (E := E) block txmgr
    simp only [LockBasedTxMgr.call] at hcall
    split at hcall
    · cases hcall
      obtain ⟨rfl, hsub⟩ := hends.of_run_eq_ok ‹_›
      exact hprep _ hsub
    · cases hcall
      obtain ⟨-, valid, rfl, hsub⟩ := hends.of_run_eq_error ‹_›
      exact hprep _ hsub
  | commit =>
    simp only [LockBasedTxMgr.call, commit] at hcall
    cases hu : txmgr.updateSet with
    | none => simp [hu, Except.toOption] at hcall
    | some u =>
      simp only [hu, Except.toOption, Option.some.injEq] at hcall
      rw [← hcall]
      exact ⟨h.db.writeBatch (h.updateSet u hu), fun u' hu' => by cases hu'⟩
  | rollback =>
    cases hcall
    exact ⟨h.db, fun u hu => by cases hu⟩

theorem wellKeyed_of_calls {cs : List (Call τ)} (h : txmgr.WellKeyed)
    (hcs : ∀ c ∈ cs, c.NulFree E) (hcalls : txmgr.calls E cs = some txmgr') :
    txmgr'.WellKeyed := by
  induction cs generalizing txmgr with
  | nil =>
    cases hcalls
    exact h
  | cons c _ ih =>
    obtain ⟨txmgr₁, hcall, hrest⟩ := Option.bind_eq_some_iff.mp hcalls
    exact ih (h.call (hcs c mem_cons_self) hcall)
      (fun c' hc' => hcs c' (mem_cons_of_mem c hc')) hrest

end LockBasedTxMgr

end Fabric.Ledger
