import Fabric.Ledger.Calls

/-!
# The ledger

`kv_ledger.go`: a ledger has a block store and a transaction manager, and keeps the block
that was prepared last until it is committed. The manager replaces the update set of the
block when the next preparation starts, the ledger replaces the block when it succeeds.
-/

namespace Fabric.Ledger

open Fabric.Common

structure KVLedger (τ : Type) where
  blockStore : List (Block τ)
  txtmgmt : LockBasedTxMgr
  pendingBlockToCommit : Option (Block τ)

def newKVLedger (τ : Type) : KVLedger τ := ⟨[], newLockBasedTxMgr, none⟩

/-- A call on a ledger. Adding a block to the block store may fail. -/
inductive LedgerCall (τ : Type)
  | removeInvalidTransactionsAndPrepare (block : Block τ)
  | commit (addBlock : Bool)
  | rollback
deriving DecidableEq

section Calls

variable {τ : Type} (E : τ → Option Bytes)

def KVLedger.removeInvalidTransactionsAndPrepare (l : KVLedger τ) (block : Block τ) : KVLedger τ :=
  match (validateAndPrepare E block).run l.txtmgmt with
  | .ok (validBlock, _) txtmgmt => { l with txtmgmt, pendingBlockToCommit := some validBlock }
  | .error _ txtmgmt => { l with txtmgmt }

/-- A block that cannot be added to the block store stays pending. -/
def KVLedger.commit (l : KVLedger τ) (addBlock : Bool) : Except Panic (KVLedger τ) :=
  match l.pendingBlockToCommit with
  | none => .error .nothingToCommit
  | some block =>
    if addBlock then do
      let txtmgmt ← l.txtmgmt.commit
      pure ⟨l.blockStore ++ [block], txtmgmt, none⟩
    else .ok l

def KVLedger.rollback (l : KVLedger τ) : KVLedger τ :=
  { l with txtmgmt := l.txtmgmt.rollback, pendingBlockToCommit := none }

/-- What a call leaves, unless the process stops. -/
def KVLedger.call (l : KVLedger τ) : LedgerCall τ → Option (KVLedger τ)
  | .removeInvalidTransactionsAndPrepare block =>
    some (l.removeInvalidTransactionsAndPrepare E block)
  | .commit addBlock => (l.commit addBlock).toOption
  | .rollback => some l.rollback

def KVLedger.run (l : KVLedger τ) : List (LedgerCall τ) → Option (KVLedger τ)
  | [] => some l
  | c :: cs => (l.call E c).bind fun l' => l'.run cs

/-- The writes of the transactions of a block. -/
def Block.writes (block : Block τ) : List (Key × Option Bytes) :=
  block.transactions.flatMap (envWrites E)

/-- A call changes the state by the write sets of the blocks it adds, and no others. -/
def Paired (l l' : KVLedger τ) : Prop :=
  ∃ blocks, l'.blockStore = l.blockStore ++ blocks ∧ ∀ ck,
    committed l'.txtmgmt.db ck = (replay (compositeWrites (blocks.flatMap (Block.writes E)))
        (fun ck => (committed l.txtmgmt.db ck).1) ck,
      ((committed l.txtmgmt.db ck).2 +
        writeCount (compositeWrites (blocks.flatMap (Block.writes E))) ck) % 2 ^ 64)

/-- One of the transactions is malformed. -/
def Block.malformed (block : Block τ) : Bool :=
  block.transactions.any fun env => !(readWriteSet E env).isOk

/-- Given whether the preparation before failed, whether it did so after a call. -/
def LedgerCall.failed (failed : Bool) : LedgerCall τ → Bool
  | .removeInvalidTransactionsAndPrepare block => block.malformed E
  | .commit _ => failed
  | .rollback => false

/-- No block is added between a failed preparation and the next one, or a rollback. -/
def CommitsPrepared (failed : Bool) : List (LedgerCall τ) → Prop
  | [] => True
  | c :: cs => (c = .commit true → failed = false) ∧ CommitsPrepared (c.failed E failed) cs

end Calls

section Invariant

variable {τ : Type} {E : τ → Option Bytes} {l l' : KVLedger τ} {c : LedgerCall τ} {failed : Bool}

/-- Unless the last preparation failed, the manager holds the writes of the pending block. -/
def KVLedger.Holds (E : τ → Option Bytes) (failed : Bool) (l : KVLedger τ) : Prop :=
  failed = false → ∀ block, l.pendingBlockToCommit = some block →
    l.txtmgmt.updateSet = some (updates l.txtmgmt.db (block.writes E))

theorem holds_new (failed : Bool) : (newKVLedger τ).Holds E failed := by
  intro _ block hblock
  cases hblock

theorem malformed_of_error {block : Block τ} {env : τ} {e : PrepareError}
    (henv : env ∈ block.transactions) (herror : readWriteSet E env = .error e) :
    block.malformed E = true := by
  apply List.any_eq_true.mpr
  exact ⟨env, henv, by rw [herror]; rfl⟩

theorem removeInvalidTransactionsAndPrepare_spec (l : KVLedger τ) (block : Block τ) :
    ∃ txtmgmt pending, l.removeInvalidTransactionsAndPrepare E block =
      ⟨l.blockStore, txtmgmt, pending⟩ ∧ txtmgmt.db = l.txtmgmt.db ∧
        KVLedger.Holds E (block.malformed E) ⟨l.blockStore, txtmgmt, pending⟩ := by
  have hends := validateAndPrepare_updates (E := E) block l.txtmgmt
  unfold KVLedger.removeInvalidTransactionsAndPrepare
  split
  · obtain ⟨rfl, -⟩ := hends.of_run_eq_ok ‹_›
    refine ⟨_, _, rfl, rfl, fun _ block' hblock' => ?_⟩
    cases hblock'
    rfl
  · obtain ⟨⟨env, henv, herror⟩, valid, rfl, -⟩ := hends.of_run_eq_error ‹_›
    refine ⟨_, _, rfl, rfl, fun hwell => ?_⟩
    rw [malformed_of_error henv herror] at hwell
    cases hwell

/-- A commit changes nothing, or adds the pending block and writes the update set. -/
theorem commit_spec {addBlock : Bool} (h : l.call E (.commit addBlock) = some l') :
    ∃ block, l.pendingBlockToCommit = some block ∧ (addBlock = false ∧ l' = l ∨
      addBlock = true ∧ ∃ u, l.txtmgmt.updateSet = some u ∧
        l' = ⟨l.blockStore ++ [block], ⟨u.writeBatch l.txtmgmt.db, none⟩, none⟩) := by
  simp only [KVLedger.call, KVLedger.commit] at h
  cases hpending : l.pendingBlockToCommit with
  | none => simp [hpending, Except.toOption] at h
  | some block =>
    refine ⟨block, rfl, ?_⟩
    cases addBlock with
    | false =>
      simp only [hpending, Bool.false_eq_true, if_false, Except.toOption, Option.some.injEq] at h
      exact .inl ⟨rfl, h.symm⟩
    | true =>
      cases hu : l.txtmgmt.updateSet with
      | none => simp [hpending, LockBasedTxMgr.commit, hu, Except.toOption] at h
      | some u =>
        simp only [hpending, if_true, LockBasedTxMgr.commit, hu, ok_bind, pure_eq_ok,
          Except.toOption, Option.some.injEq] at h
        exact .inr ⟨rfl, u, rfl, h.symm⟩

theorem KVLedger.Holds.call (h : l.Holds E failed)
    (hcall : l.call E c = some l') : l'.Holds E (c.failed E failed) := by
  cases c with
  | removeInvalidTransactionsAndPrepare block =>
    cases hcall
    obtain ⟨txtmgmt, pending, heq, -, hholds⟩ :=
      removeInvalidTransactionsAndPrepare_spec l block
    rw [heq]
    exact hholds
  | commit =>
    obtain ⟨block, -, ⟨-, rfl⟩ | ⟨-, u, -, rfl⟩⟩ := commit_spec hcall
    · exact h
    · intro _ block' hblock'
      cases hblock'
  | rollback =>
    cases hcall
    intro _ block hblock
    cases hblock

theorem paired_of_eq (hstore : l'.blockStore = l.blockStore)
    (hdb : l'.txtmgmt.db = l.txtmgmt.db) : Paired E l l' := by
  refine ⟨[], by simp [hstore], fun ck => ?_⟩
  rw [hdb]
  simp only [List.flatMap_nil, compositeWrites, List.map_nil, replay_nil, writeCount_nil,
    Nat.add_zero, Nat.mod_eq_of_lt (committed_lt _ ck)]

theorem KVLedger.Holds.paired (h : l.Holds E failed)
    (hc : c = .commit true → failed = false) (hcall : l.call E c = some l') : Paired E l l' := by
  cases c with
  | removeInvalidTransactionsAndPrepare block =>
    cases hcall
    obtain ⟨txtmgmt, pending, heq, hdb, -⟩ :=
      removeInvalidTransactionsAndPrepare_spec l block
    rw [heq]
    exact paired_of_eq rfl hdb
  | commit =>
    obtain ⟨block, hpending, ⟨-, rfl⟩ | ⟨rfl, u, hu, rfl⟩⟩ := commit_spec hcall
    · exact paired_of_eq rfl rfl
    · -- the update set is that of the pending block
      obtain rfl := Option.some.inj (hu.symm.trans (h (hc rfl) block hpending))
      refine ⟨[block], rfl, fun ck => ?_⟩
      rw [List.flatMap_singleton]
      exact committed_writeBatch _ _ ck
  | rollback =>
    cases hcall
    exact paired_of_eq rfl rfl

theorem KVLedger.Holds.paired_of_run {cs : List (LedgerCall τ)} {l₀ : KVLedger τ}
    (h : l₀.Holds E failed)
    (hcs : CommitsPrepared E failed (cs ++ [c])) (hrun : l₀.run E cs = some l)
    (hcall : l.call E c = some l') : Paired E l l' := by
  induction cs generalizing failed l₀ with
  | nil =>
    cases hrun
    exact h.paired hcs.1 hcall
  | cons _ _ ih =>
    obtain ⟨l₁, hcall', hrest⟩ := Option.bind_eq_some_iff.mp hrun
    exact ih (h.call hcall') hcs.2 hrest

/-- If no block is committed after a failed preparation, each call pairs block store and state. -/
theorem paired_of_commitsPrepared {cs : List (LedgerCall τ)} {c : LedgerCall τ}
    (hcs : CommitsPrepared E false (cs ++ [c])) (hrun : (newKVLedger τ).run E cs = some l)
    (hcall : l.call E c = some l') : Paired E l l' :=
  (holds_new false).paired_of_run hcs hrun hcall

end Invariant

/-- A block whose transaction can be applied, and one with a malformed second
transaction. -/
def goodBlock : Block Bytes :=
  ⟨[], [TxReadWriteSet.marshal ⟨[⟨[97], [], [newKVWrite [1] (some [5])]⟩]⟩]⟩

def badBlock : Block Bytes :=
  ⟨[], [TxReadWriteSet.marshal ⟨[⟨[97], [], [newKVWrite [2] (some [6])]⟩]⟩, [1]]⟩

def preparedAgain : List (LedgerCall Bytes) :=
  [.removeInvalidTransactionsAndPrepare goodBlock, .removeInvalidTransactionsAndPrepare badBlock,
    .removeInvalidTransactionsAndPrepare goodBlock]

/-- After a preparation that failed, the first block is prepared again and committed. -/
theorem paired_preparedAgain : ∃ l l' : KVLedger Bytes,
    (newKVLedger Bytes).run some preparedAgain = some l ∧
      l.call some (.commit true) = some l' ∧ l'.blockStore = [goodBlock] ∧ Paired some l l' := by
  obtain ⟨l, hrun, l', hcall, hstore⟩ : ∃ l, (newKVLedger Bytes).run some preparedAgain = some l ∧
      ∃ l', l.call some (.commit true) = some l' ∧ l'.blockStore = [goodBlock] := by
    decide +kernel
  have hcs : CommitsPrepared some false (preparedAgain ++ [.commit true]) := by
    refine ⟨?_, ?_, ?_, ?_, trivial⟩ <;> decide +kernel
  exact ⟨l, l', hrun, hcall, hstore, paired_of_commitsPrepared hcs hrun hcall⟩

def failedPrepare : List (LedgerCall Bytes) :=
  [.removeInvalidTransactionsAndPrepare goodBlock, .removeInvalidTransactionsAndPrepare badBlock]

/-- After a failed preparation the first block is committed with a write of the second one. -/
theorem not_paired_failedPrepare : ∃ l l' : KVLedger Bytes,
    (newKVLedger Bytes).run some failedPrepare = some l ∧
      l.call some (.commit true) = some l' ∧ ¬ Paired some l l' := by
  obtain ⟨l, hrun, hempty, l', hcall, hstore, hstate⟩ : ∃ l,
      (newKVLedger Bytes).run some failedPrepare = some l ∧ l.blockStore = [] ∧
        ∃ l', l.call some (.commit true) = some l' ∧ l'.blockStore = [goodBlock] ∧
          committed l'.txtmgmt.db (constructCompositeKey [97] [1]) = (none, 0) := by
    decide +kernel
  refine ⟨l, l', hrun, hcall, ?_⟩
  rintro ⟨blocks, hblocks, happlied⟩
  rw [hstore, hempty] at hblocks
  subst hblocks
  -- the block writes a value that is not there
  have hwrites : compositeWrites ([goodBlock].flatMap (Block.writes some)) =
      [(constructCompositeKey [97] [1], some [5])] := by decide +kernel
  have hvalue := congrArg Prod.fst (happlied (constructCompositeKey [97] [1]))
  rw [hstate, hwrites] at hvalue
  simp at hvalue

end Fabric.Ledger
