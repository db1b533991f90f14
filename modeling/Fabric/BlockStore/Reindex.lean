import Fabric.BlockStore.Session

/-!
# Blocks that are indexed again

When the manager is opened, the blocks from the last one on that is indexed are indexed
again. The places of their transactions are not those that `addBlock` computes: both
`syncIndex` and `indexBlock` add the offset of the block in its file.
-/

namespace Fabric.BlockStore

open Fabric.Common List FileLocPointer

variable {hash : Bytes → Bytes} {attrs : List IndexableAttr} {qs : List Placed} {x : Placed}
  {db : DB} {l : Layout} {mgr mgr' : BlockfileMgr} {b : SizedBlock2} {tx : Bytes}

/-! ### The places of transactions -/

/-- Where `syncIndex` finds a transaction. -/
def Placed.syncFlp (x : Placed) (t : ℕ) (tx : Bytes) : FileLocPointer :=
  ⟨x.file, int (uint64 (x.offset + (x.bytesOffset + x.block.block.txOffset t : ℕ))), tx.length⟩

theorem Placed.txFlp_syncInfo {n t : ℕ} (hx : x.offset + (frame x.block.bytes).length < 2 ^ 63)
    (ht : x.block.block.transactions[t]? = some tx) :
    ∃ i j, (x.syncInfo hash n (x.block.block.txOffsets.map Int.ofNat)).txOffsets[t]? = some i ∧
      (x.syncInfo hash n (x.block.block.txOffsets.map Int.ofNat)).txOffsets[t + 1]? = some j ∧
      (x.syncInfo hash n (x.block.block.txOffsets.map Int.ofNat)).txFlp i j = x.syncFlp t tx := by
  have hlt := (List.getElem?_eq_some_iff.mp ht).1
  have hframe := length_frame x.block.bytes
  have hoffset : ∀ t ≤ x.block.block.transactions.length,
      (x.syncInfo hash n (x.block.block.txOffsets.map Int.ofNat)).txOffsets[t]? =
        some ((x.bytesOffset + x.block.block.txOffset t)) := by
    intro t ht
    have hle := x.block.txOffset_le t
    have hint : int (uint64 (x.block.block.txOffset t + x.bytesOffset)) =
        ((x.bytesOffset + x.block.block.txOffset t)) := by
      rw [bytesOffset, int_uint64 (by omega) (by omega)]
      omega
    rw [syncInfo, List.getElem?_map, List.getElem?_map, Block2.txOffsets, getElem?_offsetsFrom ht]
    exact congrArg some hint
  have hsucc := Block2.txOffset_succ ht
  have hle := x.block.txOffset_le (t + 1)
  have hlength : int (uint64 (((x.bytesOffset + x.block.block.txOffset (t + 1) : ℕ)) -
      (x.bytesOffset + x.block.block.txOffset t : ℕ))) = tx.length := by
    rw [int_uint64 (by omega) (by omega)]
    omega
  refine ⟨_, _, hoffset t hlt.le, hoffset (t + 1) hlt, ?_⟩
  rw [BlockIdxInfo.txFlp, hlength]
  rfl

theorem reindex_txID_of_lt {n m t : ℕ} (hm : m < n) (hlt : n + qs.length < 2 ^ 64) :
    (reindex hash attrs n qs db).get (.txID m t) = db.get (.txID m t) := by
  induction qs generalizing n db with
  | nil => rfl
  | cons x _ ih =>
    rw [length_cons] at hlt
    rw [reindex]
    cases getTxOffsets (newSerBlock2 x.block.bytes) with
    | error => rfl
    | ok txOffsets =>
      rw [ih (by omega) (by omega)]
      have hnum : (x.syncInfo hash n txOffsets).blockNum = n := rfl
      refine indexBlock_txID_of_not (by omega) fun _ heq => ?_
      omega

theorem reindex_txID {n k t : ℕ} (hattr : .txID ∈ attrs)
    (hsmall : ∀ x ∈ qs, x.block.block.trailerOffset < 2 ^ 32)
    (hrange : ∀ x ∈ qs, x.offset + (frame x.block.bytes).length < 2 ^ 63)
    (hlt : n + qs.length < 2 ^ 64) (hx : qs[k]? = some x)
    (ht : x.block.block.transactions[t]? = some tx) :
    (reindex hash attrs n qs db).get (.txID (n + k) t) = some (x.syncFlp t tx).marshal := by
  induction qs generalizing n k db with
  | nil => cases hx
  | cons y qs ih =>
    rw [length_cons] at hlt
    rw [reindex, y.block.getTxOffsets_bytes (hsmall y mem_cons_self)]
    cases k with
    | zero =>
      cases hx
      have hlt' : n + 1 + qs.length < 2 ^ 64 := by omega
      have hplace : ∃ i j,
          (x.syncInfo hash n (x.block.block.txOffsets.map Int.ofNat)).txOffsets[t]? = some i ∧ _ :=
        x.txFlp_syncInfo (hrange x mem_cons_self) ht
      obtain ⟨i, j, hi, hj, hflp⟩ := hplace
      have hnum : (x.syncInfo hash n (x.block.block.txOffsets.map Int.ofNat)).blockNum <
          2 ^ 64 := by
        simp only [Placed.syncInfo]
        omega
      refine (reindex_txID_of_lt (Nat.lt_succ_self n) hlt').trans ?_
      rw [← hflp]
      exact indexBlock_txID hnum hattr hi hj
    | succ =>
      rw [← Nat.add_assoc, Nat.add_right_comm]
      exact ih (fun x hx => hsmall x (mem_cons_of_mem _ hx))
        (fun x hx => hrange x (mem_cons_of_mem _ hx)) (by omega) hx

/-! ### Chains -/

/-- The manager is opened, and finds blocks and transactions where the other one found them. -/
def LocatesAlike (hash : Bytes → Bytes) (maxBlockfileSize : ℤ) (blocks : List SizedBlock2)
    (mgr : BlockfileMgr) (db : DB) : Prop :=
  ∃ mgr', newBlockfileMgr hash maxBlockfileSize mgr.attrs mgr.disk db = .ok mgr' ∧
    ∀ i b, blocks[i]? = some b → getBlockLocByBlockNum mgr'.attrs mgr'.db (i + 1) =
        getBlockLocByBlockNum mgr.attrs mgr.db (i + 1) ∧
      getBlockLocByHash mgr'.attrs mgr'.db (hash b.bytes) =
        getBlockLocByHash mgr.attrs mgr.db (hash b.bytes) ∧
      ∀ t < b.block.transactions.length,
        getTxLoc mgr'.attrs mgr'.db (constructTxID (i + 1) t) =
          getTxLoc mgr.attrs mgr.db (constructTxID (i + 1) t) ∧
        ∀ (τ : Type) (extractTransaction : Bytes → Option τ),
          mgr'.retrieveTransactionByID extractTransaction (constructTxID (i + 1) t) =
            mgr.retrieveTransactionByID extractTransaction (constructTxID (i + 1) t)

/-- The blocks with transactions that are indexed again stand at the beginning of their files. -/
def StartFiles (blocks : List SizedBlock2) (indexed : ℕ) (mgr : BlockfileMgr) : Prop :=
  ∀ i b flp, indexed - 1 ≤ i → blocks[i]? = some b → b.block.transactions ≠ [] →
    getBlockLocByBlockNum mgr.attrs mgr.db (i + 1) = .ok flp → flp.offset = 0

/-- The index of the first blocks is left when the manager is closed; the rest is missing. -/
structure Lags (hash : Bytes → Bytes) (l : Layout) (indexed : ℕ) (mgr : BlockfileMgr) (db : DB) :
    Prop where
  holds : Holds hash l mgr
  holdsTxs : HoldsTxs l mgr
  stored : Stored hash mgr.attrs l [] indexed mgr.disk db
  txs : TxIndexed mgr.attrs (l.placed.take indexed) db
  attrs : ∀ attr, attr ∈ mgr.attrs
  small : ∀ b ∈ l.blocks, b.block.trailerOffset < 2 ^ 32

namespace Lags

variable {indexed : ℕ} {maxBlockfileSize : ℤ}

theorem exists_mgr (h : Lags hash l indexed mgr db) (maxBlockfileSize : ℤ) :
    ∃ mgr', newBlockfileMgr hash maxBlockfileSize mgr.attrs mgr.disk db = .ok mgr' := by
  have hlast : FindsLast mgr.attrs l indexed := by
    refine .inr ⟨h.attrs _, .inr fun x hx => ?_⟩
    have hblock : x.block ∈ l.blocks := by
      rw [← l.map_block_placed]
      exact mem_map_of_mem (mem_of_mem_drop hx)
    exact ⟨_, x.block.getTxOffsets_bytes (h.small _ hblock)⟩
  obtain ⟨mgr', hmgr', -⟩ := h.stored.exists_holds hlast maxBlockfileSize
  exact ⟨mgr', hmgr'⟩

variable {i t : ℕ} {tx : Bytes}

section

variable (h : Lags hash l indexed mgr db)
include h

theorem placed_lt (hx : l.placed[i]? = some x) : i + 1 < 2 ^ 64 := by
  have hlt := h.holds.placed_lt
  have hi := (List.getElem?_eq_some_iff.mp hx).1
  omega

theorem get_txID (hx : l.placed[i]? = some x) (ht : x.block.block.transactions[t]? = some tx) :
    mgr.db.get (.txID (i + 1) t) = some (marshal
      ⟨x.file, x.bytesOffset + x.block.block.txOffset t, tx.length⟩) := by
  rw [h.holdsTxs i t (h.placed_lt hx), if_pos (h.attrs _), hx, Option.bind_some, Placed.txFlp?, ht]
  rfl

theorem get_txID_reopened
    (hmgr' : newBlockfileMgr hash maxBlockfileSize mgr.attrs mgr.disk db = .ok mgr')
    (hx : l.placed[i]? = some x) (ht : x.block.block.transactions[t]? = some tx) :
    mgr'.db.get (.txID (i + 1) t) = if i < indexed - 1 then mgr.db.get (.txID (i + 1) t)
      else some (x.syncFlp t tx).marshal := by
  obtain ⟨-, -, -, hdb⟩ := h.stored.holds hmgr'
  have hlt := h.holds.placed_lt
  have hle := h.stored.indexed_le
  rw [← l.length_placed] at hle
  have hlt' : indexed - 1 + 1 + (l.placed.drop (indexed - 1)).length < 2 ^ 64 := by
    rw [length_drop]
    omega
  rw [hdb]
  split_ifs with hold
  · -- the block is not indexed again
    rw [reindex_txID_of_lt (by omega) hlt', h.txs i t (h.placed_lt hx),
      h.holdsTxs i t (h.placed_lt hx), List.getElem?_take_of_lt (by omega)]
  · obtain ⟨k, rfl⟩ := Nat.exists_eq_add_of_le (Nat.not_lt.mp hold)
    have hdrop : (l.placed.drop (indexed - 1))[k]? = some x := by rw [List.getElem?_drop, hx]
    rw [Nat.add_right_comm]
    refine reindex_txID (h.attrs _) ?_ ?_ hlt' hdrop ht
    · intro y hy
      apply h.small
      rw [← l.map_block_placed]
      exact mem_map_of_mem (mem_of_mem_drop hy)
    · intro y hy
      exact (Placed.flp_inRange h.holds.files (mem_of_mem_drop hy)).2

theorem syncFlp_eq_iff (hx : l.placed[i]? = some x) (t : ℕ) (tx : Bytes) :
    unmarshal (x.syncFlp t tx).marshal = unmarshal
      (marshal ⟨x.file, x.bytesOffset + x.block.block.txOffset t, tx.length⟩) ↔
      x.offset = 0 := by
  have hmem := mem_of_getElem? hx
  obtain ⟨-, hrange⟩ := Placed.flp_inRange h.holds.files hmem
  rw [unmarshal_marshal_eq, unmarshal_marshal_eq, Placed.syncFlp]
  simp only [mk.injEq, and_true, true_and]
  unfold int uint64
  constructor
  · intro heq
    split_ifs at heq <;> omega
  · intro hzero
    split_ifs <;> omega

/-- Everything is found where it was if and only if the blocks that are indexed again stand at
the beginning of their files. -/
theorem startFiles_iff (maxBlockfileSize : ℤ) :
    LocatesAlike hash maxBlockfileSize l.blocks mgr db ↔ StartFiles l.blocks indexed mgr := by
  constructor
  · rintro ⟨mgr', hmgr', halike⟩ i b flp hi hb hne hflp
    obtain ⟨-, -, hattrs, -⟩ := h.stored.holds hmgr'
    obtain ⟨-, -, htxs⟩ := halike i b hb
    obtain ⟨x, hx, rfl⟩ := Holds.exists_placed hb
    rw [h.holds.getBlockLocByBlockNum (h.attrs _) hx, Except.ok.injEq] at hflp
    obtain ⟨tx, txs, hcons⟩ := exists_cons_of_ne_nil hne
    have ht : x.block.block.transactions[0]? = some tx := by rw [hcons, List.getElem?_cons_zero]
    -- the first transaction shows it
    obtain ⟨htx, -⟩ := htxs 0 (length_pos_iff.mpr hne)
    have hget := h.get_txID_reopened hmgr' hx ht
    rw [if_neg (by omega)] at hget
    have hnew : getTxLoc mgr.attrs mgr'.db (constructTxID (i + 1) 0) = _ :=
      getLoc_of_get (h.attrs _) hget
    have hold : getTxLoc mgr.attrs mgr.db (constructTxID (i + 1) 0) = _ :=
      getLoc_of_get (h.attrs _) (h.get_txID hx ht)
    rw [hattrs, hnew, hold] at htx
    have hzero := (h.syncFlp_eq_iff hx 0 tx).mp (Except.ok.inj htx)
    rw [← hflp, Placed.flp, hzero]
    rfl
  · intro hstart
    obtain ⟨mgr', hmgr'⟩ := h.exists_mgr maxBlockfileSize
    obtain ⟨-, hholds', hattrs, -⟩ := h.stored.holds hmgr'
    have hdisk := Disk.ext_files (hholds'.files.trans h.holds.files.symm)
    refine ⟨mgr', hmgr', fun i b hb => ?_⟩
    obtain ⟨x, hx, rfl⟩ := Holds.exists_placed hb
    have hnum : mgr'.db.get (.blockNum (i + 1)) = mgr.db.get (.blockNum (i + 1)) := by
      rw [hholds'.indexed.blockNum i (h.placed_lt hx), h.holds.indexed.blockNum i (h.placed_lt hx),
        hattrs]
    have hhash : mgr'.db.get (.blockHash (hash x.block.bytes)) =
        mgr.db.get (.blockHash (hash x.block.bytes)) := by
      rw [hholds'.indexed.blockHash, h.holds.indexed.blockHash, hattrs]
    rw [hattrs]
    refine ⟨getLoc_congr hnum, getLoc_congr hhash, fun t ht => ?_⟩
    obtain ⟨tx, htx⟩ : ∃ tx, x.block.block.transactions[t]? = some tx :=
      ⟨_, List.getElem?_eq_getElem ht⟩
    have hget := h.get_txID_reopened hmgr' hx htx
    have hloc : getTxLoc mgr.attrs mgr'.db (constructTxID (i + 1) t) =
        getTxLoc mgr.attrs mgr.db (constructTxID (i + 1) t) := by
      by_cases hi : i < indexed - 1
      · rw [if_pos hi] at hget
        exact getLoc_congr hget
      · rw [if_neg hi] at hget
        have hoffset := hstart i x.block x.flp (Nat.not_lt.mp hi) hb
          (ne_nil_of_length_pos (Nat.zero_lt_of_lt ht))
          (h.holds.getBlockLocByBlockNum (h.attrs _) hx)
        refine (getLoc_of_get (h.attrs _) hget).trans ?_
        refine Eq.trans ?_ (getLoc_of_get (h.attrs _) (h.get_txID hx htx)).symm
        exact congrArg Except.ok ((h.syncFlp_eq_iff hx t tx).mpr (Int.ofNat_eq_zero.mp hoffset))
    refine ⟨hloc, fun τ extractTransaction => ?_⟩
    rw [BlockfileMgr.retrieveTransactionByID, BlockfileMgr.retrieveTransactionByID, hattrs, hloc,
      hdisk]

end

end Lags

section Chain

variable {bs bs' : List SizedBlock2} {mgr₀ mgr₁ mgr₂ : BlockfileMgr} {maxBlockfileSize : ℤ}

theorem exists_lags (hcreate : newBlockfileMgr hash maxBlockfileSize attrs .empty .empty = .ok mgr₀)
    (hindexed : (addBlocks hash bs).run mgr₀ = .ok () mgr₁)
    (hmissing : (addBlocks hash bs').run mgr₁ = .ok () mgr₂) (hattrs : ∀ attr, attr ∈ attrs)
    (hsmall : ∀ b ∈ bs ++ bs', b.block.trailerOffset < 2 ^ 32) :
    ∃ l, l.blocks = bs ++ bs' ∧
      Lags hash l bs.length mgr₂ (mgr₁.db.put .blkMgrInfo mgr₂.cpInfo.marshal) := by
  obtain ⟨hholds₀, htxs₀, rfl⟩ := holds_create hcreate
  obtain ⟨l₁, hholds₁, htxs₁, hattrs₁, -, hblocks₁, -⟩ :=
    (addBlocks_ends hholds₀ htxs₀).of_run_eq_ok hindexed
  obtain ⟨l, hholds, htxs, hattrs₂, hpre, hblocks, -⟩ :=
    (addBlocks_ends hholds₁ htxs₁).of_run_eq_ok hmissing
  have hblocks₁ := hblocks₁.trans (nil_append _)
  have hplaced : l₁.placed = l.placed.take bs.length := by
    rw [prefix_iff_eq_take.mp hpre, l₁.length_placed, hblocks₁]
  rw [hblocks₁] at hblocks
  refine ⟨l, hblocks, hholds, htxs, ?_, ?_, ?_, by rwa [hblocks]⟩
  · refine ⟨by rw [hholds.files, l.files_eq, append_nil], torn_nil,
      ⟨l.last, prefix_rfl, ?_⟩, ?_, by simp [hblocks]⟩
    · rw [hholds.cpInfo]
      exact DB.get_put_self
    · rw [← hplaced, hattrs₂]
      exact hholds₁.indexed.put _
  · rw [← hplaced, hattrs₂]
    exact TxIndexed.put htxs₁ _
  · rw [hattrs₂, hattrs₁]
    exact hattrs

/-- When a store whose index lacks some of the last blocks, or none, is opened again, everything is
found where it was exactly if the blocks that are indexed again stand at the beginning of their
files, as far as they have transactions. -/
theorem locatesAlike_iff
    (hcreate : newBlockfileMgr hash maxBlockfileSize attrs .empty .empty = .ok mgr₀)
    (hindexed : (addBlocks hash bs).run mgr₀ = .ok () mgr₁)
    (hmissing : (addBlocks hash bs').run mgr₁ = .ok () mgr₂) (hattrs : ∀ attr, attr ∈ attrs)
    (hsmall : ∀ b ∈ bs ++ bs', b.block.trailerOffset < 2 ^ 32) (maxBlockfileSize' : ℤ) :
    LocatesAlike hash maxBlockfileSize' (bs ++ bs') mgr₂
        (mgr₁.db.put .blkMgrInfo mgr₂.cpInfo.marshal) ↔
      StartFiles (bs ++ bs') bs.length mgr₂ := by
  obtain ⟨l, hblocks, hlags⟩ := exists_lags hcreate hindexed hmissing hattrs hsmall
  rw [← hblocks]
  exact hlags.startFiles_iff maxBlockfileSize'

end Chain

/-- A new store to which blocks are added. -/
def storeOf (hash : Bytes → Bytes) (maxBlockfileSize : ℤ) (attrs : List IndexableAttr)
    (bs : List SizedBlock2) : Option BlockfileMgr :=
  match newBlockfileMgr hash maxBlockfileSize attrs .empty .empty with
  | .error _ => none
  | .ok mgr =>
    match (addBlocks hash bs).run mgr with
    | .ok _ mgr' => some mgr'
    | .error _ _ => none

theorem exists_of_storeOf {bs : List SizedBlock2} {maxBlockfileSize : ℤ}
    (h : storeOf hash maxBlockfileSize attrs bs = some mgr) :
    ∃ mgr₀, newBlockfileMgr hash maxBlockfileSize attrs .empty .empty = .ok mgr₀ ∧
      (addBlocks hash bs).run mgr₀ = .ok () mgr := by
  unfold storeOf at h
  split at h
  · cases h
  · split at h
    · cases h
      exact ⟨_, ‹_›, ‹_›⟩
    · cases h

/-- The second block, in a file of its own, is indexed when the store is opened again. -/
theorem locatesAlike_txBlock : ∃ mgr₀ mgr₁ mgr₂,
    newBlockfileMgr id 10 allAttrs .empty .empty = .ok mgr₀ ∧
      (addBlocks id [txBlock]).run mgr₀ = .ok () mgr₁ ∧
      (addBlocks id [txBlock]).run mgr₁ = .ok () mgr₂ ∧ mgr₂.disk.files.length = 2 ∧
      LocatesAlike id 10 [txBlock, txBlock] mgr₂
        (mgr₁.db.put .blkMgrInfo mgr₂.cpInfo.marshal) := by
  have hstore : ∃ mgr₁, storeOf id 10 allAttrs [txBlock] = some mgr₁ ∧
      Ends (addBlocks id [txBlock]) mgr₁ (fun _ mgr₂ => mgr₂.disk.files.length = 2 ∧
        ∀ i < 2, getBlockLocByBlockNum mgr₂.attrs mgr₂.db (i + 1) = .ok ⟨i, 0, 0⟩)
        fun _ _ => False := by decide +kernel
  obtain ⟨mgr₁, hstore, hends⟩ := hstore
  obtain ⟨mgr₀, hcreate, hfirst⟩ := exists_of_storeOf hstore
  obtain ⟨_, mgr₂, hsecond, hfiles, hloc⟩ := hends.exists_run_eq_ok
  refine ⟨mgr₀, mgr₁, mgr₂, hcreate, hfirst, hsecond, hfiles, ?_⟩
  have hsmall : ∀ b ∈ [txBlock] ++ [txBlock], b.block.trailerOffset < 2 ^ 32 := by decide +kernel
  refine (locatesAlike_iff hcreate hfirst hsecond mem_allAttrs hsmall 10).mpr ?_
  intro i b flp _ hb _ hflp
  rw [hloc i (List.getElem?_eq_some_iff.mp hb).1, Except.ok.injEq] at hflp
  rw [← hflp]

/-- The second block is indexed again, and its transaction is not found where it was. -/
theorem not_locatesAlike_txBlocks : ∃ mgr₀ mgr₁,
    newBlockfileMgr id 1000 allAttrs .empty .empty = .ok mgr₀ ∧
      (addBlocks id [txBlock, txBlock]).run mgr₀ = .ok () mgr₁ ∧
      ¬ LocatesAlike id 1000 [txBlock, txBlock] mgr₁
        (mgr₁.db.put .blkMgrInfo mgr₁.cpInfo.marshal) := by
  have hstore : ∃ mgr₁, storeOf id 1000 allAttrs [txBlock, txBlock] = some mgr₁ ∧
      getBlockLocByBlockNum mgr₁.attrs mgr₁.db 2 = .ok ⟨0, 9, 0⟩ := by
    decide +kernel
  obtain ⟨mgr₁, hstore, hloc⟩ := hstore
  obtain ⟨mgr₀, hcreate, hrun⟩ := exists_of_storeOf hstore
  have hnone : (addBlocks id []).run mgr₁ = .ok () mgr₁ := rfl
  have hsmall : ∀ b ∈ [txBlock, txBlock] ++ [], b.block.trailerOffset < 2 ^ 32 := by decide +kernel
  obtain ⟨l, hblocks, hlags⟩ := exists_lags hcreate hrun hnone mem_allAttrs hsmall
  refine ⟨mgr₀, mgr₁, hcreate, hrun, fun halike => ?_⟩
  have hstart := (hlags.startFiles_iff 1000).mp (by rwa [hblocks])
  rw [hblocks] at hstart
  exact absurd (hstart 1 txBlock _ (by simp) rfl (by decide) hloc) (by decide)

end Fabric.BlockStore
