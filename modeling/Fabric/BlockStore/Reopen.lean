import Fabric.BlockStore.Recovery

/-!
# Reopening a store

A store is created, blocks are added, some of them in vain, and now and then the store is
closed and opened again. What is reported after that is read from the last block, which is
looked up by its number.
-/

namespace Fabric.BlockStore

open Fabric.Common

variable {hash : Bytes → Bytes} {attrs : List IndexableAttr} {blocks : List SizedBlock2}
  {mgr mgr' : BlockfileMgr} {l : Layout} {b : SizedBlock2}

/-! ### Stores -/

/-- The managers of a store under one configuration, with the blocks that were added. -/
inductive Written (hash : Bytes → Bytes) (attrs : List IndexableAttr) :
    List SizedBlock2 → BlockfileMgr → Prop
  | create {maxBlockfileSize : ℤ} {mgr : BlockfileMgr}
    (h : newBlockfileMgr hash maxBlockfileSize attrs .empty .empty = .ok mgr) :
    Written hash attrs [] mgr
  | add {blocks : List SizedBlock2} {mgr mgr' : BlockfileMgr} {b : SizedBlock2}
    {fault : Option Fault} (hmgr : Written hash attrs blocks mgr)
    (h : (addBlock hash b.block fault).run mgr = .ok () mgr') :
    Written hash attrs (blocks ++ [b]) mgr'
  | fail {blocks : List SizedBlock2} {mgr mgr' : BlockfileMgr} {b : SizedBlock2}
    {fault : Option Fault} {e : AddError} (hmgr : Written hash attrs blocks mgr)
    (h : (addBlock hash b.block fault).run mgr = .error e mgr') :
    Written hash attrs blocks mgr'
  | reopen {blocks : List SizedBlock2} {mgr mgr' : BlockfileMgr} {maxBlockfileSize : ℤ}
    (hmgr : Written hash attrs blocks mgr)
    (h : newBlockfileMgr hash maxBlockfileSize attrs mgr.disk mgr.db = .ok mgr') :
    Written hash attrs blocks mgr'

/-- The disk and the database of a store without blocks. -/
def freshDisk : Disk := ⟨[[]], by decide⟩

def freshDB : DB := DB.empty.put .blkMgrInfo (Layout.checkpoint ⟨[], []⟩).marshal

theorem stored_fresh (hash : Bytes → Bytes) (attrs : List IndexableAttr) :
    Stored hash attrs ⟨[], []⟩ [] 0 freshDisk freshDB where
  files := rfl
  torn := torn_nil
  saved := ⟨[], List.nil_prefix, DB.get_put_self⟩
  index := (Indexed.of_empty hash attrs).put _
  indexed_le := le_rfl

theorem newBlockfileMgr_empty (hash : Bytes → Bytes) (maxBlockfileSize : ℤ)
    (attrs : List IndexableAttr) : newBlockfileMgr hash maxBlockfileSize attrs .empty .empty =
      newBlockfileMgr hash maxBlockfileSize attrs freshDisk freshDB := by
  have hload : loadCurrentInfo .empty = .ok (⟨0, 0, 0⟩, freshDB) := rfl
  have hsync : syncCPInfoFromFS .empty ⟨0, 0, 0⟩ = .ok ⟨0, 0, 0⟩ := rfl
  have hopen : Disk.empty.openWriter 0 = some freshDisk := rfl
  obtain ⟨cpInfo, hload', hsync'⟩ := (stored_fresh hash attrs).exists_checkpoint
  have hopen' : freshDisk.openWriter 0 = some freshDisk := rfl
  have hcheckpoint : Layout.checkpoint ⟨[], []⟩ = ⟨0, 0, 0⟩ := rfl
  unfold newBlockfileMgr
  rw [hcheckpoint] at hsync'
  simp only [hload, hsync, hopen, hload', hsync', hopen', ok_bind]

theorem holds_create {maxBlockfileSize : ℤ}
    (h : newBlockfileMgr hash maxBlockfileSize attrs .empty .empty = .ok mgr) :
    Holds hash ⟨[], []⟩ mgr ∧ HoldsTxs ⟨[], []⟩ mgr ∧ mgr.attrs = attrs := by
  rw [newBlockfileMgr_empty] at h
  obtain ⟨-, hholds, hattrs, hdb⟩ := (stored_fresh hash attrs).holds h
  refine ⟨hholds, ?_, hattrs⟩
  unfold HoldsTxs
  rw [hdb, hattrs]
  exact (TxIndexed.of_empty attrs).put _

theorem exists_create (hash : Bytes → Bytes) (maxBlockfileSize : ℤ) (attrs : List IndexableAttr) :
    ∃ mgr, newBlockfileMgr hash maxBlockfileSize attrs .empty .empty = .ok mgr := by
  obtain ⟨mgr, hmgr, -⟩ := (stored_fresh hash attrs).exists_holds (.inl rfl) maxBlockfileSize
  exact ⟨mgr, (newBlockfileMgr_empty ..).trans hmgr⟩

theorem Holds.stored (h : Holds hash l mgr) :
    Stored hash mgr.attrs l [] l.blocks.length mgr.disk mgr.db where
  files := by rw [h.files, l.files_eq, List.append_nil]
  torn := torn_nil
  saved := h.saved
  index := by
    rw [← l.length_placed, List.take_length]
    exact h.indexed
  indexed_le := le_rfl

theorem Written.exists_holds (h : Written hash attrs blocks mgr) :
    ∃ l, Holds hash l mgr ∧ l.blocks = blocks ∧ mgr.attrs = attrs := by
  induction h with
  | create h =>
    obtain ⟨hholds, -, hattrs⟩ := holds_create h
    exact ⟨_, hholds, rfl, hattrs⟩
  | add _ h ih =>
    obtain ⟨l, hholds, rfl, rfl⟩ := ih
    obtain ⟨-, l', hl', hholds', hattrs, -⟩ := (addBlock_ends hholds).of_run_eq_ok h
    refine ⟨l'.add _, hholds', ?_, hattrs⟩
    rw [l'.blocks_add]
    rcases hl' with rfl | rfl
    · rfl
    · rw [Layout.blocks_roll]
  | fail _ h ih =>
    obtain ⟨l, hholds, rfl, rfl⟩ := ih
    obtain ⟨-, -, l', hl', hholds', hattrs, -⟩ := (addBlock_ends hholds).of_run_eq_error h
    refine ⟨l', hholds', ?_, hattrs⟩
    rcases hl' with rfl | rfl
    · rfl
    · rw [Layout.blocks_roll]
  | reopen _ h ih =>
    obtain ⟨l, hholds, rfl, rfl⟩ := ih
    obtain ⟨-, hholds', hattrs, -⟩ := hholds.stored.holds h
    exact ⟨l, hholds', rfl, hattrs⟩

/-- The store is opened again and reports the same. -/
def Reopens (hash : Bytes → Bytes) (maxBlockfileSize : ℤ) (attrs : List IndexableAttr)
    (mgr : BlockfileMgr) : Prop :=
  ∃ mgr', newBlockfileMgr hash maxBlockfileSize attrs mgr.disk mgr.db = .ok mgr' ∧
    mgr'.bcInfo = mgr.bcInfo

/-- A store with blocks is opened again if and only if the numbers of the blocks are indexed. -/
theorem reopens_iff (h : Written hash attrs blocks mgr) (hblocks : blocks ≠ [])
    (maxBlockfileSize : ℤ) :
    Reopens hash maxBlockfileSize attrs mgr ↔ .blockNum ∈ attrs := by
  obtain ⟨l, hholds, rfl, rfl⟩ := h.exists_holds
  constructor
  · rintro ⟨mgr', hmgr', -⟩
    exact ((hholds.stored.holds hmgr').1.resolve_left hblocks).1
  · intro hattr
    obtain ⟨mgr', hmgr', hholds', -⟩ :=
      hholds.stored.exists_holds (.inr ⟨hattr, .inl rfl⟩) maxBlockfileSize
    exact ⟨mgr', hmgr', hholds'.bcInfo.trans hholds.bcInfo.symm⟩

/-- Two blocks, each in a file of its own. -/
theorem exists_written_txBlocks (attrs : List IndexableAttr)
    (hattrs : attrs ∈ [[.blockNum], [.blockHash]]) : ∃ mgr mgr', Written id attrs [txBlock] mgr ∧
      (addBlock id txBlock.block none).run mgr = .ok () mgr' ∧ mgr'.disk.files.length = 2 := by
  have hrun : ∀ attrs ∈ [[.blockNum], [.blockHash]],
      (newBlockfileMgr id 10 attrs .empty .empty).toOption.any (fun mgr =>
        Ends (addBlock id txBlock.block none) mgr (fun _ mgr₁ =>
          Ends (addBlock id txBlock.block none) mgr₁ (fun _ mgr₂ => mgr₂.disk.files.length = 2)
            fun _ _ => False) fun _ _ => False) = true := by
    decide +kernel
  obtain ⟨mgr, hcreate⟩ := exists_create id 10 attrs
  have hends := hrun attrs hattrs
  rw [hcreate] at hends
  obtain ⟨_, mgr₁, hfirst, hsecond⟩ := (of_decide_eq_true hends).exists_run_eq_ok
  obtain ⟨_, mgr₂, hsecond, hfiles⟩ := hsecond.exists_run_eq_ok
  exact ⟨mgr₁, mgr₂, (Written.create hcreate).add hfirst, hsecond, hfiles⟩

theorem reopens_txBlocks : ∃ mgr, Written id [.blockNum] [txBlock, txBlock] mgr ∧
    mgr.disk.files.length = 2 ∧ Reopens id 10 [.blockNum] mgr := by
  obtain ⟨mgr, mgr', hmgr, hadd, hfiles⟩ := exists_written_txBlocks [.blockNum] (by decide)
  have hboth := hmgr.add hadd
  exact ⟨mgr', hboth, hfiles, (reopens_iff hboth (by simp) 10).mpr (List.mem_singleton_self _)⟩

/-- A store that indexes only the hashes of blocks is not opened again. -/
theorem not_reopens_txBlocks : ∃ mgr, Written id [.blockHash] [txBlock, txBlock] mgr ∧
    ¬ Reopens id 10 [.blockHash] mgr := by
  obtain ⟨mgr, mgr', hmgr, hadd, -⟩ := exists_written_txBlocks [.blockHash] (by decide)
  have hboth := hmgr.add hadd
  refine ⟨mgr', hboth, ?_⟩
  rintro ⟨mgr'', hmgr', -⟩
  obtain ⟨l, hholds, hblocks, hattrs⟩ := hboth.exists_holds
  have hstored := hholds.stored
  rw [hattrs] at hstored
  have hlast := (hstored.holds hmgr').1
  simp [FindsLast, hblocks] at hlast

end Fabric.BlockStore
