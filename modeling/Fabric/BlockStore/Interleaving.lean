import Fabric.BlockStore.Iterators
import Fabric.BlockStore.Locks

/-!
# Interleavings of a writer and iterators

A writer adds blocks while iterators read them, in any interleaving of their operations. Every
iterator returns the blocks in order, and a call of `Next` ends once its block is published and
the lock of the condition is free.
-/

namespace Fabric.BlockStore

open Fabric.Common List Option Fabric.BlockStore.System Layout

variable {hash : Bytes → Bytes} {attrs : List IndexableAttr} {l l' v : Layout}
  {mgr mgr' : BlockfileMgr} {x : Placed} {b : SizedBlock2} {σ : System} {v : Layout}
  {pc : WriterPC} {disk : Disk}

/-! ### The writer alone -/

/-- The writer goes from one state to another, and nothing happens in between. -/
def System.Writes (hash : Bytes → Bytes) (σ σ' : System) : Prop :=
  ∃ n, σ.run hash (List.replicate n .write) = some σ'

theorem System.Writes.refl (σ : System) : σ.Writes hash σ := ⟨0, rfl⟩

theorem System.Writes.head {σ σ₁ σ' : System} (hpanicked : σ.panicked = false)
    (hstep : σ.stepWriter hash = some σ₁) (h : σ₁.Writes hash σ') : σ.Writes hash σ' := by
  obtain ⟨n, hrun⟩ := h
  refine ⟨n + 1, ?_⟩
  rw [replicate_succ, run, foldlM_cons, step, hpanicked]
  exact (congrArg (· >>= _) hstep).trans hrun

/-- A process without iterators in which the writer is at some point. -/
def System.alone (mgr : BlockfileMgr) (writer : WriterPC) : System :=
  ⟨mgr, none, writer, fun _ => none, false⟩

theorem ends_writeBlock : Ends (writeBlock hash b.block (b.block.txOffsets.map Int.ofNat) none) mgr
    (fun _ mgr' => (alone mgr (.appendLength b)).Writes hash (.alone mgr' .idle))
    (fun _ _ => True) := by
  unfold writeBlock orTruncate append saveCurrentInfo finishBlock truncateFile
  simp only [ends_bind, ends_get, ends_tryCatch, bind_none, getD_none, take_length]
  cases hlength : mgr.disk.append mgr.currentFileWriter (encodeVarint b.block.bytes.length) with
  | none => simp only [ends_throw, ends_modify]
  | some disk =>
    simp only [ends_set, ends_bind, isSome_none, Bool.false_eq_true, ↓reduceIte, ends_pure]
    cases hbytes : disk.append mgr.currentFileWriter b.block.bytes with
    | none => simp only [ends_throw, ends_modify]
    | some =>
      refine .head rfl (congrArg (Option.map _) hlength) ?_
      refine .head rfl (congrArg (Option.map _) hbytes) ?_
      -- the checkpoint is saved, the block indexed, and both are published
      iterate 5 refine .head rfl rfl ?_
      exact .refl _

/-- A call of `addBlock` that succeeds is a run of the writer alone. -/
theorem runs_addBlock (hadd : (addBlock hash b.block none).run mgr = .ok () mgr') :
    ∃ n, (start mgr).run hash (.addBlock b :: List.replicate n .write) = some (start mgr') := by
  have hoffsets : getTxOffsets (constructSerBlock2 b.block) =
    .ok (b.block.txOffsets.map Int.ofNat) := rfl
  have hends : Ends (addBlock hash b.block none) mgr
      (fun _ mgr' => ∃ σ, (start mgr).beginBlock b = some σ ∧
        σ.Writes hash (start mgr')) (fun _ _ => True) := by
    unfold addBlock
    simp only [hoffsets, ends_bind, ends_ite]
    constructor
    · intro hsize
      unfold moveToNextFile
      simp only [ends_bind, ends_get]
      cases hopen : mgr.disk.openWriter (mgr.cpInfo.latestFileChunkSuffixNum + 1) with
      | none => simp only [ends_throw]
      | some =>
        refine ends_writeBlock.imp fun _ mgr' hwrites => ⟨.alone mgr (.openNext b), ?_, ?_⟩
        · exact (if_pos rfl).trans (if_pos hsize)
        · refine .head rfl (congrArg (Option.map _) hopen) ?_
          iterate 3 refine .head rfl rfl ?_
          exact hwrites
    · intro hsize
      refine ends_writeBlock.imp fun _ mgr' hwrites => ⟨.alone mgr (.appendLength b), ?_, hwrites⟩
      exact (if_pos rfl).trans (if_neg hsize)
  obtain ⟨σ, hbegin, n, hrun⟩ := hends.of_run_eq_ok hadd
  exact ⟨n, (congrArg (· >>= _) hbegin).trans hrun⟩

/-- The second block goes into a new file. -/
theorem runs_addBlock_txBlock : ∃ mgr mgr', Written id [.blockNum] [txBlock] mgr ∧
    (addBlock id txBlock.block none).run mgr = .ok () mgr' ∧ mgr'.disk.files.length = 2 ∧
      ∃ n, (start mgr).run id (.addBlock txBlock :: List.replicate n .write) =
        some (start mgr') := by
  obtain ⟨mgr, mgr', hmgr, hadd, hfiles⟩ := exists_written_txBlocks [.blockNum] (by decide)
  exact ⟨mgr, mgr', hmgr, hadd, hfiles, runs_addBlock hadd⟩

/-! ### The writer -/

theorem getD_prefix_concat {files : List Bytes} {file more : Bytes} (n : ℕ) :
    (files ++ [file]).getD n [] <+: (files ++ [file ++ more]).getD n [] := by
  by_cases hn : n < files.length
  · rw [getD_append _ _ _ _ hn, getD_append _ _ _ _ hn]
  · rw [getD_append_right _ _ _ _ (Nat.not_lt.mp hn), getD_append_right _ _ _ _ (Nat.not_lt.mp hn)]
    cases n - files.length with
    | zero => exact prefix_append _ _
    | succ => exact nil_prefix

theorem getD_prefix_append {files more : List Bytes} (n : ℕ) :
    files.getD n [] <+: (files ++ more).getD n [] := by
  by_cases hn : n < files.length
  · rw [getD_append _ _ _ _ hn]
  · rw [getD_eq_default _ _ (Nat.not_lt.mp hn)]
    exact nil_prefix

section

variable (hpublished : mgr.cpInfo.lastBlockNumber ≤ mgr'.cpInfo.lastBlockNumber)
  (hfiles : ∀ n, mgr.disk.files.getD n [] <+: mgr'.disk.files.getD n [])
include hpublished hfiles

theorem Extends.of_files : Extends l mgr l mgr' :=
  ⟨hpublished, hfiles, prefix_rfl, fun _ _ _ _ => id⟩

theorem Extends.of_roll : Extends l mgr l.roll mgr' := by
  refine ⟨hpublished, hfiles, ?_, fun fileNum offset k _ hstands => ?_⟩
  · rw [l.placed_roll]
  · rw [l.placed_roll, l.files_roll]
    exact hstands.roll

theorem Extends.of_add : Extends l mgr (l.add b) mgr' := by
  refine ⟨hpublished, hfiles, ?_, fun fileNum offset k hk hstands => ?_⟩
  · rw [l.placed_add]
    exact prefix_append _ _
  · rw [l.files_eq] at hstands
    rw [l.placed_add, drop_append_of_le_length hk, l.files_add]
    have hadd := hstands.add (b := b)
    rwa [length_map] at hadd

end

/-- The blocks while the writer is at work, and what differs from a manager that holds them. -/
inductive Phase (hash : Bytes → Bytes) : WriterPC → Layout → Layout → BlockfileMgr → Prop
  | idle {l : Layout} {mgr : BlockfileMgr} (h : Holds hash l mgr) : Phase hash .idle l l mgr
  | openNext {l : Layout} {mgr : BlockfileMgr} {b : SizedBlock2} (h : Holds hash l mgr) :
    Phase hash (.openNext b) l l mgr
  | saveNext {l : Layout} {mgr : BlockfileMgr} {b : SizedBlock2} {disk : Disk}
    (h : Holds hash l mgr) (hdisk : disk.files = l.roll.files) :
    Phase hash (.saveNext b) l l.roll { mgr with disk }
  | lockNext {l : Layout} {mgr : BlockfileMgr} {b : SizedBlock2} {disk : Disk}
    (h : Holds hash l mgr) (hdisk : disk.files = l.roll.files) :
    Phase hash (.lockNext b) l l.roll { mgr with
      disk
      db := mgr.db.put .blkMgrInfo l.roll.checkpoint.marshal
      currentFileWriter := l.roll.front.length }
  | publishNext {l : Layout} {mgr : BlockfileMgr} {b : SizedBlock2} {disk : Disk}
    (h : Holds hash l mgr) (hdisk : disk.files = l.roll.files) :
    Phase hash (.publishNext b) l l.roll { mgr with
      disk
      db := mgr.db.put .blkMgrInfo l.roll.checkpoint.marshal
      currentFileWriter := l.roll.front.length }
  | appendLength {l : Layout} {mgr : BlockfileMgr} {b : SizedBlock2} (h : Holds hash l mgr) :
    Phase hash (.appendLength b) l l mgr
  | appendBlock {l : Layout} {mgr : BlockfileMgr} {b : SizedBlock2} {disk : Disk}
    (h : Holds hash l mgr) (hdisk : disk.files =
      l.front.map chunkBytes ++ [chunkBytes l.last ++ encodeVarint b.bytes.length]) :
    Phase hash (.appendBlock b) l l { mgr with disk }
  | save {l : Layout} {mgr : BlockfileMgr} {b : SizedBlock2} {disk : Disk}
    (h : Holds hash l mgr) (hdisk : disk.files = (l.add b).files) :
    Phase hash (.save b) l (l.add b) { mgr with disk }
  | index {l : Layout} {mgr : BlockfileMgr} {b : SizedBlock2} {disk : Disk}
    (h : Holds hash l mgr) (hdisk : disk.files = (l.add b).files) :
    Phase hash (.index b) l (l.add b) { mgr with
      disk
      db := mgr.db.put .blkMgrInfo (l.add b).checkpoint.marshal }
  | lockCond {l : Layout} {mgr : BlockfileMgr} {b : SizedBlock2} {disk : Disk}
    (h : Holds hash l mgr) (hdisk : disk.files = (l.add b).files) :
    Phase hash (.lockCond b) l (l.add b) { mgr with
      disk
      db := indexBlock mgr.attrs ((l.next b).info hash (l.placed.length + 1))
        (mgr.db.put .blkMgrInfo (l.add b).checkpoint.marshal) }
  | publish {l : Layout} {mgr : BlockfileMgr} {b : SizedBlock2} {disk : Disk}
    (h : Holds hash l mgr) (hdisk : disk.files = (l.add b).files) :
    Phase hash (.publish b) l (l.add b) { mgr with
      disk
      db := indexBlock mgr.attrs ((l.next b).info hash (l.placed.length + 1))
        (mgr.db.put .blkMgrInfo (l.add b).checkpoint.marshal) }
  | report {l : Layout} {mgr : BlockfileMgr} {b : SizedBlock2} {disk : Disk}
    (h : Holds hash l mgr) (hdisk : disk.files = (l.add b).files) :
    Phase hash (.report b) l (l.add b) { mgr with
      disk
      db := indexBlock mgr.attrs ((l.next b).info hash (l.placed.length + 1))
        (mgr.db.put .blkMgrInfo (l.add b).checkpoint.marshal)
      cpInfo := (l.add b).checkpoint }

/-- The block that the writer is adding. -/
def WriterPC.pending : WriterPC → List SizedBlock2
  | .idle => []
  | .openNext b | .saveNext b | .lockNext b | .publishNext b | .appendLength b | .appendBlock b
  | .save b | .index b | .lockCond b | .publish b | .report b => [b]

theorem shows_of_indexed
    (hfiles : ∃ tail, mgr.disk.files = v.front.map chunkBytes ++ [chunkBytes v.last ++ tail])
    (hindexed : Indexed hash mgr.attrs l.placed mgr.db) (hattr : .blockNum ∈ mgr.attrs)
    (hdisk : disk.files = l.files) (hplaced : l.placed <+: v.placed)
    (hlast : mgr.cpInfo.lastBlockNumber ≤ l.placed.length) : Shows v mgr := by
  refine ⟨hfiles, hlast.trans hplaced.length_le, ?_, _, getLoc_of_get_none hattr hindexed.noBlock⟩
  intro i x hi hx
  have hx' : l.placed[i]? = some x := by
    obtain ⟨qs, hqs⟩ := hplaced
    rwa [← hqs, List.getElem?_append_left (hi.trans_le hlast)] at hx
  have hlt := placed_lt hdisk
  exact hindexed.getBlockLocByBlockNum hattr (by omega) hx'
    (Placed.flp_inRange hdisk (mem_of_getElem? hx')).1

theorem Layout.lastBlockNumber_checkpoint (l : Layout) :
    l.checkpoint.lastBlockNumber = l.placed.length := l.length_placed.symm

theorem Holds.lastBlockNumber (h : Holds hash l mgr) :
    mgr.cpInfo.lastBlockNumber = l.placed.length := by
  rw [h.cpInfo, l.lastBlockNumber_checkpoint]

theorem exists_tail (hdisk : disk.files = l.files) :
    ∃ tail, disk.files = l.front.map chunkBytes ++ [chunkBytes l.last ++ tail] :=
  ⟨[], by rw [hdisk, l.files_eq, append_nil]⟩

theorem placed_prefix_roll : l.placed <+: l.roll.placed := by rw [l.placed_roll]

theorem placed_prefix_add : l.placed <+: (l.add b).placed := by
  rw [l.placed_add]
  exact prefix_append _ _

theorem Phase.shows (h : Phase hash pc l v mgr) (hattr : .blockNum ∈ mgr.attrs) : Shows v mgr := by
  cases h with
  | idle h | openNext h | appendLength h =>
    exact shows_of_indexed (exists_tail h.files) h.indexed hattr h.files prefix_rfl
      h.lastBlockNumber.le
  | saveNext h hdisk =>
    exact shows_of_indexed (exists_tail hdisk) h.indexed hattr h.files placed_prefix_roll
      h.lastBlockNumber.le
  | lockNext h hdisk | publishNext h hdisk =>
    exact shows_of_indexed (exists_tail hdisk) (h.indexed.put _) hattr h.files placed_prefix_roll
      h.lastBlockNumber.le
  | appendBlock h hdisk =>
    exact shows_of_indexed ⟨_, hdisk⟩ h.indexed hattr h.files prefix_rfl h.lastBlockNumber.le
  | save h hdisk =>
    exact shows_of_indexed (exists_tail hdisk) h.indexed hattr h.files placed_prefix_add
      h.lastBlockNumber.le
  | index h hdisk =>
    exact shows_of_indexed (exists_tail hdisk) (h.indexed.put _) hattr h.files placed_prefix_add
      h.lastBlockNumber.le
  | lockCond h hdisk | publish h hdisk =>
    exact shows_of_indexed (exists_tail hdisk) (h.add hdisk).indexed hattr hdisk prefix_rfl
      (h.lastBlockNumber.le.trans placed_prefix_add.length_le)
  | report h hdisk =>
    exact shows_of_indexed (exists_tail hdisk) (h.add hdisk).indexed hattr hdisk prefix_rfl
      (lastBlockNumber_checkpoint _).le

theorem nextCPInfo_eq (h : σ.mgr.cpInfo = l.checkpoint) : σ.nextCPInfo = l.roll.checkpoint := by
  rw [nextCPInfo, h, checkpoint, checkpoint, l.blocks_roll, roll, length_append]
  rfl

theorem newCPInfo_eq (h : σ.mgr.cpInfo = l.checkpoint) : σ.newCPInfo b = (l.add b).checkpoint := by
  rw [newCPInfo, h, l.checkpoint_add]

theorem Phase.step {σ σ' : System} (h : Phase hash σ.writer l v σ.mgr)
    (hstep : σ.stepWriter hash = some σ') :
    ∃ l' v', Phase hash σ'.writer l' v' σ'.mgr ∧ Extends v σ.mgr v' σ'.mgr ∧
      σ'.mgr.attrs = σ.mgr.attrs ∧
      l'.blocks ++ σ'.writer.pending = l.blocks ++ σ.writer.pending := by
  obtain ⟨mgr, cond, writer, readers, panicked⟩ := σ
  unfold stepWriter at hstep
  cases h with
  | idle => cases hstep
  | openNext h =>
    obtain ⟨disk, hopen, rfl⟩ := map_eq_some_iff.mp hstep
    have hsuffix : mgr.cpInfo.latestFileChunkSuffixNum + 1 = mgr.disk.files.length := by
      rw [h.cpInfo, h.files, length_files]
      rfl
    rw [hsuffix] at hopen
    have hdisk : disk.files = l.roll.files := by
      rw [Disk.files_openWriter hopen, h.files, l.files_roll]
    refine ⟨l, _, .saveNext h hdisk, .of_roll le_rfl fun n => ?_, rfl, rfl⟩
    rw [Disk.files_openWriter hopen]
    exact getD_prefix_append n
  | @saveNext _ _ _ _ h hdisk =>
    cases hstep
    dsimp only
    rw [nextCPInfo_eq h.cpInfo]
    exact ⟨l, _, .lockNext h hdisk, .of_files le_rfl fun _ => prefix_rfl, rfl, rfl⟩
  | lockNext h hdisk =>
    split_ifs at hstep
    cases hstep
    exact ⟨l, _, .publishNext h hdisk, .of_files le_rfl fun _ => prefix_rfl, rfl, rfl⟩
  | @publishNext _ _ _ _ h hdisk =>
    cases hstep
    dsimp only [broadcast]
    rw [nextCPInfo_eq h.cpInfo]
    refine ⟨l.roll, _, .appendLength (h.roll hdisk), .of_files ?_ fun _ => prefix_rfl, rfl, ?_⟩
    · rw [h.cpInfo, lastBlockNumber_checkpoint, lastBlockNumber_checkpoint, l.placed_roll]
    · rw [l.blocks_roll]
      rfl
  | @appendLength _ _ b h =>
    obtain ⟨disk, happend, rfl⟩ := map_eq_some_iff.mp hstep
    have hfiles := h.files.trans l.files_eq
    have hwriter := h.currentFileWriter
    have hdisk : disk.files =
        l.front.map chunkBytes ++ [chunkBytes l.last ++ encodeVarint b.bytes.length] := by
      rw [Disk.files_append happend, hfiles, hwriter, modify_concat]
    refine ⟨l, _, .appendBlock h hdisk, .of_files le_rfl fun n => ?_, rfl, rfl⟩
    rw [hdisk, hfiles]
    exact getD_prefix_concat n
  | @appendBlock _ mgr b disk h hdisk =>
    obtain ⟨disk', happend, rfl⟩ := map_eq_some_iff.mp hstep
    have hwriter := h.currentFileWriter
    have hdisk' : disk'.files = l.front.map chunkBytes ++
        [chunkBytes l.last ++ encodeVarint b.bytes.length ++ b.bytes] := by
      rw [Disk.files_append happend, hdisk, hwriter, modify_concat]
    have hadd : disk'.files = (l.add b).files := by
      rw [hdisk', l.files_add, frame, append_assoc]
    have hphase : Phase hash (.save b) l (l.add b) { mgr with disk := disk' } := .save h hadd
    refine ⟨l, _, hphase, .of_add le_rfl fun n => ?_, rfl, rfl⟩
    rw [hdisk, hdisk']
    exact getD_prefix_concat n
  | @save _ _ _ _ h hdisk =>
    cases hstep
    dsimp only
    rw [newCPInfo_eq h.cpInfo]
    exact ⟨l, _, .index h hdisk, .of_files le_rfl fun _ => prefix_rfl, rfl, rfl⟩
  | @index _ mgr b _ h hdisk =>
    cases hstep
    have hsize : mgr.cpInfo.latestFileChunksize = l.checkpoint.latestFileChunksize := by
      rw [h.cpInfo]
    rw [newCPInfo_eq h.cpInfo, hsize]
    have hinfo := info_next hash l b
    rw [hinfo]
    exact ⟨l, _, .lockCond h hdisk, .of_files le_rfl fun _ => prefix_rfl, rfl, rfl⟩
  | lockCond h hdisk =>
    split_ifs at hstep
    cases hstep
    exact ⟨l, _, .publish h hdisk, .of_files le_rfl fun _ => prefix_rfl, rfl, rfl⟩
  | @publish _ _ _ _ h hdisk =>
    cases hstep
    rw [newCPInfo_eq h.cpInfo]
    refine ⟨l, _, .report h hdisk, .of_files ?_ fun _ => prefix_rfl, rfl, rfl⟩
    rw [h.cpInfo, l.checkpoint_add]
    exact Nat.le_succ _
  | @report _ _ b _ h hdisk =>
    cases hstep
    refine ⟨l.add b, _, .idle (h.add hdisk), .of_files le_rfl fun _ => prefix_rfl, rfl, ?_⟩
    rw [l.blocks_add]
    exact append_nil _

theorem Phase.blocks_prefix (h : Phase hash pc l v mgr) : v.blocks <+: l.blocks ++ pc.pending := by
  cases h with
  | idle | openNext | appendLength | appendBlock => exact prefix_append _ _
  | saveNext | lockNext | publishNext =>
    rw [l.blocks_roll]
    exact prefix_append _ _
  | save | index | lockCond | publish | report => rw [l.blocks_add, WriterPC.pending]

/-! ### The process -/

namespace Reader

variable {i : ℕ} {cond cond' : Option Holder} {r r' : Reader}

theorem startNum_call (h : r.call = some r') : r'.startNum = r.startNum := by
  unfold call at h
  split_ifs at h <;> cases h <;> rfl

theorem startNum_callClose (h : r.callClose = some r') : r'.startNum = r.startNum := by
  unfold callClose at h
  split_ifs at h
  cases h
  rfl

theorem startNum_stepClose (h : r.stepClose i cond = some (cond', r')) :
    r'.startNum = r.startNum := by
  unfold stepClose at h
  repeat' split at h
  all_goals cases h <;> rfl

theorem startNum_wake (r : Reader) : r.wake.startNum = r.startNum := by
  unfold wake
  split_ifs <;> rfl

end Reader

namespace System

variable {σ σ' : System} {blocks : List SizedBlock2} {i : ℕ} {r r' : Reader} {label : Label}
  {labels : List Label}

/-- The blocks that a label begins to add. -/
def Label.begun : Label → List SizedBlock2
  | .addBlock b => [b]
  | _ => []

/-- The writer holds a chain, with the block that it adds, and the iterators follow what they
see of it. -/
structure Shares (hash : Bytes → Bytes) (blocks : List SizedBlock2) (l v : Layout) (σ : System) :
    Prop where
  phase : Phase hash σ.writer l v σ.mgr
  blocks : l.blocks ++ σ.writer.pending = blocks
  follows : .blockNum ∈ σ.mgr.attrs → ∀ i r, σ.readers i = some r → 1 ≤ r.startNum →
    r.Follows v σ.mgr

theorem Shares.of_holds (h : Holds hash l mgr) : (start mgr).Shares hash l.blocks l l := by
  refine ⟨.idle h, append_nil _, fun _ i r hr => ?_⟩
  cases hr

section

variable (h : σ.Shares hash blocks l v)
include h

theorem Shares.lastBlockNumber (hidle : σ.writer = .idle) :
    σ.mgr.cpInfo.lastBlockNumber = blocks.length := by
  obtain ⟨hphase, rfl, -⟩ := h
  rw [hidle] at hphase ⊢
  cases hphase with
  | idle h =>
    rw [h.lastBlockNumber, l.length_placed]
    simp [WriterPC.pending]

theorem Shares.returned (hattr : .blockNum ∈ σ.mgr.attrs)
    (hr : σ.readers i = some r) (hpos : 1 ≤ r.startNum) (hopen : r.itr.closeMarker = false) :
    r.itr.blockNumToRetrieve = r.startNum + r.returned.length ∧
      ∀ k result, r.returned[k]? = some result →
        ∃ b, blocks[r.startNum - 1 + k]? = some b ∧ result = .block (some b.bytes) := by
  have hfollows := h.follows hattr i r hr hpos
  obtain ⟨n, m, hnum, hpublished, hreturned, hclosed⟩ := hfollows.returned
  have hm := hclosed.resolve_right (by simp [hopen])
  rw [hm, replicate_zero, append_nil] at hreturned
  have hlen := (h.phase.shows hattr).published
  have hn : r.returned.length = n := by
    rw [hreturned, length_map, length_take, length_drop]
    omega
  refine ⟨by rw [hn, hnum], fun k result hresult => ?_⟩
  have hk := (List.getElem?_eq_some_iff.mp hresult).1
  rw [hreturned, List.getElem?_map, List.getElem?_take_of_lt (by omega), List.getElem?_drop,
    map_eq_some_iff] at hresult
  obtain ⟨x, hx, rfl⟩ := hresult
  refine ⟨x.block, ?_, rfl⟩
  obtain ⟨rest, hrest⟩ := h.phase.blocks_prefix
  have hblock : v.blocks[r.startNum - 1 + k]? = some x.block := by
    rw [← v.map_block_placed, List.getElem?_map, hx, map_some]
  rw [← h.blocks, ← hrest,
    List.getElem?_append_left (List.getElem?_eq_some_iff.mp hblock).1, hblock]

theorem Shares.setReader {cond : Option Holder}
    (hr : .blockNum ∈ σ.mgr.attrs → 1 ≤ r.startNum → r.Follows v σ.mgr) :
    Shares hash blocks l v { σ.setReader i r with cond } :=
  ⟨h.phase, h.blocks, fun hattr => forall_setReader (h.follows hattr) (hr hattr)⟩

theorem Shares.broadcast : σ.broadcast.Shares hash blocks l v := by
  refine ⟨h.phase, h.blocks, fun hattr i r hmap hpos => ?_⟩
  obtain ⟨r, hr, rfl⟩ := map_eq_some_iff.mp hmap
  rw [r.startNum_wake] at hpos
  exact (h.follows hattr i r hr hpos).wake

end

theorem readers_stepWriter (h : σ.stepWriter hash = some σ') : σ'.panicked = σ.panicked ∧
      (σ'.readers = σ.readers ∨ σ'.readers = σ.broadcast.readers) := by
  unfold stepWriter at h
  split at h
  case h_1 => cases h
  case h_5 | h_11 =>
    cases h
    exact ⟨rfl, .inr rfl⟩
  case h_4 | h_10 =>
    split_ifs at h
    cases h
    exact ⟨rfl, .inl rfl⟩
  case h_2 | h_6 | h_7 =>
    obtain ⟨disk, -, rfl⟩ := map_eq_some_iff.mp h
    exact ⟨rfl, .inl rfl⟩
  all_goals
    cases h
    exact ⟨rfl, .inl rfl⟩

theorem Shares.stepWriter (h : σ.Shares hash blocks l v) (hstep : σ.stepWriter hash = some σ') :
    ∃ l' v', σ'.Shares hash blocks l' v' ∧ σ'.mgr.attrs = σ.mgr.attrs := by
  obtain ⟨l', v', hphase, hext, hattrs, hblocks⟩ := h.phase.step hstep
  refine ⟨l', v', ⟨hphase, hblocks.trans h.blocks, fun hattr i r hr hpos => ?_⟩, hattrs⟩
  rw [hattrs] at hattr
  have hshows := h.phase.shows hattr
  have hfollows : r.Follows v σ.mgr := by
    rcases (readers_stepWriter hstep).2 with hreaders | hreaders
    · rw [hreaders] at hr
      exact h.follows hattr i r hr hpos
    · rw [hreaders] at hr
      exact h.broadcast.follows hattr i r hr hpos
  exact hfollows.mono hshows hext

open Reader

theorem Shares.step (h : σ.Shares hash blocks l v) (hstep : σ.step hash label = some σ') :
    ∃ l' v', σ'.Shares hash (blocks ++ label.begun) l' v' ∧ σ'.mgr.attrs = σ.mgr.attrs := by
  unfold System.step at hstep
  split_ifs at hstep
  cases label
  case addBlock =>
    simp only [apply, beginBlock] at hstep
    split_ifs at hstep with hidle hsize
    all_goals
      cases hstep
      obtain ⟨hphase, hblocks, hfollows⟩ := h
      rw [hidle] at hphase hblocks
      rw [← hblocks, WriterPC.pending, append_nil]
      cases hphase with
      | idle hholds =>
        refine ⟨l, l, ⟨?_, rfl, hfollows⟩, rfl⟩
        first
          | exact .openNext hholds
          | exact .appendLength hholds
  all_goals simp only [Label.begun, append_nil]
  case write => exact h.stepWriter hstep
  case retrieveBlocks =>
    simp only [apply] at hstep
    split at hstep
    · cases hstep
      exact ⟨l, v, h.setReader fun _ hpos => follows_start hpos, rfl⟩
    · cases hstep
  case callNext i =>
    obtain ⟨r, r', hr, hcall, rfl⟩ := exists_reader hstep
    refine ⟨l, v, h.setReader fun hattr hpos => ?_, rfl⟩
    rw [startNum_call hcall] at hpos
    exact (h.follows hattr i r hr hpos).call hcall
  case next i =>
    obtain ⟨r, ⟨cond', r'⟩, hr, hnext, rfl⟩ := exists_reader hstep
    refine ⟨l, v, h.setReader fun hattr hpos => ?_, rfl⟩
    rw [(operates_stepNext hnext).startNum] at hpos
    exact ((h.follows hattr i r hr hpos).stepNext (h.phase.shows hattr) hnext).1
  case callClose i =>
    obtain ⟨r, r', hr, hcall, rfl⟩ := exists_reader hstep
    refine ⟨l, v, h.setReader fun hattr hpos => ?_, rfl⟩
    rw [startNum_callClose hcall] at hpos
    exact (h.follows hattr i r hr hpos).callClose hcall
  case close i =>
    obtain ⟨r, ⟨cond', r'⟩, hr, hclose, rfl⟩ := exists_reader hstep
    have hset : Shares hash blocks l v { σ.setReader i r' with cond := cond' } := by
      refine h.setReader fun hattr hpos => ?_
      rw [startNum_stepClose hclose] at hpos
      exact (h.follows hattr i r hr hpos).stepClose hclose
    refine ⟨l, v, ?_, ?_⟩
    · split_ifs
      · exact hset.broadcast
      · exact hset
    · split_ifs <;> rfl

/-! ### Runs -/

theorem shares_of_run (h : Holds hash l mgr) (hrun : (start mgr).run hash labels = some σ) :
    ∃ l' v', σ.Shares hash (l.blocks ++ labels.flatMap Label.begun) l' v' ∧
      σ.mgr.attrs = mgr.attrs := by
  refine run_induction (P := fun labels σ => ∃ l' v',
    σ.Shares hash (l.blocks ++ labels.flatMap Label.begun) l' v' ∧
      σ.mgr.attrs = mgr.attrs) ?_ ?_ hrun
  · refine ⟨l, l, ?_, rfl⟩
    rw [flatMap_nil, append_nil]
    exact .of_holds h
  · rintro labels label σ₁ σ₂ - - ⟨l₁, v₁, hshares, hattrs⟩ hstep
    obtain ⟨l₂, v₂, hshares', hattrs'⟩ := hshares.step hstep
    refine ⟨l₂, v₂, ?_, hattrs'.trans hattrs⟩
    rwa [append_assoc, ← flatMap_singleton Label.begun label, ← flatMap_append]
      at hshares'

theorem Shares.exists_run_next (h : σ.Shares hash blocks l v) (hguarded : σ.Guarded)
    (hattr : .blockNum ∈ σ.mgr.attrs) (halive : σ.panicked = false) (hr : σ.readers i = some r)
    (hpos : 1 ≤ r.startNum) (hopen : r.itr.closeMarker = false) (hnext : r.next ≠ .idle)
    (hpublished : r.itr.blockNumToRetrieve ≤ σ.mgr.cpInfo.lastBlockNumber)
    (hcond : σ.cond = none ∨ σ.cond = some (.next i)) :
    ∃ n σ' r' b, σ.run hash (List.replicate n (.next i)) = some σ' ∧ σ'.readers i = some r' ∧
      r'.next = .idle ∧ blocks[r.startNum - 1 + r.returned.length]? = some b ∧
      r'.returned = r.returned ++ [.block (some b.bytes)] := by
  -- every operation brings the call nearer to its end
  generalize hrank : r.rank v = k
  induction k using Nat.strong_induction_on generalizing σ r with
  | h _ ih =>
    have hreader := hguarded.readers i r hr
    have hfollows := h.follows hattr i r hr hpos
    have hawaits : r.next.awaits = false := by
      by_contra hawaits
      exact absurd (hreader.awaits (by simpa using hawaits)) (Nat.not_lt.mpr hpublished)
    have hlockCond : r.next = .lockCond → σ.cond = none := by
      intro hlock
      refine hcond.resolve_right fun hheld => ?_
      have hin := (inCond_next hr).mp ((hguarded.cond _).mp hheld)
      rw [hlock] at hin
      cases hin
    have henter : r.next = .enter → r.closeMarkerLock = none := by
      intro henter
      cases hlock : r.closeMarkerLock with
      | none => rfl
      | some side =>
        have hin := (hreader.marker side).mp hlock
        cases side with
        | next =>
          rw [Reader.inMarker, henter] at hin
          cases hin
        | close =>
          rw [hreader.closing hin] at hopen
          cases hopen
    obtain ⟨cond', r', hstep⟩ : ∃ cond' r', r.stepNext i σ.mgr σ.cond = some (cond', r') :=
      hfollows.exists_stepNext hnext (fun hwaiting => by simp [hwaiting, NextPC.awaits] at hawaits)
        (fun hlock => by simp [hlock, NextPC.awaits] at hawaits) hlockCond henter
    obtain ⟨hfollows', hadvances⟩ := hfollows.stepNext (h.phase.shows hattr) hstep
    have hop := Reader.operates_stepNext hstep
    have hsystem : σ.step hash (.next i) = some { σ.setReader i r' with cond := cond' } := by
      rw [System.step, halive, if_neg (by simp), apply, hr, bind_some, hstep, map_some]
    have hr' : (σ.setReader i r').readers i = some r' := by rw [readers_setReader, if_pos rfl]
    have hshares : Shares hash blocks l v { σ.setReader i r' with cond := cond' } :=
      h.setReader fun _ _ => hfollows'
    have hpos' : 1 ≤ r'.startNum := by rwa [hop.startNum]
    have hopen' : r'.itr.closeMarker = false := by rwa [hop.closeMarker]
    rcases hadvances with ⟨hidle, result, hreturned⟩ | ⟨hnext', hnum, hreturned, hless⟩
    · have hlast : r'.returned[r.returned.length]? = some result := by
        rw [hreturned, List.getElem?_concat_length]
      obtain ⟨b, hb, rfl⟩ := (hshares.returned hattr hr' hpos' hopen').2 _ _ hlast
      rw [hop.startNum] at hb
      refine ⟨1, { σ.setReader i r' with cond := cond' }, r', b, ?_, hr', hidle, hb, hreturned⟩
      rw [replicate_one, System.run, foldlM_cons, hsystem]
      rfl
    · have halive' : (σ.setReader i r').panicked = false := by
        have hpc := hfollows'.not_panicked
        have hclose : r'.close ≠ .panicked := by
          rw [hop.close]
          intro hclose
          rw [hreader.closing (by rw [hclose]; rfl)] at hopen
          cases hopen
        simp [System.setReader, halive, Reader.panicked, hpc, hclose]
      have hagain := ih (r'.rank v) (hrank ▸ hless) hshares
        (hguarded.step hsystem) hattr halive' hr'
        hpos' hopen' hnext' (by rw [hnum]; exact hpublished) (hop.cond.free_or_own hcond) rfl
      obtain ⟨n, σ'', r'', b, hrun, hr'', hidle, hb, hreturned'⟩ := hagain
      rw [hop.startNum, hreturned] at hb
      refine ⟨n + 1, σ'', r'', b, ?_, hr'', hidle, hb, by rw [hreturned', hreturned]⟩
      rw [replicate_succ, System.run, foldlM_cons, hsystem]
      exact hrun

end System

/-- While a writer adds blocks, the `k`-th call of `Next` on an open iterator has returned the
`k`-th block from its first one on, and a call whose block is published ends when the lock is free.
-/
theorem follows_of_run {blocks : List SizedBlock2} {labels : List System.Label} {σ : System} {i : ℕ}
    {r : Reader} (hwritten : Written hash attrs blocks mgr) (hattr : .blockNum ∈ attrs)
    (hrun : (System.start mgr).run hash labels = some σ) (hr : σ.readers i = some r)
    (hpos : 1 ≤ r.startNum) (hopen : r.itr.closeMarker = false) :
    (∀ k result, r.returned[k]? = some result →
      ∃ b, (blocks ++ labels.flatMap System.Label.begun)[r.startNum - 1 + k]? = some b ∧
        result = .block (some b.bytes)) ∧
    (σ.writer = .idle →
      σ.mgr.cpInfo.lastBlockNumber = (blocks ++ labels.flatMap System.Label.begun).length) ∧
    (r.next ≠ .idle → r.startNum + r.returned.length ≤ σ.mgr.cpInfo.lastBlockNumber →
      σ.cond = none ∨ σ.cond = some (.next i) → σ.panicked = false →
      ∃ n σ' r' b, σ.run hash (List.replicate n (.next i)) = some σ' ∧ σ'.readers i = some r' ∧
        r'.next = .idle ∧
        (blocks ++ labels.flatMap System.Label.begun)[r.startNum - 1 + r.returned.length]? =
          some b ∧
        r'.returned = r.returned ++ [.block (some b.bytes)]) := by
  obtain ⟨l, hholds, rfl, hattrs⟩ := hwritten.exists_holds
  obtain ⟨l', v, hshares, hattrs'⟩ := shares_of_run hholds hrun
  have hattr' : .blockNum ∈ σ.mgr.attrs := by rwa [hattrs', hattrs]
  obtain ⟨hnum, hreturned⟩ := hshares.returned hattr' hr hpos hopen
  refine ⟨hreturned, hshares.lastBlockNumber, fun hnext hpublished hcond halive => ?_⟩
  rw [← hnum] at hpublished
  exact hshares.exists_run_next (guarded_of_run hrun) hattr' halive hr hpos hopen hnext
    hpublished hcond

/-- A run of a process on a new store. -/
def System.runNew (hash : Bytes → Bytes) (maxBlockfileSize : ℤ) (attrs : List IndexableAttr)
    (labels : List System.Label) : Option System :=
  (newBlockfileMgr hash maxBlockfileSize attrs .empty .empty).toOption.bind fun mgr =>
    (System.start mgr).run hash labels

theorem System.exists_of_runNew {maxBlockfileSize : ℤ} {labels : List System.Label}
    (h : runNew hash maxBlockfileSize attrs labels = some σ) :
    ∃ mgr, newBlockfileMgr hash maxBlockfileSize attrs .empty .empty = .ok mgr ∧
      (start mgr).run hash labels = some σ := by
  obtain ⟨mgr, hmgr, hrun⟩ := bind_eq_some_iff.mp h
  refine ⟨mgr, ?_, hrun⟩
  cases hnew : newBlockfileMgr hash maxBlockfileSize attrs .empty .empty with
  | error =>
    rw [hnew] at hmgr
    cases hmgr
  | ok =>
    rw [hnew] at hmgr
    exact congrArg _ (Option.some.inj hmgr)

/-- `Next` waits for a block, which is added in a new file and then returned. -/
def waitingRun : List System.Label :=
  [.retrieveBlocks 0 1, .callNext 0] ++ List.replicate 4 (.next 0) ++
    .addBlock txBlock :: List.replicate 11 .write ++ List.replicate 9 (.next 0)

theorem follows_waitingRun : ∃ mgr σ r, newBlockfileMgr id 0 [.blockNum] .empty .empty = .ok mgr ∧
    (System.start mgr).run id waitingRun = some σ ∧ σ.readers 0 = some r ∧
    r.returned.length = 1 ∧ ∀ k result, r.returned[k]? = some result →
      ∃ b, ([] ++ waitingRun.flatMap System.Label.begun)[r.startNum - 1 + k]? = some b ∧
        result = .block (some b.bytes) := by
  have hrun : ∃ σ, runNew id 0 [.blockNum] waitingRun = some σ ∧ ∃ r, σ.readers 0 = some r ∧
      r.startNum = 1 ∧ r.itr.closeMarker = false ∧ r.returned.length = 1 := by decide +kernel
  obtain ⟨σ, hrun, r, hr, hstart, hopen, hlength⟩ := hrun
  obtain ⟨mgr, hcreate, hrun⟩ := exists_of_runNew hrun
  exact ⟨mgr, σ, r, hcreate, hrun, hr, hlength,
    (follows_of_run (.create hcreate) (by decide) hrun hr hstart.ge hopen).1⟩

/-- No wake-up is missed: a call of `Next` sleeps only while its block is not published. -/
theorem sleeps_of_run {labels : List System.Label} {i : ℕ} {r : Reader}
    (hrun : (start mgr).run hash labels = some σ) (hr : σ.readers i = some r)
    (hwaiting : r.next = .waiting) :
    σ.mgr.cpInfo.lastBlockNumber < r.itr.blockNumToRetrieve :=
  ((guarded_of_run hrun).readers i r hr).awaits (by rw [hwaiting]; rfl)

theorem sleeps_waitingRun : ∃ mgr σ r,
    (start mgr).run id (waitingRun.take 6) = some σ ∧ σ.readers 0 = some r ∧
      r.next = .waiting ∧ σ.mgr.cpInfo.lastBlockNumber < r.itr.blockNumToRetrieve := by
  obtain ⟨σ, hrun, r, hr, hwaiting⟩ : ∃ σ, runNew id 0 [.blockNum] (waitingRun.take 6) = some σ ∧
      ∃ r, σ.readers 0 = some r ∧ r.next = .waiting := by decide +kernel
  obtain ⟨mgr, -, hrun⟩ := exists_of_runNew hrun
  exact ⟨mgr, σ, r, hrun, hr, hwaiting, sleeps_of_run hrun hr hwaiting⟩

end Fabric.BlockStore
