import Fabric.BlockStore.Layout
import Mathlib.Algebra.Order.BigOperators.Group.List

/-!
# The manager and the chain

What the manager keeps in files, checkpoint and index is the chain of the blocks that were
added. Adding a block keeps this, also where it fails: what was written is cut off again.
-/

namespace Fabric.BlockStore

open Fabric.Common List Layout

variable {hash : Bytes → Bytes} {attrs : List IndexableAttr} {ps : List Placed} {x : Placed}
  {db : DB} {l : Layout} {mgr mgr' : BlockfileMgr}

/-! ### The index -/

namespace Placed

/-- Where the block is, for the index. -/
def flp (x : Placed) : FileLocPointer := ⟨x.file, x.offset, 0⟩

/-- Where the bytes of the block begin, behind their length. -/
def bytesOffset (x : Placed) : ℕ := x.offset + (encodeVarint x.block.bytes.length).length

/-- Where a transaction of the block is. -/
def txFlp? (x : Placed) (t : ℕ) : Option FileLocPointer :=
  x.block.block.transactions[t]?.map fun tx =>
    ⟨x.file, x.bytesOffset + x.block.block.txOffset t, tx.length⟩

end Placed

/-- The blocks are indexed by their numbers and hashes; of several with one hash the last. -/
structure Indexed (hash : Bytes → Bytes) (attrs : List IndexableAttr) (ps : List Placed) (db : DB) :
    Prop where
  noBlock : db.get (.blockNum 0) = none
  blockNum : ∀ i, i + 1 < 2 ^ 64 → db.get (.blockNum (i + 1)) =
    if .blockNum ∈ attrs then ps[i]?.map fun x => x.flp.marshal else none
  blockHash : ∀ h, db.get (.blockHash h) = if .blockHash ∈ attrs then
      (ps.reverse.find? fun x => hash x.block.bytes = h).map fun x => x.flp.marshal
    else none
  checkpoint : db.get .indexCheckpoint =
    if attrs = [] ∨ ps = [] then none else some (encodeVarint ps.length)

/-- The transactions of the blocks are indexed. -/
def TxIndexed (attrs : List IndexableAttr) (ps : List Placed) (db : DB) : Prop :=
  ∀ i t, i + 1 < 2 ^ 64 → db.get (.txID (i + 1) t) =
    if .txID ∈ attrs then (ps[i]?.bind fun x => x.txFlp? t).map FileLocPointer.marshal else none

theorem Indexed.of_empty (hash : Bytes → Bytes) (attrs : List IndexableAttr) :
    Indexed hash attrs [] .empty := by
  constructor <;> simp

theorem TxIndexed.of_empty (attrs : List IndexableAttr) : TxIndexed attrs [] .empty := by
  intro i t _
  simp

theorem Indexed.put (h : Indexed hash attrs ps db) (value : Bytes) :
    Indexed hash attrs ps (db.put .blkMgrInfo value) :=
  ⟨h.noBlock, h.blockNum, h.blockHash, h.checkpoint⟩

theorem TxIndexed.put (h : TxIndexed attrs ps db) (value : Bytes) :
    TxIndexed attrs ps (db.put .blkMgrInfo value) := h

theorem getElem?_concat_of_ne {i : ℕ} (h : i ≠ ps.length) : (ps ++ [x])[i]? = ps[i]? := by
  rcases Nat.lt_or_gt_of_ne h with h | h
  · exact List.getElem?_append_left h
  · rw [List.getElem?_eq_none (by simpa using h), List.getElem?_eq_none (by omega)]

theorem Indexed.index {ps' : List Placed} {info : BlockIdxInfo} (h : Indexed hash attrs ps' db)
    (hps : ps' = ps ∨ ps' = ps ++ [x]) (hnum : info.blockNum = ps.length + 1)
    (hhash : info.blockHash = hash x.block.bytes) (hflp : info.flp = x.flp)
    (hlt : ps.length + 1 < 2 ^ 64) : Indexed hash attrs (ps ++ [x]) (indexBlock attrs info db) := by
  have hvalid : info.blockNum < 2 ^ 64 := by omega
  constructor
  · rw [indexBlock_blockNum hvalid (by decide), h.noBlock, hnum]
    simp
  · intro i hi
    rw [indexBlock_blockNum hvalid hi, h.blockNum i hi, hnum, hflp]
    by_cases hlast : i = ps.length
    · by_cases hattr : IndexableAttr.blockNum ∈ attrs <;> simp [hattr, hlast]
    · have hother : ps'[i]? = (ps ++ [x])[i]? := by
        rcases hps with rfl | rfl
        · exact (getElem?_concat_of_ne hlast).symm
        · rfl
      simp [hlast, hother]
  · intro hash'
    rw [indexBlock_blockHash hvalid, h.blockHash, hhash, hflp]
    by_cases hattr : IndexableAttr.blockHash ∈ attrs
    · by_cases hsame : hash' = hash x.block.bytes
      · simp [hattr, hsame]
      · rcases hps with rfl | rfl <;> simp [hsame, Ne.symm hsame]
    · simp [hattr]
  · by_cases hattrs : attrs = []
    · rw [indexBlock, if_pos hattrs, h.checkpoint]
      simp [hattrs]
    · rw [indexBlock_indexCheckpoint hvalid hattrs, hnum]
      simp [hattrs]

/-- What `addBlock` writes to the index for a block. -/
def Placed.info (hash : Bytes → Bytes) (x : Placed) (blockNum : ℕ) : BlockIdxInfo where
  blockNum := blockNum
  blockHash := hash x.block.bytes
  flp := x.flp
  txOffsets := (x.block.block.txOffsets.map Int.ofNat).map
    fun o => o + (encodeVarint x.block.bytes.length).length

variable {n : ℕ} {disk : Disk} {file : Bytes} {t : ℕ} {offset : ℕ} {tx : Bytes}

theorem Placed.txFlp_info (hx : x.offset + (frame x.block.bytes).length < 2 ^ 63)
    (ht : x.block.block.transactions[t]? = some tx) :
    ∃ i j, (x.info hash n).txOffsets[t]? = some i ∧ (x.info hash n).txOffsets[t + 1]? = some j ∧
      x.txFlp? t = some ((x.info hash n).txFlp i j) := by
  have hlt := (List.getElem?_eq_some_iff.mp ht).1
  have hoffset : ∀ t ≤ x.block.block.transactions.length, (x.info hash n).txOffsets[t]? =
      some (x.block.block.txOffset t + (encodeVarint x.block.bytes.length).length : ℤ) := by
    intro t ht
    rw [info, List.getElem?_map, List.getElem?_map, Block2.txOffsets, getElem?_offsetsFrom ht]
    rfl
  refine ⟨_, _, hoffset t hlt.le, hoffset (t + 1) hlt, ?_⟩
  have hsucc := Block2.txOffset_succ ht
  have hle := x.block.txOffset_le (t + 1)
  have hframe := length_frame x.block.bytes
  have hplace : int (uint64 ((x.info hash n).flp.offset +
      (x.block.block.txOffset t + (encodeVarint x.block.bytes.length).length))) =
        x.bytesOffset + x.block.block.txOffset t := by
    simp only [info, flp, bytesOffset]
    rw [int_uint64 (by omega) (by omega)]
    omega
  have hlength : int (uint64 (x.block.block.txOffset (t + 1) +
      (encodeVarint x.block.bytes.length).length -
        (x.block.block.txOffset t + (encodeVarint x.block.bytes.length).length))) = tx.length := by
    rw [int_uint64 (by omega) (by omega)]
    omega
  rw [txFlp?, ht, BlockIdxInfo.txFlp, newFileLocationPointer, hplace, hlength]
  rfl

theorem Placed.length_txOffsets_info (x : Placed) (n : ℕ) :
    (x.info hash n).txOffsets.length - 1 = x.block.block.transactions.length := by
  rw [info, length_map, length_map, Block2.txOffsets, length_offsetsFrom, Nat.add_sub_cancel]

theorem TxIndexed.index (h : TxIndexed attrs ps db) (hlt : ps.length + 1 < 2 ^ 64)
    (hx : x.offset + (frame x.block.bytes).length < 2 ^ 63) :
    TxIndexed attrs (ps ++ [x]) (indexBlock attrs (x.info hash (ps.length + 1)) db) := by
  intro i t hi
  have hold : (.txID ∈ attrs → i + 1 = ps.length + 1 → x.block.block.transactions.length ≤ t) →
      (indexBlock attrs (x.info hash (ps.length + 1)) db).get (.txID (i + 1) t) =
        db.get (.txID (i + 1) t) := by
    intro hnot
    rw [← x.length_txOffsets_info] at hnot
    exact indexBlock_txID_of_not hlt hnot
  by_cases hlast : i = ps.length
  · subst hlast
    by_cases hattr : IndexableAttr.txID ∈ attrs
    · rw [List.getElem?_concat_length, Option.bind_some, if_pos hattr]
      cases ht : x.block.block.transactions[t]? with
      | some =>
        have hplace : ∃ i j, (x.info hash (ps.length + 1)).txOffsets[t]? = some i ∧ _ :=
          x.txFlp_info hx ht
        obtain ⟨i, j, hi, hj, hflp⟩ := hplace
        rw [hflp]
        exact indexBlock_txID hlt hattr hi hj
      | none =>
        have hnone : x.txFlp? t = none := by rw [Placed.txFlp?, ht, Option.map_none]
        rw [hold fun _ _ => List.getElem?_eq_none_iff.mp ht, h _ t hi, hnone]
        simp
    · rw [hold (fun hattr' => absurd hattr' hattr), h _ t hi, if_neg hattr, if_neg hattr]
  · rw [hold (fun _ heq => absurd (Nat.succ.inj heq) hlast), getElem?_concat_of_ne hlast]
    exact h i t hi

/-! ### The manager -/

/-- The checkpoint of a layout. -/
def Layout.checkpoint (l : Layout) : CheckpointInfo :=
  ⟨l.front.length, (chunkBytes l.last).length, l.blocks.length⟩

/-- What is reported about a chain. -/
def chainInfo (hash : Bytes → Bytes) (blocks : List SizedBlock2) : BlockchainInfo :=
  match blocks.getLast? with
  | none => ⟨0, [], []⟩
  | some b => ⟨blocks.length, hash b.bytes, b.block.previousBlockHash⟩

theorem height_chainInfo (hash : Bytes → Bytes) (blocks : List SizedBlock2) :
    (chainInfo hash blocks).height = blocks.length := by
  unfold chainInfo
  split
  · rename_i hnone
    rw [List.getLast?_eq_none_iff.mp hnone]
    rfl
  · rfl

/-- The manager holds the blocks of the layout. The checkpoint in the database may be an earlier
one. -/
structure Holds (hash : Bytes → Bytes) (l : Layout) (mgr : BlockfileMgr) : Prop where
  files : mgr.disk.files = l.files
  cpInfo : mgr.cpInfo = l.checkpoint
  writer : mgr.currentFileWriter = l.front.length
  saved : ∃ done, done <+: l.last ∧
    mgr.db.get .blkMgrInfo = some (Layout.checkpoint ⟨l.front, done⟩).marshal
  indexed : Indexed hash mgr.attrs l.placed mgr.db
  bcInfo : mgr.bcInfo = chainInfo hash l.blocks

/-- The index of the manager has the transactions of the layout. -/
def HoldsTxs (l : Layout) (mgr : BlockfileMgr) : Prop := TxIndexed mgr.attrs l.placed mgr.db

theorem Holds.currentFileWriter (h : Holds hash l mgr) :
    mgr.currentFileWriter = (l.front.map chunkBytes).length := by
  rw [h.writer, length_map]

theorem modify_concat {α : Type} (l : List α) (a : α) (f : α → α) :
    (l ++ [a]).modify l.length f = l ++ [f a] := by
  induction l with
  | nil => rfl
  | cons _ _ ih => rw [cons_append, length_cons, modify_succ_cons, ih, cons_append]

section Writes

variable {files : List Bytes} {file b : Bytes} {written : Option ℕ}

/-- What is behind the checkpoint is some bytes of a write that failed. -/
def Scribbled (mgr : BlockfileMgr) (files : List Bytes) (file : Bytes) (mgr' : BlockfileMgr) :
    Prop :=
  ∃ disk p, disk.files = files ++ [file ++ p] ∧ mgr' = { mgr with disk }

theorem append_ends (hfiles : mgr.disk.files = files ++ [file])
    (hwriter : mgr.currentFileWriter = files.length) :
    Ends (append b written) mgr
      (fun _ mgr' => written = none ∧ ∃ disk, disk.files = files ++ [file ++ b] ∧
        mgr' = { mgr with disk })
      (fun e mgr' => e = .append ∧ (written ≠ none ∨ mgr.disk.Full b.length) ∧
        Scribbled mgr files file mgr') := by
  unfold append
  simp only [ends_bind, ends_get]
  cases happend : mgr.disk.append mgr.currentFileWriter (b.take (written.getD b.length)) with
  | none =>
    refine ⟨rfl, .inr ?_, mgr.disk, [], by rw [hfiles, append_nil], rfl⟩
    have hle : (b.take (written.getD b.length)).length ≤ b.length := by simp
    exact (Disk.full_of_append happend).trans (Nat.add_le_add_left hle _)
  | some disk =>
    have hdisk : disk.files = files ++ [file ++ b.take (written.getD b.length)] := by
      rw [Disk.files_append happend, hfiles, hwriter, modify_concat]
    cases written with
    | none => exact ⟨rfl, disk, by simpa using hdisk, rfl⟩
    | some => exact ⟨rfl, .inl (by simp), disk, _, hdisk, rfl⟩

theorem orTruncate_ends {x : MgrM Unit} {mgr₀ : BlockfileMgr} {Q : Unit → BlockfileMgr → Prop}
    {φ : AddError → Prop}
    (hfiles : mgr.disk.files = files ++ [file]) (hwriter : mgr.currentFileWriter = files.length)
    (hsize : mgr.cpInfo.latestFileChunksize = file.length)
    (h : Ends x mgr₀ Q fun e mgr' => φ e ∧ Scribbled mgr files file mgr') :
    Ends (orTruncate x) mgr₀ Q fun e mgr' => φ e ∧ mgr' = mgr := by
  unfold orTruncate truncateFile
  simp only [ends_tryCatch, ends_bind, ends_modify]
  refine h.mono (fun _ _ => id) ?_
  rintro e mgr' ⟨he, disk, p, hdisk, rfl⟩
  have hcut : disk.truncateFile mgr.currentFileWriter mgr.cpInfo.latestFileChunksize =
      mgr.disk := by
    apply Disk.ext_files
    rw [Disk.files_truncateFile, hdisk, hwriter, hsize, hfiles, modify_concat, take_left]
  refine ⟨he, ?_⟩
  rw [hcut]

end Writes

theorem Layout.placed_lt (hdisk : disk.files = l.files) : l.placed.length + 1 < 2 ^ 64 := by
  have hfits := disk.fits
  have hle := l.length_blocks_le
  rw [← hdisk, ← l.length_placed] at hle
  omega

theorem Holds.placed_lt (h : Holds hash l mgr) : l.placed.length + 1 < 2 ^ 64 :=
  Layout.placed_lt h.files

theorem Holds.roll (h : Holds hash l mgr) (hdisk : disk.files = l.roll.files) :
    Holds hash l.roll { mgr with
      disk
      db := mgr.db.put .blkMgrInfo l.roll.checkpoint.marshal
      currentFileWriter := l.roll.front.length
      cpInfo := l.roll.checkpoint } := by
  refine ⟨hdisk, rfl, rfl, ⟨_, prefix_rfl, DB.get_put_self⟩, ?_, ?_⟩
  · rw [placed_roll]
    exact h.indexed.put _
  · rw [blocks_roll]
    exact h.bcInfo

theorem moveToNextFile_ends (h : Holds hash l mgr) : Ends moveToNextFile mgr
      (fun _ mgr' => Holds hash l.roll mgr' ∧ mgr'.attrs = mgr.attrs ∧
        (HoldsTxs l mgr → HoldsTxs l.roll mgr'))
      (fun e mgr' => e = .openWriterPanic ∧ mgr.disk.Full 1 ∧ mgr' = mgr) := by
  have hlength : mgr.disk.files.length = l.roll.front.length := by
    rw [h.files, length_files, roll, length_append]
    rfl
  have hsuffix : mgr.cpInfo.latestFileChunkSuffixNum + 1 = mgr.disk.files.length := by
    rw [h.cpInfo, h.files, length_files]
    rfl
  have hcheckpoint : (⟨mgr.disk.files.length, 0, mgr.cpInfo.lastBlockNumber⟩) =
      l.roll.checkpoint := by
    rw [hlength, h.cpInfo, checkpoint, checkpoint, l.blocks_roll]
    rfl
  unfold moveToNextFile
  simp only [ends_bind, ends_get, hsuffix, hcheckpoint]
  cases hopen : mgr.disk.openWriter mgr.disk.files.length with
  | none => exact ⟨rfl, Disk.full_of_openWriter hopen, rfl⟩
  | some disk =>
    have hdisk : disk.files = l.roll.files := by
      rw [Disk.files_openWriter hopen, h.files, l.files_roll]
    rw [hlength]
    refine ⟨h.roll hdisk, rfl, fun htxs => ?_⟩
    unfold HoldsTxs
    rw [placed_roll]
    exact TxIndexed.put htxs _

section AddBlock

variable {b : SizedBlock2} {fault : Option Fault}

theorem Layout.files_add (l : Layout) (b : SizedBlock2) :
    (l.add b).files = l.front.map chunkBytes ++ [chunkBytes l.last ++ frame b.bytes] := by
  rw [files_eq, add, chunkBytes_append, chunkBytes_cons, chunkBytes_nil, append_nil]

theorem Layout.checkpoint_add (l : Layout) (b : SizedBlock2) : (l.add b).checkpoint =
    ⟨l.checkpoint.latestFileChunkSuffixNum,
      l.checkpoint.latestFileChunksize + (b.bytes.length + (encodeVarint b.bytes.length).length),
      l.checkpoint.lastBlockNumber + 1⟩ := by
  have hframe := length_frame b.bytes
  rw [checkpoint, checkpoint, blocks_add, length_append, length_singleton, add,
    chunkBytes_append, chunkBytes_cons, chunkBytes_nil, append_nil, length_append, hframe,
    Nat.add_comm b.bytes.length]

theorem appendBlock_ends (h : Holds hash l mgr) : Ends (orTruncate do
        append (encodeVarint b.bytes.length) (fault.bind Fault.ofLength)
        append b.bytes (fault.bind Fault.ofBlock)) mgr
      (fun _ mgr' => fault.bind Fault.ofLength = none ∧ fault.bind Fault.ofBlock = none ∧
        ∃ disk, disk.files = (l.add b).files ∧ mgr' = { mgr with disk })
      (fun e mgr' => (e = .append ∧ (fault ≠ none ∨ mgr.disk.Full (frame b.bytes).length)) ∧
        mgr' = mgr) := by
  have hfiles := h.files.trans l.files_eq
  have hwriter := h.currentFileWriter
  have hframe := length_frame b.bytes
  have hfault : ∀ f : Fault → Option ℕ, fault.bind f ≠ none → fault ≠ none := by
    rintro f hf rfl
    exact hf rfl
  refine orTruncate_ends hfiles hwriter (by rw [h.cpInfo]; rfl) ?_
  rw [ends_bind]
  refine (append_ends hfiles hwriter).mono ?_ ?_
  · rintro _ mgr₁ ⟨hlength, disk, hdisk, rfl⟩
    have hblock : Ends (append b.bytes (fault.bind Fault.ofBlock)) { mgr with disk } _ _ :=
      append_ends hdisk hwriter
    refine hblock.mono ?_ ?_
    · rintro _ mgr₂ ⟨hblock, disk', hdisk', rfl⟩
      refine ⟨hlength, hblock, disk', ?_, rfl⟩
      rw [hdisk', l.files_add, frame, append_assoc]
    · rintro e mgr₂ ⟨he, hcause, disk', p, hdisk', rfl⟩
      refine ⟨⟨he, hcause.imp (hfault _) fun hfull => ?_⟩, disk',
        encodeVarint b.bytes.length ++ p, ?_, rfl⟩
      · unfold Disk.Full at *
        simp only [hdisk, hfiles, map_append, map_cons, sum_append,
          sum_cons, length_append, length_singleton]
          at hfull ⊢
        omega
      · rw [hdisk', append_assoc]
  · rintro e mgr₁ ⟨he, hcause, hscribbled⟩
    refine ⟨⟨he, hcause.imp (hfault _) fun hfull => ?_⟩, hscribbled⟩
    unfold Disk.Full at *
    omega

theorem Holds.add (h : Holds hash l mgr) (hdisk : disk.files = (l.add b).files) :
    Holds hash (l.add b) { mgr with
      disk
      db := indexBlock mgr.attrs ((l.next b).info hash (l.placed.length + 1))
        (mgr.db.put .blkMgrInfo (l.add b).checkpoint.marshal)
      cpInfo := (l.add b).checkpoint
      bcInfo := ⟨mgr.bcInfo.height + 1, hash b.block.bytes, b.block.previousBlockHash⟩ } := by
  have hlt := h.placed_lt
  refine ⟨hdisk, rfl, h.writer, ⟨_, prefix_rfl, ?_⟩, ?_, ?_⟩
  · rw [indexBlock_blkMgrInfo hlt]
    exact DB.get_put_self
  · rw [l.placed_add]
    exact (h.indexed.put _).index (.inl rfl) rfl rfl rfl hlt
  · rw [l.blocks_add, h.bcInfo, height_chainInfo, chainInfo, List.getLast?_concat, length_append]
    rfl

theorem info_next (hash : Bytes → Bytes) (l : Layout) (b : SizedBlock2) :
    (⟨(l.add b).checkpoint.lastBlockNumber, hash b.block.bytes,
      ⟨(l.add b).checkpoint.latestFileChunkSuffixNum, l.checkpoint.latestFileChunksize, 0⟩,
      (b.block.txOffsets.map Int.ofNat).map
        fun o => o + ((encodeVarint b.block.bytes.length).length : ℤ)⟩ : BlockIdxInfo) =
      (l.next b).info hash (l.placed.length + 1) := by
  rw [l.length_placed, l.checkpoint_add]
  rfl

theorem finishBlock_ends (h : Holds hash l mgr) (hdisk : disk.files = (l.add b).files) :
    Ends (finishBlock hash b.block (b.block.txOffsets.map Int.ofNat)
        l.checkpoint.latestFileChunksize (l.add b).checkpoint)
      { mgr with disk, db := mgr.db.put .blkMgrInfo (l.add b).checkpoint.marshal }
      (fun _ mgr' => Holds hash (l.add b) mgr' ∧ mgr'.attrs = mgr.attrs ∧
        (HoldsTxs l mgr → HoldsTxs (l.add b) mgr'))
      (fun _ _ => False) := by
  have hfits : (l.next b).offset + (frame b.bytes).length < 2 ^ 63 := by
    have hfits := disk.fits
    rw [hdisk, l.files_add] at hfits
    simp only [map_append, map_cons, sum_append, sum_cons, length_append] at hfits
    simp only [Layout.next]
    omega
  unfold finishBlock
  rw [ends_modify]
  rw [info_next]
  refine ⟨h.add hdisk, rfl, fun htxs => ?_⟩
  unfold HoldsTxs
  rw [l.placed_add]
  exact TxIndexed.index (TxIndexed.put htxs _) h.placed_lt hfits

theorem writeBlock_ends (h : Holds hash l mgr) :
    Ends (writeBlock hash b.block (b.block.txOffsets.map Int.ofNat) fault) mgr
      (fun _ mgr' => fault = none ∧ Holds hash (l.add b) mgr' ∧ mgr'.attrs = mgr.attrs ∧
        (HoldsTxs l mgr → HoldsTxs (l.add b) mgr'))
      (fun e mgr' => e ≠ .openWriterPanic ∧
        (fault ≠ none ∨ mgr.disk.Full (frame b.bytes).length) ∧ mgr' = mgr) := by
  have hfiles := h.files.trans l.files_eq
  have hwriter := h.currentFileWriter
  unfold writeBlock
  simp only [ends_bind]
  refine (appendBlock_ends h).mono ?_ fun _ _ hfail => ⟨by simp [hfail.1.1], hfail.1.2, hfail.2⟩
  rintro _ mgr₁ ⟨hlength, hblock, disk, hdisk, rfl⟩
  have hcheckpoint : (⟨mgr.cpInfo.latestFileChunkSuffixNum, mgr.cpInfo.latestFileChunksize +
      (b.block.bytes.length + (encodeVarint b.block.bytes.length).length),
      mgr.cpInfo.lastBlockNumber + 1⟩) = (l.add b).checkpoint := by
    rw [h.cpInfo, l.checkpoint_add]
  have hsize : mgr.cpInfo.latestFileChunksize = l.checkpoint.latestFileChunksize := by rw [h.cpInfo]
  rw [hcheckpoint, hsize]
  refine (orTruncate_ends (φ := fun e => e = .save ∧ fault ≠ none) hfiles hwriter hsize
    (Q := fun _ mgr' => fault ≠ some .saveCheckpoint ∧ mgr' = { mgr with
      disk, db := mgr.db.put .blkMgrInfo (l.add b).checkpoint.marshal }) ?_).mono ?_ ?_
  · unfold saveCurrentInfo
    simp only [ends_ite, ends_throw, ends_modify, decide_eq_true_eq]
    refine ⟨fun hsave => ⟨⟨True.intro, by simp [hsave]⟩, disk, frame b.bytes, ?_, rfl⟩,
      fun hsave => ⟨hsave, True.intro⟩⟩
    rw [hdisk, l.files_add]
  · rintro _ mgr₂ ⟨hsave, rfl⟩
    have hfault : fault = none := by
      cases fault with
      | none => rfl
      | some f => cases f <;> simp [Fault.ofLength, Fault.ofBlock] at hlength hblock hsave
    refine (finishBlock_ends h hdisk).mono (fun _ mgr' hfinish => ⟨hfault, hfinish⟩) ?_
    exact fun _ _ hfalse => hfalse.elim
  · exact fun _ _ hfail => ⟨by simp [hfail.1.1], .inl hfail.1.2, hfail.2⟩

/-- A block is added, perhaps after a new file was begun, or the layout is as it was. It fails only
if a write does or the disk is full, and panics only if no file can be begun. -/
theorem addBlock_ends (h : Holds hash l mgr) : Ends (addBlock hash b.block fault) mgr
      (fun _ mgr' => fault = none ∧ ∃ l', (l' = l ∨ l' = l.roll) ∧ Holds hash (l'.add b) mgr' ∧
        mgr'.attrs = mgr.attrs ∧ (HoldsTxs l mgr → HoldsTxs (l'.add b) mgr'))
      (fun e mgr' => (e = .openWriterPanic → mgr.disk.Full 1) ∧
        (fault ≠ none ∨ mgr.disk.Full ((frame b.bytes).length + 1)) ∧
        ∃ l', (l' = l ∨ l' = l.roll) ∧ Holds hash l' mgr' ∧ mgr'.attrs = mgr.attrs ∧
          (HoldsTxs l mgr → HoldsTxs l' mgr')) := by
  have hoffsets : getTxOffsets (constructSerBlock2 b.block) =
    .ok (b.block.txOffsets.map Int.ofNat) := rfl
  unfold addBlock
  simp only [hoffsets, ends_bind, ends_ite]
  constructor
  · -- the block does not fit into the current file
    intro _
    refine (moveToNextFile_ends h).mono ?_ ?_
    · rintro _ mgr₁ ⟨hroll, hattrs, htxs⟩
      refine (writeBlock_ends hroll).mono ?_ ?_
      · rintro _ mgr₂ ⟨hfault, hadd, hattrs', htxs'⟩
        exact ⟨hfault, l.roll, .inr rfl, hadd, hattrs'.trans hattrs, fun h => htxs' (htxs h)⟩
      · rintro e mgr₂ ⟨he, hcause, rfl⟩
        refine ⟨fun he' => absurd he' he, hcause.imp_right fun hfull => ?_, l.roll, .inr rfl, hroll,
          hattrs, htxs⟩
        unfold Disk.Full at *
        rw [hroll.files, l.files_roll, ← h.files] at hfull
        simp only [map_append, map_cons, map_nil, sum_append, sum_cons,
          sum_nil, length_append, length_nil, length_singleton] at hfull
        omega
    · rintro e mgr₁ ⟨-, hfull, rfl⟩
      refine ⟨fun _ => hfull, .inr ?_, l, .inl rfl, h, rfl, id⟩
      unfold Disk.Full at *
      omega
  · intro _
    refine (writeBlock_ends h).mono ?_ ?_
    · rintro _ mgr₁ ⟨hfault, hadd, hattrs, htxs⟩
      exact ⟨hfault, l, .inl rfl, hadd, hattrs, htxs⟩
    · rintro e mgr₁ ⟨he, hcause, rfl⟩
      refine ⟨fun he' => absurd he' he, hcause.imp_right fun hfull => ?_, l, .inl rfl, h, rfl, id⟩
      unfold Disk.Full at *
      omega

end AddBlock

/-! ### Reading -/

theorem Disk.length_lt (disk : Disk) (h : disk.files[n]? = some file) :
    n < 2 ^ 63 ∧ file.length < 2 ^ 63 := by
  obtain ⟨hn, rfl⟩ := List.getElem?_eq_some_iff.mp h
  have hfits := disk.fits
  have hle : disk.files[n].length ≤ (disk.files.map List.length).sum :=
    single_le_sum (fun _ _ => Nat.zero_le _) _ (mem_map_of_mem (getElem_mem hn))
  omega

theorem newBlockfileStream_eq (h : disk.files[n]? = some file) :
    newBlockfileStream disk n offset = .ok ⟨n, .start offset⟩ := by
  rw [newBlockfileStream, Disk.file?, Int.toNat_natCast, h]
  rfl

theorem newBlockStream_eq (h : disk.files[n]? = some file) (endFileNum : ℤ) :
    newBlockStream disk n offset endFileNum = .ok ⟨⟨n, .start offset⟩, endFileNum⟩ := by
  rw [newBlockStream, newBlockfileStream_eq h]
  rfl

section

variable (hdisk : disk.files = l.files) (hx : x ∈ l.placed)
include hdisk hx

theorem fetchBlockBytes_eq : fetchBlockBytes disk x.flp = .ok x.block.bytes := by
  obtain ⟨front, back, hfile, hoffset⟩ := l.exists_file hx
  rw [← hdisk] at hfile
  have hnext := BlockfileStream.next_frame (s := ⟨x.file, .start x.offset⟩) hfile
    (BufReader.coherent_start _ _) (by rw [← hoffset]; exact drop_left) x.block.fits
  obtain ⟨s', hnext, -⟩ := hnext
  rw [fetchBlockBytes, Placed.flp]
  rw [newBlockfileStream_eq hfile]
  change (BlockfileStream.nextBlockBytesAndPlacementInfo disk ⟨x.file, .start x.offset⟩ >>= _) = _
  rw [hnext]
  rfl

theorem Placed.flp_inRange : x.flp.InRange ∧ x.offset + (frame x.block.bytes).length < 2 ^ 63 := by
  obtain ⟨front, back, hfile, hoffset⟩ := l.exists_file hx
  rw [← hdisk] at hfile
  obtain ⟨hn, hlen⟩ := disk.length_lt hfile
  rw [length_append, length_append] at hlen
  refine ⟨⟨?_, ?_, ?_⟩, by omega⟩ <;> simp only [flp] <;> omega

theorem Placed.exists_txFlp (ht : x.block.block.transactions[t]? = some tx) :
    ∃ flp, x.txFlp? t = some flp ∧ flp.InRange ∧ fetchRawBytes disk flp = .ok tx := by
  obtain ⟨front, back, hfile, hoffset⟩ := l.exists_file hx
  rw [← hdisk] at hfile
  obtain ⟨hn, hlen⟩ := disk.length_lt hfile
  have hsucc := Block2.txOffset_succ ht
  have hle := x.block.txOffset_le (t + 1)
  have hframe := length_frame x.block.bytes
  have hbytes : x.bytesOffset = (front ++ encodeVarint x.block.bytes.length).length := by
    rw [bytesOffset, ← hoffset, length_append]
  rw [length_append, length_append] at hlen
  rw [length_append] at hbytes
  refine ⟨⟨x.file, x.bytesOffset + x.block.block.txOffset t, tx.length⟩, ?_, ⟨?_, ?_, ?_⟩, ?_⟩
  · rw [txFlp?, ht, Option.map_some]
  · dsimp only
    omega
  · dsimp only
    omega
  · dsimp only
    omega
  · have hplace : ((front ++ (frame x.block.bytes ++ back)).drop
        (x.bytesOffset + x.block.block.txOffset t)).take tx.length = tx := by
      rw [hbytes, ← length_append, frame, ← drop_drop]
      simp only [append_assoc]
      rw [← append_assoc front, drop_left, drop_append_of_le_length (by omega),
        take_append_of_le_length (by rw [length_drop]; omega)]
      exact x.block.block.drop_txOffset ht
    rw [fetchRawBytes, Disk.file?, if_pos (Int.natCast_nonneg _), Int.toNat_natCast, hfile]
    dsimp only
    have hend : (x.bytesOffset + x.block.block.txOffset t : ℤ) + tx.length ≤
        (front ++ (frame x.block.bytes ++ back)).length := by
      simp only [length_append]
      omega
    rw [if_neg (by omega), if_neg (by omega), if_pos (.inr hend), ← Nat.cast_add,
      Int.toNat_natCast, Int.toNat_natCast, hplace]

end

theorem Indexed.getBlockLocByBlockNum (h : Indexed hash attrs ps db) (hattr : .blockNum ∈ attrs)
    {i : ℕ} (hi : i + 1 < 2 ^ 64) (hx : ps[i]? = some x) (hrange : x.flp.InRange) :
    getBlockLocByBlockNum attrs db (i + 1) = .ok x.flp := by
  have hget := h.blockNum i hi
  rw [if_pos hattr, hx] at hget
  refine (getLoc_of_get hattr hget).trans ?_
  rw [FileLocPointer.unmarshal_marshal hrange]

/-- What is retrieved, or that there is nothing. -/
def found {α : Type} (result : Option α) : Except RetrieveError α :=
  result.elim (.error (.index .notFoundInIndex)) .ok

theorem Layout.block_mem (l : Layout) (hx : x ∈ l.placed) : x.block ∈ l.blocks := by
  rw [← l.map_block_placed]
  exact mem_map_of_mem hx

namespace Holds

variable {i : ℕ}

theorem getBlockLocByBlockNum (h : Holds hash l mgr) (hattr : .blockNum ∈ mgr.attrs)
    (hx : l.placed[i]? = some x) :
    BlockStore.getBlockLocByBlockNum mgr.attrs mgr.db (i + 1) = .ok x.flp := by
  have hlt := h.placed_lt
  have hi := (List.getElem?_eq_some_iff.mp hx).1
  exact h.indexed.getBlockLocByBlockNum hattr (by omega) hx
    (Placed.flp_inRange h.files (mem_of_getElem? hx)).1

theorem fetchSerBlock (h : Holds hash l mgr) (hx : x ∈ l.placed) :
    mgr.fetchSerBlock (.ok x.flp) = .ok (newSerBlock2 x.block.bytes) := by
  rw [BlockfileMgr.fetchSerBlock, fetchBlockBytes_eq h.files hx]

theorem fetchBlock (h : Holds hash l mgr) (hx : x ∈ l.placed) {block : Block2}
    (hblock : toBlock2 (newSerBlock2 x.block.bytes) = .ok block) :
    mgr.fetchBlock (.ok x.flp) = .ok block := by
  simp only [BlockfileMgr.fetchBlock, h.fetchSerBlock hx, ok_bind, hblock]

variable {b : SizedBlock2}

/-- The block of an index entry is read, if there is one. -/
theorem fetchBlock_getLoc (h : Holds hash l mgr) {attr : IndexableAttr} (hattr : attr ∈ mgr.attrs)
    (hsmall : ∀ b ∈ l.blocks, b.block.trailerOffset < 2 ^ 32) {key : IndexKey}
    {entry : Option Placed}
    (hentry : ∀ x ∈ entry, x ∈ l.placed)
    (hget : mgr.db.get key = entry.map fun x => x.flp.marshal) :
    mgr.fetchBlock (getLoc mgr.attrs mgr.db attr key.bytes) =
      found (entry.map fun x => x.block.block) := by
  cases entry with
  | none =>
    rw [getLoc_of_get_none hattr hget]
    rfl
  | some x =>
    have hmem := hentry x rfl
    rw [getLoc_of_get hattr hget,
      FileLocPointer.unmarshal_marshal (Placed.flp_inRange h.files hmem).1]
    exact h.fetchBlock hmem (x.block.toBlock2_bytes (hsmall _ (l.block_mem hmem)))

theorem exists_placed (hb : l.blocks[i]? = some b) : ∃ x, l.placed[i]? = some x ∧ x.block = b := by
  rwa [← l.map_block_placed, List.getElem?_map, Option.map_eq_some_iff] at hb

theorem retrieveBlockByNumber (h : Holds hash l mgr) (hattr : .blockNum ∈ mgr.attrs)
    (hsmall : ∀ b ∈ l.blocks, b.block.trailerOffset < 2 ^ 32) (hi : i + 1 < 2 ^ 64) :
    mgr.retrieveBlockByNumber (i + 1) = found (l.blocks[i]?.map SizedBlock2.block) := by
  have hget := h.indexed.blockNum i hi
  rw [if_pos hattr] at hget
  rw [← l.map_block_placed, List.getElem?_map, Option.map_map]
  exact h.fetchBlock_getLoc hattr hsmall (fun x hx => mem_of_getElem? hx) hget

theorem retrieveBlockByHash (h : Holds hash l mgr) (hattr : .blockHash ∈ mgr.attrs)
    (hsmall : ∀ b ∈ l.blocks, b.block.trailerOffset < 2 ^ 32) (blockHash : Bytes) :
    mgr.retrieveBlockByHash blockHash =
      found ((l.blocks.reverse.find? fun b => hash b.bytes = blockHash).map SizedBlock2.block) := by
  have hget := h.indexed.blockHash blockHash
  rw [if_pos hattr] at hget
  rw [← l.map_block_placed, ← map_reverse, List.find?_map, Option.map_map]
  exact h.fetchBlock_getLoc hattr hsmall
    (fun x hx => mem_reverse.mp (mem_of_find?_eq_some hx)) hget

theorem retrieveTransactionByID (h : Holds hash l mgr) (htxs : HoldsTxs l mgr)
    (hattr : .txID ∈ mgr.attrs) (hi : i + 1 < 2 ^ 64) {τ : Type}
    (extractTransaction : Bytes → Option τ) :
    mgr.retrieveTransactionByID extractTransaction (constructTxID (i + 1) t) =
      (found (l.blocks[i]?.bind fun b => b.block.transactions[t]?) >>= fun tx =>
        (extractTransaction tx).elim (.error .transaction) .ok) := by
  have hget := htxs i t hi
  rw [if_pos hattr] at hget
  rw [← l.map_block_placed, List.getElem?_map, BlockfileMgr.retrieveTransactionByID]
  cases hx : l.placed[i]? with
  | none =>
    rw [hx] at hget
    have hloc : getTxLoc mgr.attrs mgr.db (constructTxID (i + 1) t) = _ :=
      getLoc_of_get_none hattr hget
    rw [hloc]
    rfl
  | some x =>
    rw [hx, Option.bind_some] at hget
    cases htx : x.block.block.transactions[t]? with
    | none =>
      rw [Placed.txFlp?, htx] at hget
      have hloc : getTxLoc mgr.attrs mgr.db (constructTxID (i + 1) t) = _ :=
        getLoc_of_get_none hattr hget
      rw [hloc]
      simp [htx, found]
    | some tx =>
      obtain ⟨flp, hflp, hrange, hraw⟩ := x.exists_txFlp h.files (mem_of_getElem? hx) htx
      rw [hflp] at hget
      have hloc : getTxLoc mgr.attrs mgr.db (constructTxID (i + 1) t) = _ :=
        getLoc_of_get hattr hget
      rw [hloc]
      dsimp only
      rw [FileLocPointer.unmarshal_marshal hrange, hraw]
      cases hextract : extractTransaction tx with
      | none => simp [hextract, found, htx]
      | some => simp [hextract, found, htx]

end Holds

end Fabric.BlockStore
