import Fabric.BlockStore.Store

/-!
# Opening the manager

The files may end with a part of a block, the checkpoint may be that of an earlier block of
the last file, and the index may lag behind. A scan of the last file brings the checkpoint up to
date and cuts the file behind its last whole block; then the blocks that follow the last one
indexed are read.
-/

namespace Fabric.BlockStore

open Fabric.Common List Layout BlockfileMgr

variable {hash : Bytes → Bytes} {attrs : List IndexableAttr} {ps ps' qs : List Placed} {x : Placed}
  {disk : Disk} {db : DB} {l : Layout}

/-! ### The checkpoint -/

theorem CheckpointInfo.decodes_marshal {i : CheckpointInfo}
    (hsuffix : i.latestFileChunkSuffixNum < 2 ^ 64) (hsize : i.latestFileChunksize < 2 ^ 64)
    (hlast : i.lastBlockNumber < 2 ^ 64) : Decodes unmarshal i.marshal i := by
  apply (decodes_encodeVarint hsuffix).bind
  apply (decodes_encodeVarint hsize).bind
  rw [← append_nil (encodeVarint _)]
  apply (decodes_encodeVarint hlast).bind
  exact Decodes.pure _

/-- What a process leaves: whole blocks and a part of one in the files, the checkpoint behind some
block of the last file, and an index of the first blocks. -/
structure Stored (hash : Bytes → Bytes) (attrs : List IndexableAttr) (l : Layout) (torn : Bytes)
    (indexed : ℕ) (disk : Disk) (db : DB) : Prop where
  files : disk.files = l.front.map chunkBytes ++ [chunkBytes l.last ++ torn]
  torn : Torn torn
  saved : ∃ done, done <+: l.last ∧
    db.get .blkMgrInfo = some (Layout.checkpoint ⟨l.front, done⟩).marshal
  index : Indexed hash attrs (l.placed.take indexed) db
  indexed_le : indexed ≤ l.blocks.length

variable {done todo : List SizedBlock2} {mgr : BlockfileMgr}

theorem Layout.checkpoint_eq (h : l.last = done ++ todo) :
    l.checkpoint = ⟨l.front.length, (chunkBytes done).length + (chunkBytes todo).length,
      (checkpoint ⟨l.front, done⟩).lastBlockNumber + todo.length⟩ := by
  simp [checkpoint, blocks, chunks, h, Nat.add_assoc]

theorem loadCurrentInfo_eq (hsum : l.blocks.length + l.files.length < 2 ^ 63)
    (hsize : (chunkBytes l.last).length < 2 ^ 63) (hlast : l.last = done ++ todo)
    (hsaved : db.get .blkMgrInfo = some (checkpoint ⟨l.front, done⟩).marshal) :
    loadCurrentInfo db = .ok (checkpoint ⟨l.front, done⟩, db) := by
  have hnumber := congrArg CheckpointInfo.lastBlockNumber (checkpoint_eq hlast)
  rw [hlast, chunkBytes_append, length_append] at hsize
  rw [l.length_files] at hsum
  simp only [checkpoint] at hnumber
  have hdecodes : Decodes CheckpointInfo.unmarshal
      (checkpoint ⟨l.front, done⟩).marshal (checkpoint ⟨l.front, done⟩) := by
    apply CheckpointInfo.decodes_marshal <;> simp only [checkpoint] <;> omega
  have hdecode := hdecodes []
  rw [append_nil] at hdecode
  rw [loadCurrentInfo, hsaved]
  dsimp only
  rw [hdecode]

theorem syncCPInfoFromFS_eq {torn : Bytes}
    (hfiles : disk.files = l.front.map chunkBytes ++ [chunkBytes l.last ++ torn])
    (htorn : Torn torn) (hlast : l.last = done ++ todo) :
    syncCPInfoFromFS disk (checkpoint ⟨l.front, done⟩) = .ok l.checkpoint := by
  have hfile : disk.files[l.front.length]? =
      some (chunkBytes done ++ (frames (todo.map SizedBlock2.bytes) ++ torn)) := by
    have hlen : l.front.length = (l.front.map chunkBytes).length := (length_map _).symm
    rw [hfiles, hlen, List.getElem?_concat_length, hlast, chunkBytes_append, append_assoc]
    rfl
  have hscan :=
    scanForLastCompleteBlock_eq hfile (by
      intro b hb
      obtain ⟨c, -, rfl⟩ := mem_map.mp hb
      exact c.fits) htorn
  have hsuffix : (checkpoint ⟨l.front, done⟩).latestFileChunkSuffixNum = l.front.length := rfl
  have hsize : (checkpoint ⟨l.front, done⟩).latestFileChunksize = (chunkBytes done).length := rfl
  have hfile' : disk.file? l.front.length = _ :=
    (if_pos (Int.natCast_nonneg _)).trans hfile
  rw [checkpoint_eq hlast, syncCPInfoFromFS, hsuffix, hsize, hfile', hscan]
  dsimp only
  split_ifs with hwhole
  · -- the file ends at the checkpoint
    have htodo : todo = [] := by
      have hle := length_le_length_frames (todo.map SizedBlock2.bytes)
      rw [length_append, length_append] at hwhole
      rw [length_map] at hle
      exact length_eq_zero_iff.mp (by omega)
    rw [htodo]
    rfl
  · rw [length_map]
    rfl

section Stored

variable {torn : Bytes} {indexed : ℕ}

theorem Stored.sum_lt (h : Stored hash attrs l torn indexed disk db) :
    l.blocks.length + l.files.length < 2 ^ 63 ∧ (chunkBytes l.last).length < 2 ^ 63 := by
  have hfits := disk.fits
  have hblocks := l.length_blocks_le
  rw [h.files] at hfits
  rw [l.files_eq] at hblocks ⊢
  simp only [map_append, map_cons, sum_append, sum_cons,
    length_append, length_singleton] at hfits hblocks ⊢
  omega

theorem Stored.exists_checkpoint (h : Stored hash attrs l torn indexed disk db) :
    ∃ cpInfo, loadCurrentInfo db = .ok (cpInfo, db) ∧
      syncCPInfoFromFS disk cpInfo = .ok l.checkpoint := by
  obtain ⟨done, ⟨todo, hlast⟩, hsaved⟩ := h.saved
  refine ⟨checkpoint ⟨l.front, done⟩, ?_, ?_⟩
  · exact loadCurrentInfo_eq h.sum_lt.1 h.sum_lt.2 hlast.symm hsaved
  · exact syncCPInfoFromFS_eq h.files h.torn hlast.symm

end Stored

/-! ### The index -/

/-- What `syncIndex` writes to the index for a block. -/
def Placed.syncInfo (hash : Bytes → Bytes) (x : Placed) (blockNum : ℕ) (txOffsets : List ℤ) :
    BlockIdxInfo where
  blockNum := blockNum
  blockHash := hash x.block.bytes
  flp := x.flp
  txOffsets := txOffsets.map fun o => int (uint64 (o + x.bytesOffset))

/-- The offsets of the transactions are found in the bytes of the block. -/
def Placed.Parses (x : Placed) : Prop :=
  ∃ txOffsets, getTxOffsets (newSerBlock2 x.block.bytes) = .ok txOffsets

/-- The index after a stream has read the blocks. It stops at one whose offsets are not
found. -/
def reindex (hash : Bytes → Bytes) (attrs : List IndexableAttr) : ℕ → List Placed → DB → DB
  | _, [], db => db
  | blockNum, x :: qs, db =>
    match getTxOffsets (newSerBlock2 x.block.bytes) with
    | .error _ => db
    | .ok txOffsets =>
      reindex hash attrs (blockNum + 1) qs
        (indexBlock attrs (x.syncInfo hash blockNum txOffsets) db)

theorem syncIndexLoop_eq {s : BlockfileStream} (hs : Reads disk s qs) {endFileNum : ℤ}
    (hend : endFileNum = (disk.files.length : ℤ) - 1) {fuel : ℕ} (hfuel : qs.length < fuel)
    (n : ℕ) (db : DB) :
    syncIndexLoop hash attrs disk fuel ⟨s, endFileNum⟩ n db = .ok (reindex hash attrs n qs db) := by
  induction qs generalizing s fuel n db with
  | nil =>
    obtain ⟨fuel, rfl⟩ := Nat.exists_eq_succ_of_ne_zero (Nat.ne_of_gt hfuel)
    obtain ⟨s', hnext⟩ := hs.next_end hend
    rw [syncIndexLoop, hnext]
    rfl
  | cons x _ ih =>
    obtain ⟨fuel, rfl⟩ := Nat.exists_eq_succ_of_ne_zero (Nat.ne_of_gt (Nat.zero_lt_of_lt hfuel))
    obtain ⟨s', hnext, hs'⟩ := hs.next (.inr hend.ge)
    have hpanic := x.block.getTxOffsets_ne_panic
    rw [syncIndexLoop, hnext, reindex]
    dsimp only
    cases hoffsets : getTxOffsets (newSerBlock2 x.block.bytes) with
    | error e =>
      cases e with
      | decode => rfl
      | sliceOutOfRange => exact absurd hoffsets hpanic
    | ok =>
      exact ih hs' (Nat.lt_of_succ_lt_succ hfuel) _ _

/-- The blocks are indexed up to some number, the last one's if all offsets are found. -/
theorem reindex_indexed (h : Indexed hash attrs ps' db)
    (hps : ps' = ps ∨ ∃ x qs', qs = x :: qs' ∧ ps' = ps ++ [x])
    (hlt : (ps ++ qs).length + 1 < 2 ^ 64) :
    ∃ n, Indexed hash attrs ((ps ++ qs).take n) (reindex hash attrs (ps.length + 1) qs db) ∧
      ((ps ++ qs).length ≤ n ↔ ps' = ps ++ qs ∨ ∀ x ∈ qs, x.Parses) := by
  induction qs generalizing ps ps' db with
  | nil =>
    rcases hps with rfl | ⟨x, qs', hnil, -⟩
    · refine ⟨ps'.length, ?_, by simp⟩
      rwa [append_nil, take_length]
    · cases hnil
  | cons x qs ih =>
    rw [reindex]
    cases hoffsets : getTxOffsets (newSerBlock2 x.block.bytes) with
    | error =>
      -- nothing more is indexed
      have hnot : ¬ ∀ y ∈ x :: qs, y.Parses := by
        intro hall
        obtain ⟨txOffsets, hok⟩ := hall x mem_cons_self
        rw [hoffsets] at hok
        cases hok
      have hpre : ps' <+: ps ++ x :: qs := by
        rcases hps with rfl | ⟨y, qs', heq, rfl⟩
        · exact prefix_append _ _
        · cases heq
          exact ⟨qs, by simp⟩
      refine ⟨ps'.length, ?_, ?_⟩
      · rwa [← prefix_iff_eq_take.mp hpre]
      · constructor
        · exact fun hle => .inl (hpre.eq_of_length_le hle)
        · rintro (heq | hall)
          · rw [heq]
          · exact absurd hall hnot
    | ok txOffsets =>
      have hps' : ps' = ps ∨ ps' = ps ++ [x] := by
        rcases hps with hps | ⟨y, qs', heq, hps⟩
        · exact .inl hps
        · cases heq
          exact .inr hps
      have hone : Indexed hash attrs (ps ++ [x])
          (indexBlock attrs (x.syncInfo hash (ps.length + 1) txOffsets) db) :=
        h.index hps' rfl rfl rfl (by rw [length_append] at hlt; omega)
      have happend : ps ++ x :: qs = ps ++ [x] ++ qs := by simp
      rw [happend] at hlt ⊢
      obtain ⟨n, hn, hiff⟩ := ih hone (.inl rfl) hlt
      rw [length_append] at hn
      refine ⟨n, hn, hiff.trans ?_⟩
      have hx : x.Parses := ⟨txOffsets, hoffsets⟩
      constructor
      · rintro (heq | hall)
        · rw [self_eq_append_right] at heq
          rw [heq]
          exact .inr (by simpa using hx)
        · exact .inr (forall_mem_cons.mpr ⟨hx, hall⟩)
      · rintro (heq | hall)
        · left
          rcases hps' with rfl | rfl
          · simp at heq
          · exact heq
        · exact .inr (forall_mem_cons.mp hall).2

theorem get_reindex_blkMgrInfo {n : ℕ} (hlt : n + qs.length < 2 ^ 64) :
    (reindex hash attrs n qs db).get .blkMgrInfo = db.get .blkMgrInfo := by
  induction qs generalizing n db with
  | nil => rfl
  | cons x _ ih =>
    rw [length_cons] at hlt
    rw [reindex]
    cases getTxOffsets (newSerBlock2 x.block.bytes) with
    | error => rfl
    | ok txOffsets =>
      have hnum : (x.syncInfo hash n txOffsets).blockNum < 2 ^ 64 := by
        simp only [Placed.syncInfo]
        omega
      rw [ih (by omega), indexBlock_blkMgrInfo hnum]

theorem Indexed.getLastBlockIndexed (h : Indexed hash attrs ps db) (hlt : ps.length < 2 ^ 64) :
    getLastBlockIndexed db = if attrs = [] then 0 else ps.length := by
  rw [BlockStore.getLastBlockIndexed, h.checkpoint]
  by_cases hattrs : attrs = []
  · simp [hattrs]
  · by_cases hnil : ps = []
    · simp [hnil]
    · have hdecode := decodeVarintPrefix_encodeVarint hlt []
      rw [append_nil] at hdecode
      simp [hattrs, hnil, hdecode]

theorem syncIndex_eq {indexed : ℕ} (hdisk : disk.files = l.files)
    (h : Indexed hash attrs (l.placed.take indexed) db)
    (hfound : .blockNum ∈ attrs ∨ l.placed = []) (hindexed : indexed ≤ l.placed.length) :
    syncIndex hash attrs disk l.checkpoint db =
      .ok (reindex hash attrs (indexed - 1 + 1) (l.placed.drop (indexed - 1)) db) := by
  have hlt := placed_lt hdisk
  have hlength := length_take_of_le hindexed
  have hlast := h.getLastBlockIndexed (by omega)
  have hend : ((l.checkpoint.latestFileChunkSuffixNum) : ℤ) = (disk.files.length) - 1 := by
    rw [hdisk, l.length_files]
    simp [checkpoint]
  have hfuel : l.placed.length < (disk.files.map List.length).sum + 1 := by
    have hle := l.length_blocks_le
    rw [← hdisk, ← l.length_placed] at hle
    omega
  rw [hlength] at hlast
  unfold syncIndex
  dsimp only
  by_cases hzero : indexed = 0
  · -- all blocks are read
    have hfile : ∃ file, disk.files[0]? = some file := by
      rw [hdisk]
      exact ⟨_, List.getElem?_eq_getElem (by rw [l.length_files]; omega)⟩
    obtain ⟨file, hfile⟩ := hfile
    have hopen : newBlockStream disk 0 0 l.checkpoint.latestFileChunkSuffixNum = _ :=
      newBlockStream_eq hfile _
    rw [if_pos (by rw [hlast, hzero, ite_self]), hopen, hzero]
    exact syncIndexLoop_eq (reads_all hdisk) hend hfuel 1 db
  · -- the first block that is read was indexed before
    have hne : l.placed ≠ [] := by
      intro hnil
      rw [hnil, length_nil] at hindexed
      omega
    have hattr := hfound.resolve_right hne
    obtain ⟨i, rfl⟩ := Nat.exists_eq_succ_of_ne_zero hzero
    obtain ⟨x, hx⟩ : ∃ x, l.placed[i]? = some x := ⟨_, List.getElem?_eq_getElem hindexed⟩
    have hmem := mem_of_getElem? hx
    have hloc : getBlockLocByBlockNum attrs db (i + 1) = .ok x.flp := by
      refine h.getBlockLocByBlockNum hattr (by omega) ?_ (Placed.flp_inRange hdisk hmem).1
      rw [List.getElem?_take_of_lt (Nat.lt_succ_self i), hx]
    obtain ⟨front, back, hfile, -⟩ := exists_file hmem
    rw [← hdisk] at hfile
    have hopen : newBlockStream disk x.flp.fileSuffixNum x.flp.offset
        l.checkpoint.latestFileChunkSuffixNum = _ := newBlockStream_eq hfile _
    rw [hlast, if_neg (ne_nil_of_mem hattr), hloc]
    dsimp only
    rw [hopen]
    exact syncIndexLoop_eq (reads_drop hdisk hx) hend
      (by rw [length_drop]; omega) (i + 1) db

/-! ### The blockchain info -/

theorem Holds.loadBlockchainInfo (h : Holds hash l mgr)
    (hfound : .blockNum ∈ mgr.attrs ∨ l.blocks = []) :
    mgr.loadBlockchainInfo hash = .ok (chainInfo hash l.blocks) := by
  have hnumber : mgr.cpInfo.lastBlockNumber = l.blocks.length := by
    rw [h.cpInfo]
    rfl
  rcases eq_nil_or_concat' l.blocks with hnil | ⟨bs, b, hblocks⟩
  · rw [BlockfileMgr.loadBlockchainInfo, hnumber, hnil]
    rfl
  · have hattr := hfound.resolve_right (by simp [hblocks])
    have hb : l.blocks[bs.length]? = some b := by rw [hblocks, List.getElem?_concat_length]
    obtain ⟨x, hx, rfl⟩ := exists_placed hb
    have hlength : l.blocks.length = bs.length + 1 := by simp [hblocks]
    have hlast : mgr.retrieveSerBlockByNumber (bs.length + 1) =
        .ok (newSerBlock2 x.block.bytes) := by
      rw [BlockfileMgr.retrieveSerBlockByNumber, h.getBlockLocByBlockNum hattr hx]
      exact h.fetchSerBlock (mem_of_getElem? hx)
    rw [BlockfileMgr.loadBlockchainInfo, hnumber, hlength, hlast]
    dsimp only [newSerBlock2]
    rw [x.block.extractPreviousBlockHash_bytes, chainInfo, hblocks, List.getLast?_concat,
      length_append]
    rfl

theorem loadBlockchainInfo_error {n : ℕ} (hnumber : mgr.cpInfo.lastBlockNumber = n + 1)
    (hlast : .blockNum ∈ mgr.attrs → mgr.db.get (.blockNum (n + 1)) = none) :
    ∃ e, mgr.loadBlockchainInfo hash = .error e := by
  have hloc : ∃ e, getBlockLocByBlockNum mgr.attrs mgr.db (n + 1) = .error e := by
    unfold getBlockLocByBlockNum getLoc
    by_cases hattr : IndexableAttr.blockNum ∈ mgr.attrs
    · have hget : mgr.db (constructBlockNumKey (n + 1)) = none := hlast hattr
      rw [if_pos hattr, hget]
      exact ⟨_, rfl⟩
    · rw [if_neg hattr]
      exact ⟨_, rfl⟩
  obtain ⟨e, hloc⟩ := hloc
  rw [loadBlockchainInfo, hnumber, retrieveSerBlockByNumber, hloc]
  exact ⟨_, rfl⟩

/-! ### Opening the manager -/

section Open

variable {torn : Bytes} {indexed : ℕ} {maxBlockfileSize : ℤ}

/-- The files are cut behind the last whole block, and the index is brought up to date. -/
theorem newBlockfileMgr_eq (h : Stored hash attrs l torn indexed disk db) (maxBlockfileSize : ℤ) :
    ∃ disk', disk'.files = l.files ∧ newBlockfileMgr hash maxBlockfileSize attrs disk db =
        (syncIndex hash attrs disk' l.checkpoint db >>= fun db' =>
          loadBlockchainInfo hash
            ⟨maxBlockfileSize, attrs, disk', db', l.checkpoint, l.front.length, ⟨0, [], []⟩⟩ >>=
          fun bcInfo => pure
            ⟨maxBlockfileSize, attrs, disk', db', l.checkpoint, l.front.length, bcInfo⟩) := by
  have hopen : disk.openWriter l.front.length = some disk := by
    rw [Disk.openWriter, if_pos]
    rw [h.files, length_append, length_map]
    exact Nat.lt_succ_self _
  refine ⟨disk.truncateFile l.front.length (chunkBytes l.last).length, ?_, ?_⟩
  · have hlength : l.front.length = (l.front.map chunkBytes).length := (length_map _).symm
    rw [Disk.files_truncateFile, h.files, l.files_eq, hlength, modify_concat, take_left]
  · obtain ⟨cpInfo, hload, hsync⟩ := h.exists_checkpoint
    have hsuffix : l.checkpoint.latestFileChunkSuffixNum = l.front.length := rfl
    have hsize : l.checkpoint.latestFileChunksize = (chunkBytes l.last).length := rfl
    unfold newBlockfileMgr
    simp only [hload, hsync, hsuffix, hsize, hopen, ok_bind]

/-- There is no block, or numbers are indexed and the index is brought up to date. -/
def FindsLast (attrs : List IndexableAttr) (l : Layout) (indexed : ℕ) : Prop :=
  l.blocks = [] ∨ .blockNum ∈ attrs ∧
    (indexed = l.blocks.length ∨ ∀ x ∈ l.placed.drop (indexed - 1), x.Parses)

theorem reindex_drop (hdisk : disk.files = l.files)
    (h : Indexed hash attrs (l.placed.take indexed) db) (hindexed : indexed ≤ l.blocks.length) :
    ∃ n, Indexed hash attrs (l.placed.take n)
        (reindex hash attrs (indexed - 1 + 1) (l.placed.drop (indexed - 1)) db) ∧
      (l.blocks.length ≤ n ↔
        indexed = l.blocks.length ∨ ∀ x ∈ l.placed.drop (indexed - 1), x.Parses) := by
  have hlt := placed_lt hdisk
  rw [← l.length_placed] at *
  have hlength : (l.placed.take (indexed - 1)).length = indexed - 1 :=
    length_take_of_le (by omega)
  have hsplit := take_append_drop (indexed - 1) l.placed
  have hps : l.placed.take indexed = l.placed.take (indexed - 1) ∨ ∃ x qs',
      l.placed.drop (indexed - 1) = x :: qs' ∧
        l.placed.take indexed = l.placed.take (indexed - 1) ++ [x] := by
    cases indexed with
    | zero => exact .inl rfl
    | succ => exact .inr ⟨_, _, drop_eq_getElem_cons hindexed, (take_append_getElem hindexed).symm⟩
  have hre := reindex_indexed h hps (by rwa [hsplit])
  rw [hsplit, hlength] at hre
  obtain ⟨n, hn, hiff⟩ := hre
  refine ⟨n, hn, hiff.trans (or_congr_left ?_)⟩
  rw [take_eq_self_iff]
  omega

section

variable (h : Stored hash attrs l torn indexed disk db)
include h

theorem Stored.exists_holds (hlast : FindsLast attrs l indexed) (maxBlockfileSize : ℤ) :
    ∃ mgr, newBlockfileMgr hash maxBlockfileSize attrs disk db = .ok mgr ∧ Holds hash l mgr ∧
      mgr.attrs = attrs ∧
      mgr.db = reindex hash attrs (indexed - 1 + 1) (l.placed.drop (indexed - 1)) db := by
  obtain ⟨disk', hdisk', hopen⟩ := newBlockfileMgr_eq h maxBlockfileSize
  have hfound := hlast.symm.imp_left And.left
  have hnil : l.blocks = [] ↔ l.placed = [] := by
    rw [← length_eq_zero_iff, ← l.length_placed, length_eq_zero_iff]
  have hsync := syncIndex_eq hdisk' h.index (hfound.imp_right hnil.mp)
    (by rw [l.length_placed]; exact h.indexed_le)
  obtain ⟨n, hn, hiff⟩ := reindex_drop hdisk' h.index h.indexed_le
  have hall : l.placed.take n = l.placed := by
    rcases hlast with hblocks | ⟨-, hlast⟩
    · rw [hnil.mp hblocks, take_nil]
    · rw [take_eq_self_iff, l.length_placed]
      exact hiff.mpr hlast
  have hlt := placed_lt hdisk'
  have hindexed := h.indexed_le
  rw [← l.length_placed] at hindexed
  have hsaved := h.saved
  have hlt' : indexed - 1 + 1 + (l.placed.drop (indexed - 1)).length < 2 ^ 64 := by
    rw [length_drop]
    omega
  rw [← get_reindex_blkMgrInfo hlt'] at hsaved
  rw [hall] at hn
  have hholds : Holds hash l ⟨maxBlockfileSize, attrs, disk', _, l.checkpoint, l.front.length,
      chainInfo hash l.blocks⟩ := ⟨hdisk', rfl, rfl, hsaved, hn, rfl⟩
  have hinfo := hholds.loadBlockchainInfo hfound
  refine ⟨_, ?_, hholds, rfl, rfl⟩
  rw [hopen, hsync]
  change (loadBlockchainInfo hash ⟨maxBlockfileSize, attrs, disk', _, l.checkpoint,
    l.front.length, chainInfo hash l.blocks⟩ >>= _) = _
  rw [hinfo]
  rfl

theorem Stored.exists_error (hlast : ¬ FindsLast attrs l indexed) (maxBlockfileSize : ℤ) :
    ∃ e, newBlockfileMgr hash maxBlockfileSize attrs disk db = .error e := by
  obtain ⟨disk', hdisk', hopen⟩ := newBlockfileMgr_eq h maxBlockfileSize
  have hlt := placed_lt hdisk'
  rw [FindsLast, not_or] at hlast
  obtain ⟨hne, hlast⟩ := hlast
  obtain ⟨k, hk⟩ := Nat.exists_eq_succ_of_ne_zero (mt length_eq_zero_iff.mp hne)
  rw [hopen]
  cases hsync : syncIndex hash attrs disk' l.checkpoint db with
  | error e => exact ⟨e, rfl⟩
  | ok db' =>
    have herror : ∃ e, loadBlockchainInfo hash ⟨maxBlockfileSize, attrs, disk', db',
        l.checkpoint, l.front.length, ⟨0, [], []⟩⟩ = .error e := by
      refine loadBlockchainInfo_error hk fun hattr => ?_
      -- the numbers are indexed, but not that of the last block
      have hindexed : indexed ≤ l.placed.length := by rw [l.length_placed]; exact h.indexed_le
      obtain ⟨n, hn, hiff⟩ := reindex_drop hdisk' h.index h.indexed_le
      have hle : ¬ l.blocks.length ≤ n := fun hle => hlast ⟨hattr, hiff.mp hle⟩
      rw [syncIndex_eq hdisk' h.index (.inl hattr) hindexed] at hsync
      cases hsync
      have hnone : (l.placed.take n)[k]? = none := by
        rw [List.getElem?_eq_none_iff, length_take]
        omega
      have hnum := hn.blockNum k (by rw [l.length_placed] at hlt; omega)
      rwa [if_pos hattr, hnone] at hnum
    obtain ⟨e, he⟩ := herror
    refine ⟨e, ?_⟩
    change (loadBlockchainInfo hash ⟨maxBlockfileSize, attrs, disk', db',
      l.checkpoint, l.front.length, ⟨0, [], []⟩⟩ >>= _) = _
    rw [he]
    rfl

theorem Stored.holds (hmgr : newBlockfileMgr hash maxBlockfileSize attrs disk db = .ok mgr) :
    FindsLast attrs l indexed ∧ Holds hash l mgr ∧ mgr.attrs = attrs ∧
      mgr.db = reindex hash attrs (indexed - 1 + 1) (l.placed.drop (indexed - 1)) db := by
  have hlast : FindsLast attrs l indexed := by
    by_contra hlast
    obtain ⟨e, he⟩ := h.exists_error hlast maxBlockfileSize
    rw [hmgr] at he
    cases he
  obtain ⟨mgr', hmgr', hholds⟩ := h.exists_holds hlast maxBlockfileSize
  rw [hmgr] at hmgr'
  cases hmgr'
  exact ⟨hlast, hholds⟩

end

/-- The manager is opened with the whole blocks, and what follows them is cut off. -/
def Recovers (hash : Bytes → Bytes) (maxBlockfileSize : ℤ) (attrs : List IndexableAttr)
    (l : Layout) (disk : Disk) (db : DB) : Prop :=
  ∃ mgr, newBlockfileMgr hash maxBlockfileSize attrs disk db = .ok mgr ∧
    mgr.cpInfo = l.checkpoint ∧ mgr.disk.files = l.files

/-- The manager is opened with exactly the whole blocks if the last one is found, or not at all. -/
theorem recovers_iff (h : Stored hash attrs l torn indexed disk db) :
    Recovers hash maxBlockfileSize attrs l disk db ↔ FindsLast attrs l indexed := by
  constructor
  · rintro ⟨mgr, hmgr, -⟩
    exact (h.holds hmgr).1
  · intro hlast
    obtain ⟨mgr, hmgr, hholds, -⟩ := h.exists_holds hlast maxBlockfileSize
    exact ⟨mgr, hmgr, hholds.cpInfo, hholds.files⟩

end Open

/-! ### A block that was not saved

A process stops after it has written a block and the first byte of another one: neither the
checkpoint nor the index was written. -/

/-- A block with a transaction. -/
def txBlock : SizedBlock2 := ⟨⟨[], [[7]]⟩, by decide +kernel⟩

def unsavedDisk : Disk := ⟨[chunkBytes [txBlock] ++ [1]], by decide +kernel⟩

def unsavedDB : DB := DB.empty.put .blkMgrInfo (Layout.checkpoint ⟨[], []⟩).marshal

theorem stored_unsaved (hash : Bytes → Bytes) (attrs : List IndexableAttr) :
    Stored hash attrs ⟨[], [txBlock]⟩ [1] 0 unsavedDisk unsavedDB where
  files := rfl
  torn := ⟨[0], by decide +kernel, by decide +kernel, by decide +kernel⟩
  saved := ⟨[], nil_prefix, DB.get_put_self⟩
  index := (Indexed.of_empty hash attrs).put _
  indexed_le := Nat.zero_le _

theorem recovers_unsaved : Recovers id 100 [.blockNum] ⟨[], [txBlock]⟩ unsavedDisk unsavedDB := by
  refine (recovers_iff (stored_unsaved id _)).mpr (.inr ⟨mem_singleton_self _, .inr ?_⟩)
  intro x hx
  have hblock : x.block = txBlock := by
    have hmem := mem_map_of_mem (f := Placed.block) (mem_of_mem_drop hx)
    exact mem_singleton.mp hmem
  rw [Placed.Parses, hblock]
  exact ⟨_, txBlock.getTxOffsets_bytes (by decide +kernel)⟩

/-- If only the hashes are indexed, the manager is not opened. -/
theorem not_recovers_unsaved :
    ¬ Recovers id 100 [.blockHash] ⟨[], [txBlock]⟩ unsavedDisk unsavedDB := by
  rintro ⟨mgr, hmgr, -⟩
  have hlast : ¬ FindsLast [.blockHash] ⟨[], [txBlock]⟩ 0 := by
    simp [FindsLast, Layout.blocks, Layout.chunks]
  exact hlast ((stored_unsaved id _).holds hmgr).1

end Fabric.BlockStore
