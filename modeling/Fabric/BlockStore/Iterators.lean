import Fabric.BlockStore.Concurrent
import Fabric.BlockStore.Reopen

/-!
# Iterators beside a writer

An iterator reads a file that is being written. The bytes of a block are in its file, and its
place in the index, before the number of the last block is raised. Files only grow, so that what
an iterator has read ahead stays right, and a file that is not the last one is never written
again.
-/

namespace Fabric.BlockStore

open Fabric.Common List Reader

variable {hash : Bytes → Bytes} {l l' : Layout} {mgr mgr' : BlockfileMgr} {x : Placed}
  {rest : List Placed}

/-! ### The blocks in growing files -/

/-- What iterators see: blocks in files, some bytes of the next one, and the published index. -/
structure Shows (l : Layout) (mgr : BlockfileMgr) : Prop where
  files : ∃ tail, mgr.disk.files = l.front.map chunkBytes ++ [chunkBytes l.last ++ tail]
  published : mgr.cpInfo.lastBlockNumber ≤ l.placed.length
  located : ∀ i x, i < mgr.cpInfo.lastBlockNumber → l.placed[i]? = some x →
    getBlockLocByBlockNum mgr.attrs mgr.db (i + 1) = .ok x.flp
  noBlock : ∃ e, getBlockLocByBlockNum mgr.attrs mgr.db 0 = .error e

/-- What a step of the writer may change. -/
structure Extends (l : Layout) (mgr : BlockfileMgr) (l' : Layout) (mgr' : BlockfileMgr) : Prop where
  published : mgr.cpInfo.lastBlockNumber ≤ mgr'.cpInfo.lastBlockNumber
  files : ∀ n, mgr.disk.files.getD n [] <+: mgr'.disk.files.getD n []
  placed : l.placed <+: l'.placed
  stands : ∀ fileNum offset k, k ≤ l.placed.length →
    Stands l.files fileNum offset (l.placed.drop k) →
      Stands l'.files fileNum offset (l'.placed.drop k)

theorem file_of_mem_placedFrom {file : ℕ} {cs : List (List SizedBlock2)}
    (hx : x ∈ placedFrom file cs) : file ≤ x.file := by
  induction cs generalizing file with
  | nil => cases hx
  | cons _ _ ih =>
    rw [placedFrom, mem_append] at hx
    rcases hx with hx | hx
    · obtain ⟨ps, qs, hsplit⟩ := append_of_mem hx
      obtain ⟨pre, post, -, hfile, -⟩ := exists_of_placeFrom_eq hsplit
      exact hfile.ge
    · exact Nat.le_of_succ_le (ih hx)

variable {files : List Bytes} {stream : BlockStream} {pc : NextPC}

/-- The next block stands where the stream is, or the stream is at the end of an earlier file. -/
theorem Stands.cases {fileNum offset : ℕ} (h : Stands files fileNum offset (x :: rest)) :
    x.file = fileNum ∧ x.offset = offset ∨
      ∃ file, files[fileNum]? = some file ∧ file.length = offset ∧ fileNum + 1 < files.length ∧
        Stands files (fileNum + 1) 0 (x :: rest) := by
  obtain ⟨front, post, cs, hfiles, hoffset, hrest⟩ := h
  cases post with
  | cons =>
    cases hrest
    exact .inl ⟨rfl, rfl⟩
  | nil =>
    cases cs with
    | nil => cases hrest
    | cons c cs =>
      have hlen := congrArg List.length hfiles
      rw [length_drop, length_cons, length_map, length_cons] at hlen
      refine .inr ⟨_, getElem?_of_drop_eq_cons hfiles, by simp [hoffset], by omega, ?_⟩
      refine ⟨[], c, cs, ?_, rfl, hrest⟩
      rw [drop_add_one_eq_tail_drop, hfiles]
      rfl

theorem Stands.fileNum_lt {fileNum offset : ℕ} (h : Stands files fileNum offset rest) :
    fileNum < files.length := by
  obtain ⟨front, post, cs, hfiles, -⟩ := h
  have hlen := congrArg List.length hfiles
  rw [length_drop, length_cons] at hlen
  omega

theorem Stands.tail {fileNum offset : ℕ} (h : Stands files fileNum offset (x :: rest))
    (hfile : x.file = fileNum) :
    Stands files fileNum (offset + (frame x.block.bytes).length) rest := by
  obtain ⟨front, post, cs, hfiles, hoffset, hrest⟩ := h
  cases post with
  | cons b post =>
    cases hrest
    refine ⟨front ++ frame b.bytes, post, cs, ?_, ?_, rfl⟩
    · rw [hfiles, chunkBytes_cons, append_assoc]
    · rw [hoffset, length_append]
  | nil =>
    -- the block would stand in a later file
    have hmem : x ∈ placedFrom (fileNum + 1) cs := by
      rw [← nil_append (placedFrom _ _), ← show placeFrom fileNum offset [] = [] from rfl, ← hrest]
      exact mem_cons_self
    have hle := file_of_mem_placedFrom hmem
    omega

theorem Shows.getElem? (h : Shows l mgr) {n : ℕ} {file : Bytes} (hfile : l.files[n]? = some file) :
    ∃ tail, mgr.disk.files[n]? = some (file ++ tail) ∧ (n + 1 < l.files.length → tail = []) := by
  obtain ⟨tail, hfiles⟩ := h.files
  have hn := (List.getElem?_eq_some_iff.mp hfile).1
  rw [l.length_files] at *
  rw [l.files_eq] at hfile
  rw [hfiles]
  by_cases hlast : n = l.front.length
  · have hlength : l.front.length = (l.front.map chunkBytes).length := (length_map _).symm
    rw [hlast, hlength, List.getElem?_concat_length, Option.some.injEq] at hfile
    refine ⟨tail, ?_, by omega⟩
    rw [hlast, hlength, List.getElem?_concat_length, hfile]
  · have hlt : n < (l.front.map chunkBytes).length := by
      rw [length_map]
      omega
    rw [List.getElem?_append_left hlt] at hfile ⊢
    exact ⟨[], by rw [hfile, append_nil], fun _ => rfl⟩

theorem getD_of_getElem? {n : ℕ} {file : Bytes} (h : files[n]? = some file) :
    files.getD n [] = file := by
  rw [getD_eq_getElem?_getD, h, Option.getD_some]

theorem Shows.exists_file (h : Shows l mgr) (hx : x ∈ l.placed) :
    ∃ front back, mgr.disk.files.getD x.file [] = front ++ (frame x.block.bytes ++ back) ∧
      front.length = x.offset := by
  obtain ⟨front, back, hfile, hoffset⟩ := Layout.exists_file hx
  obtain ⟨tail, hdisk, -⟩ := h.getElem? hfile
  refine ⟨front, back ++ tail, ?_, hoffset⟩
  rw [getD_of_getElem? hdisk, append_assoc, append_assoc]

/-! ### Iterators -/

/-- The stream of an iterator stands before the block that comes next. -/
structure StreamAt (l : Layout) (mgr : BlockfileMgr) (blockNum : ℕ) (stream : BlockStream) :
    Prop where
  endFileNum : stream.endFileNum = -1
  published : blockNum - 1 ≤ mgr.cpInfo.lastBlockNumber
  coherent : stream.currentFileStream.Coherent mgr.disk
  stands : Stands l.files stream.currentFileStream.fileNum stream.currentFileStream.currentOffset
    (l.placed.drop (blockNum - 1))

/-- `Next` is at work on its stream. -/
def NextPC.reads : NextPC → Bool
  | .stat | .openFile | .peek _ | .read _ _ => true
  | _ => false

namespace Reader

variable {r r' : Reader} {reader : BufReader UInt8}

/-- `Next` holds the lock of the marker, and will return a block. -/
structure Inside (mgr : BlockfileMgr) (r : Reader) : Prop where
  locked : r.closeMarkerLock = some .next
  opened : r.itr.closeMarker = false
  published : r.itr.blockNumToRetrieve ≤ mgr.cpInfo.lastBlockNumber

/-- The block that is returned next stands where the stream is. -/
structure Faces (l : Layout) (r : Reader) (stream : BlockStream) (x : Placed) : Prop where
  current : r.itr.stream = some stream
  placed : l.placed[r.itr.blockNumToRetrieve - 1]? = some x
  file : x.file = stream.currentFileStream.fileNum
  offset : x.offset = stream.currentFileStream.currentOffset

/-- What holds where `Next` is. -/
def AtPC (l : Layout) (mgr : BlockfileMgr) (r : Reader) : NextPC → Prop
  | .idle | .lockCond | .checkBlock | .lockMarker | .waiting => True
  | .checkMarker => r.closeMarkerLock = some .next
  | .leave => r.itr.blockNumToRetrieve ≤ mgr.cpInfo.lastBlockNumber ∨ r.itr.closeMarker = true
  | .enter => r.itr.blockNumToRetrieve ≤ r.itr.maxBlockNumAvailable ∨ r.itr.closeMarker = true
  | .begin => r.closeMarkerLock = some .next ∧
    (r.itr.blockNumToRetrieve ≤ r.itr.maxBlockNumAvailable ∨ r.itr.closeMarker = true)
  | .openStream lp => r.Inside mgr ∧
    ∃ x, l.placed[r.itr.blockNumToRetrieve - 1]? = some x ∧ lp = x.flp
  | .stat => r.Inside mgr ∧ ∃ stream, r.itr.stream = some stream
  | .openFile => r.Inside mgr ∧ ∃ stream, r.itr.stream = some stream ∧
    Stands l.files (stream.currentFileStream.fileNum + 1) 0
      (l.placed.drop (r.itr.blockNumToRetrieve - 1))
  | .peek remainingBytes => r.Inside mgr ∧ ∃ stream x, r.Faces l stream x ∧
    (frame x.block.bytes).length ≤ remainingBytes ∧
    x.offset + remainingBytes ≤ (file mgr stream).length
  | .read reader length => r.Inside mgr ∧ ∃ stream x, r.Faces l stream x ∧
    length = x.block.bytes.length ∧ reader.position = x.offset + (encodeVarint length).length ∧
    reader.Coherent (file mgr stream)
  | .panicked => False

/-- The iterator has returned the blocks from its first one on, until it was closed. -/
structure Returned (l : Layout) (mgr : BlockfileMgr) (r : Reader) (n m : ℕ) : Prop where
  blockNumToRetrieve : r.itr.blockNumToRetrieve = r.startNum + n
  published : n = 0 ∨ r.startNum - 1 + n ≤ mgr.cpInfo.lastBlockNumber
  returned : r.returned = ((l.placed.drop (r.startNum - 1)).take n).map
    (fun x => .block (some x.block.bytes)) ++ List.replicate m .closed
  closed : m = 0 ∨ r.itr.closeMarker = true

structure Follows (l : Layout) (mgr : BlockfileMgr) (r : Reader) : Prop where
  pos : 1 ≤ r.startNum
  returned : ∃ n m, r.Returned l mgr n m
  max : r.itr.maxBlockNumAvailable ≤ mgr.cpInfo.lastBlockNumber
  stream : ∀ stream, r.itr.stream = some stream → StreamAt l mgr r.itr.blockNumToRetrieve stream
  atPC : r.AtPC l mgr r.next
  closing : r.close = .lockCond ∨ r.close = .finish → r.closeMarkerLock = some .close

theorem Follows.not_panicked (h : r.Follows l mgr) : r.next ≠ .panicked := by
  intro hpanicked
  have hpc := h.atPC
  rw [hpanicked] at hpc
  exact hpc

/-- The file of the stream. -/
def fileNum (r : Reader) : ℕ := r.itr.stream.elim 0 fun stream => stream.currentFileStream.fileNum

/-- How far `Next` is from its end, or from a wait. -/
def rank (l : Layout) (r : Reader) : ℕ :=
  match r.next with
  | .idle | .waiting | .panicked | .read _ _ => 0
  | .peek _ => 1
  | .openFile => 2 * (l.files.length - r.fileNum) + 1
  | .stat => 2 * (l.files.length - r.fileNum) + 2
  | .openStream _ => 2 * l.files.length + 3
  | .begin => 2 * l.files.length + 4
  | .enter => 2 * l.files.length + 5
  | .leave => 2 * l.files.length + 6
  | .checkMarker => 2 * l.files.length + 7
  | .lockMarker => 2 * l.files.length + 8
  | .checkBlock => 2 * l.files.length + 9
  | .lockCond => 2 * l.files.length + 10

/-- `Next` returns, or comes nearer to its end. -/
def Advances (l : Layout) (r r' : Reader) : Prop :=
  (r'.next = .idle ∧ ∃ result, r'.returned = r.returned ++ [result]) ∨
    r'.next ≠ .idle ∧ r'.itr.blockNumToRetrieve = r.itr.blockNumToRetrieve ∧
      r'.returned = r.returned ∧ r'.rank l < r.rank l

/-! ### The files grow -/

theorem coherent_mono {file file' : Bytes} (h : reader.Coherent file)
    (hfile : file <+: file') : reader.Coherent file' := by
  obtain ⟨more, rfl⟩ := hfile
  exact h.append

theorem getElem?_of_prefix {ps ps' : List Placed} (h : ps <+: ps') {i : ℕ}
    (hx : ps[i]? = some x) : ps'[i]? = some x := by
  obtain ⟨qs, rfl⟩ := h
  rwa [List.getElem?_append_left (List.getElem?_eq_some_iff.mp hx).1]

theorem Inside.mono (h : r.Inside mgr) (hext : Extends l mgr l' mgr') : r.Inside mgr' :=
  ⟨h.locked, h.opened, h.published.trans hext.published⟩

theorem Inside.goes {close : ClosePC} (h : r.Inside mgr) :
    ({ r with next := pc, close } : Reader).Inside mgr := ⟨h.locked, h.opened, h.published⟩

theorem Faces.mono (h : r.Faces l stream x) (hext : Extends l mgr l' mgr') : r.Faces l' stream x :=
  ⟨h.current, getElem?_of_prefix hext.placed h.placed, h.file, h.offset⟩

theorem Returned.mono {n m : ℕ} (h : r.Returned l mgr n m) (hshows : Shows l mgr)
    (hext : Extends l mgr l' mgr') : r.Returned l' mgr' n m := by
  refine ⟨h.blockNumToRetrieve, h.published.imp_right fun hle => hle.trans hext.published, ?_,
    h.closed⟩
  rw [h.returned]
  rcases h.published with rfl | hle
  · simp
  · have hlen := hshows.published
    obtain ⟨qs, hqs⟩ := hext.placed
    rw [← hqs, drop_append_of_le_length (by omega),
      take_append_of_le_length (by rw [length_drop]; omega)]

theorem AtPC.mono (h : r.AtPC l mgr pc) (hshows : Shows l mgr) (hext : Extends l mgr l' mgr') :
    r.AtPC l' mgr' pc := by
  have hpublished := hext.published
  cases pc with
  | idle | lockCond | checkBlock | lockMarker | waiting => exact True.intro
  | checkMarker => exact h
  | leave => exact h.imp_left fun hle => hle.trans hpublished
  | enter => exact h
  | begin => exact h
  | openStream =>
    obtain ⟨hinside, x, hx, hlp⟩ := h
    exact ⟨hinside.mono hext, x, getElem?_of_prefix hext.placed hx, hlp⟩
  | stat =>
    obtain ⟨hinside, hstream⟩ := h
    exact ⟨hinside.mono hext, hstream⟩
  | openFile =>
    obtain ⟨hinside, stream, hstream, hstands⟩ := h
    have hle := hinside.published
    have hlen := hshows.published
    exact ⟨hinside.mono hext, stream, hstream, hext.stands _ _ _ (by omega) hstands⟩
  | peek =>
    obtain ⟨hinside, stream, x, hfaces, hframe, hle⟩ := h
    exact ⟨hinside.mono hext, stream, x, hfaces.mono hext, hframe,
      hle.trans (hext.files _).length_le⟩
  | read =>
    obtain ⟨hinside, stream, x, hfaces, hlength, hposition, hcoherent⟩ := h
    exact ⟨hinside.mono hext, stream, x, hfaces.mono hext, hlength, hposition,
      coherent_mono hcoherent (hext.files _)⟩
  | panicked => exact h

theorem Follows.mono (h : r.Follows l mgr) (hshows : Shows l mgr) (hext : Extends l mgr l' mgr') :
    r.Follows l' mgr' := by
  obtain ⟨n, m, hreturned⟩ := h.returned
  refine ⟨h.pos, ⟨n, m, hreturned.mono hshows hext⟩, h.max.trans hext.published, ?_,
    h.atPC.mono hshows hext, h.closing⟩
  intro stream hstream
  obtain ⟨hend, hpublished, hcoherent, hstands⟩ := h.stream stream hstream
  have hlen := hshows.published
  exact ⟨hend, hpublished.trans hext.published, coherent_mono hcoherent (hext.files _),
    hext.stands _ _ _ (by omega) hstands⟩

/-! ### Operations of `Next` -/

variable {i : ℕ} {cond cond' : Option Holder} {lock : Option Side}

/-- What was returned stays, whatever becomes of the locks, the calls and the stream. -/
theorem Follows.exists_returned (h : r.Follows l mgr) {close : ClosePC} {max : ℕ}
    {stream : Option BlockStream} : ∃ n m, Returned l mgr
      { r with closeMarkerLock := lock, next := pc, close,
               itr := { r.itr with maxBlockNumAvailable := max, stream } } n m := by
  obtain ⟨n, m, hreturned⟩ := h.returned
  exact ⟨n, m, hreturned.1, hreturned.2, hreturned.3, hreturned.4⟩

theorem Follows.move (h : r.Follows l mgr)
    (hpc : ({ r with closeMarkerLock := lock, next := pc } : Reader).AtPC l mgr pc)
    (hclosing : r.close = .lockCond ∨ r.close = .finish → lock = some .close) :
    ({ r with closeMarkerLock := lock, next := pc } : Reader).Follows l mgr :=
  ⟨h.pos, h.exists_returned, h.max, h.stream, hpc, hclosing⟩

theorem Follows.not_closing (h : r.Follows l mgr) (hlock : r.closeMarkerLock ≠ some .close)
    (lock : Option Side) : r.close = .lockCond ∨ r.close = .finish → lock = some .close :=
  fun hclose => absurd (h.closing hclose) hlock

theorem Advances.of_next (hpc : pc ≠ .idle)
    (hrank : ({ r with closeMarkerLock := lock, next := pc } : Reader).rank l < r.rank l) :
    r.Advances l { r with closeMarkerLock := lock, next := pc } :=
  .inr ⟨hpc, rfl, rfl, hrank⟩

section

variable (h : r.Follows l mgr)
include h

theorem Follows.stepWait (hstep : r.stepWait i mgr cond = some (cond', r')) :
    r'.Follows l mgr ∧ r.Advances l r' := by
  have hpc := h.atPC
  unfold Reader.stepWait at hstep
  split at hstep
  · rename_i hnext
    split_ifs at hstep
    cases hstep
    exact ⟨h.move True.intro h.closing, .of_next (by simp) (by simp [rank, hnext])⟩
  · rename_i hnext
    split_ifs at hstep with hwait
    · cases hstep
      exact ⟨h.move True.intro h.closing, .of_next (by simp) (by simp [rank, hnext])⟩
    · cases hstep
      exact ⟨h.move (.inl (Nat.not_lt.mp hwait)) h.closing,
        .of_next (by simp) (by simp [rank, hnext])⟩
  · rename_i hnext
    split_ifs at hstep with hfree
    cases hstep
    exact ⟨h.move rfl (h.not_closing (by simp [hfree]) _),
      .of_next (by simp) (by simp [rank, hnext])⟩
  · rename_i hnext
    rw [hnext] at hpc
    have hlock : r.closeMarkerLock = some .next := hpc
    have hnot := h.not_closing (by simp [hlock]) none
    split_ifs at hstep with hclosed
    · cases hstep
      exact ⟨h.move (.inr hclosed) hnot, .of_next (by simp) (by simp [rank, hnext])⟩
    · cases hstep
      exact ⟨h.move True.intro hnot, .of_next (by simp) (by simp [rank, hnext])⟩
  · -- `waitForBlock` returns the number of the last block
    rename_i hnext
    rw [hnext] at hpc
    cases hstep
    exact ⟨⟨h.pos, h.exists_returned, le_rfl, h.stream, hpc, h.closing⟩,
      .inr ⟨by simp, rfl, rfl, by simp [rank, hnext]⟩⟩
  · cases hstep

section

variable (hshows : Shows l mgr)
include hshows

theorem Follows.exists_placed (hinside : r.Inside mgr) :
    1 ≤ r.itr.blockNumToRetrieve ∧ ∃ x, l.placed[r.itr.blockNumToRetrieve - 1]? = some x := by
  obtain ⟨n, m, hreturned⟩ := h.returned
  have hnum := hreturned.blockNumToRetrieve
  have hpos := h.pos
  have hle := hinside.published
  have hlen := hshows.published
  exact ⟨by omega, _, List.getElem?_eq_getElem (by omega)⟩

section

variable (hstream : r.itr.stream = some stream) (hstep : r.stepStream mgr stream = some r')
include hstream hstep

theorem Follows.stepStat (hnext : r.next = .stat) : r'.Follows l mgr ∧ r.Advances l r' := by
  have hpc := h.atPC
  rw [hnext] at hpc
  obtain ⟨hinside, -⟩ := hpc
  have hat := h.stream stream hstream
  obtain ⟨hpos, x, hx⟩ := h.exists_placed hshows hinside
  have hstands := hat.stands
  rw [drop_of_getElem? hx] at hstands
  unfold stepStream at hstep
  rw [hnext] at hstep
  dsimp only at hstep
  rcases hstands.cases with ⟨hfile, hoffset⟩ | ⟨file', hfile', hlength, hlater, hstands'⟩
  · obtain ⟨front, back, hbytes, hfront⟩ := hshows.exists_file (mem_of_getElem? hx)
    have hframe := length_frame_pos x.block.bytes
    have hlen : (file mgr stream).length =
        x.offset + ((frame x.block.bytes).length + back.length) := by
      rw [file, ← hfile, hbytes, length_append, length_append, hfront]
    rw [if_neg (by omega), if_neg (by omega)] at hstep
    cases hstep
    exact ⟨h.move ⟨hinside.goes, stream, x, ⟨hstream, hx, hfile, hoffset⟩, by omega, by omega⟩
      h.closing, .of_next (by simp) (by simp [rank, hnext])⟩
  · -- the file is not the last one, so nothing was written behind its blocks
    obtain ⟨tail, hdisk, htail⟩ := hshows.getElem? hfile'
    have hend : stream.currentFileStream.currentOffset = (file mgr stream).length := by
      rw [file, getD_of_getElem? hdisk, htail hlater, append_nil, hlength]
    rw [if_pos hend, if_pos (.inr (by rw [hat.endFileNum]; decide))] at hstep
    cases hstep
    refine ⟨h.move ⟨hinside.goes, stream, hstream, ?_⟩ h.closing,
      .of_next (by simp) (by simp [rank, hnext, fileNum])⟩
    rwa [drop_of_getElem? hx]

theorem Follows.stepOpenFile (hnext : r.next = .openFile) : r'.Follows l mgr ∧ r.Advances l r' := by
  have hpc := h.atPC
  rw [hnext] at hpc
  obtain ⟨hinside, stream', hstream', hstands⟩ := hpc
  rw [hstream] at hstream'
  cases hstream'
  have hat := h.stream stream hstream
  have hopen : newBlockfileStream mgr.disk (stream.currentFileStream.fileNum + 1) 0 =
      .ok ⟨stream.currentFileStream.fileNum + 1, .start 0⟩ := by
    obtain ⟨front, post, cs, hfiles, -⟩ := hstands
    obtain ⟨tail, hdisk, -⟩ := hshows.getElem? (getElem?_of_drop_eq_cons hfiles)
    exact newBlockfileStream_eq hdisk
  unfold stepStream at hstep
  rw [hnext] at hstep
  dsimp only at hstep
  rw [hopen] at hstep
  cases hstep
  refine ⟨⟨h.pos, h.exists_returned, h.max, ?_, ⟨⟨hinside.1, hinside.2, hinside.3⟩, _, rfl⟩,
    h.closing⟩, .inr ⟨by simp, rfl, rfl, ?_⟩⟩
  · intro stream' hstream'
    cases hstream'
    exact ⟨hat.endFileNum, hat.published, BufReader.coherent_start _ _, hstands⟩
  · -- there is a next file, so one file less is ahead
    have hlt := hstands.fileNum_lt
    simp only [rank, hnext, fileNum, hstream, Option.elim_some]
    omega

theorem Follows.stepPeek {remainingBytes : ℕ} (hnext : r.next = .peek remainingBytes) :
    r'.Follows l mgr ∧ r.Advances l r' := by
  have hpc := h.atPC
  rw [hnext] at hpc
  obtain ⟨hinside, stream', x, hfaces, hframe, hle⟩ := hpc
  rw [hfaces.current] at hstream
  cases hstream
  have hat := h.stream stream hfaces.current
  obtain ⟨front, back, hbytes, hfront⟩ := hshows.exists_file (mem_of_getElem? hfaces.placed)
  have hfile : file mgr stream = front ++ (frame x.block.bytes ++ back) := by
    rw [file, ← hfaces.file, hbytes]
  have hposition : stream.currentFileStream.reader.position = x.offset := hfaces.offset.symm
  have hcoherent : stream.currentFileStream.reader.Coherent (file mgr stream) := hat.coherent
  have hpeek : ∃ reader, stream.currentFileStream.reader.peek (file mgr stream)
      (min headSize remainingBytes) = _ ∧ _ :=
    hcoherent.peek_eq ((Nat.min_le_left _ _).trans (by decide)) (by omega)
  obtain ⟨reader, hpeek, hreader, hposition', -⟩ := hpeek
  have hdrop : (file mgr stream).drop stream.currentFileStream.reader.position =
      frame x.block.bytes ++ back := by
    rw [hfile, hposition, ← hfront, drop_left]
  have hhead : readHead remainingBytes
      ((frame x.block.bytes ++ back).take (min headSize remainingBytes)) = _ :=
    readHead_frame x.block.fits hframe
  unfold stepStream at hstep
  rw [hnext] at hstep
  dsimp only at hstep
  rw [hpeek] at hstep
  dsimp only at hstep
  rw [hdrop, hhead] at hstep
  cases hstep
  refine ⟨h.move ⟨hinside.goes, stream, x,
    ⟨hfaces.current, hfaces.placed, hfaces.file, hfaces.offset⟩, rfl, ?_,
      hreader.discard _⟩ h.closing,
    .of_next (by simp) (by simp [rank, hnext])⟩
  rw [BufReader.discard, hposition', hposition]

theorem Follows.stepRead {length : ℕ} (hnext : r.next = .read reader length) :
    r'.Follows l mgr ∧ r.Advances l r' := by
  have hpc := h.atPC
  rw [hnext] at hpc
  obtain ⟨hinside, stream', x, hfaces, rfl, hposition, hcoherent⟩ := hpc
  rw [hfaces.current] at hstream
  cases hstream
  have hat := h.stream stream hfaces.current
  obtain ⟨front, back, hbytes, hfront⟩ := hshows.exists_file (mem_of_getElem? hfaces.placed)
  have hfile : file mgr stream = front ++ encodeVarint x.block.bytes.length ++
      (x.block.bytes ++ back) := by
    rw [file, ← hfaces.file, hbytes, frame, append_assoc, append_assoc]
  have hfront' : reader.position = (front ++ encodeVarint x.block.bytes.length).length := by
    rw [hposition, length_append, hfront]
  have hread : ∃ reader', reader.readFull (file mgr stream) x.block.bytes.length = _ ∧ _ :=
    hcoherent.readFull_eq (by
      simp only [hfile, length_append]
      omega)
  obtain ⟨reader', hread, hcoherent', hposition'⟩ := hread
  have hblock : ((file mgr stream).drop reader.position).take x.block.bytes.length =
      x.block.bytes := by
    rw [hfile, hfront', drop_left, take_left]
  have hframe := length_frame x.block.bytes
  obtain ⟨hpos, -⟩ := h.exists_placed hshows hinside
  unfold stepStream at hstep
  rw [hnext] at hstep
  dsimp only at hstep
  rw [hread, hblock] at hstep
  cases hstep
  obtain ⟨n, m, hnum, hpub, hreturned, hclosed⟩ := h.returned
  have hm := hclosed.resolve_right (by simp [hinside.opened])
  have hle := hinside.published
  have hstart := h.pos
  refine ⟨⟨h.pos, ⟨n + 1, 0, ?_, .inr ?_, ?_, .inl rfl⟩, h.max, ?_, True.intro,
    h.not_closing (by simp [hinside.locked]) none⟩, .inl ⟨rfl, _, rfl⟩⟩
  · simp only [returns, hnum, Nat.add_assoc]
  · simp only [returns]
    omega
  · -- one more of the blocks
    have hx : (l.placed.drop (r.startNum - 1))[n]? = some x := by
      rw [List.getElem?_drop, ← hfaces.placed]
      congr 1
      omega
    simp only [returns, hreturned, hm, replicate_zero, append_nil,
      take_add_one, hx, map_append, Option.toList_some, map_cons, map_nil]
  · intro stream' hstream'
    cases hstream'
    refine ⟨hat.endFileNum, ?_, hcoherent', ?_⟩
    · simp only [returns]
      omega
    · have hstands := hat.stands
      rw [drop_of_getElem? hfaces.placed] at hstands
      have htail := hstands.tail hfaces.file
      have hoffset : stream.currentFileStream.currentOffset + (frame x.block.bytes).length =
          reader'.position := by
        rw [← hfaces.offset]
        omega
      rw [hoffset] at htail
      rwa [Nat.sub_add_cancel hpos] at htail

theorem Follows.stepStream : r'.Follows l mgr ∧ r.Advances l r' := by
  cases hnext : r.next with
  | stat => exact h.stepStat hshows hstream hstep hnext
  | openFile => exact h.stepOpenFile hshows hstream hstep hnext
  | peek => exact h.stepPeek hshows hstream hstep hnext
  | read => exact h.stepRead hshows hstream hstep hnext
  | _ =>
    unfold Reader.stepStream at hstep
    rw [hnext] at hstep
    cases hstep

end

theorem Follows.stepNext (hstep : r.stepNext i mgr cond = some (cond', r')) :
    r'.Follows l mgr ∧ r.Advances l r' := by
  have hpc := h.atPC
  unfold Reader.stepNext at hstep
  cases hnext : r.next with
  | enter =>
    rw [hnext] at hstep hpc
    dsimp only at hstep
    split_ifs at hstep with hfree
    cases hstep
    exact ⟨h.move ⟨rfl, hpc⟩ (h.not_closing (by simp [hfree]) _),
      .of_next (by simp) (by simp [rank, hnext])⟩
  | begin =>
    rw [hnext] at hstep hpc
    obtain ⟨hlock, havailable⟩ := hpc
    dsimp only at hstep
    have hnot := h.not_closing (by simp [hlock]) none
    obtain ⟨n, m, hreturned⟩ := h.returned
    split_ifs at hstep with hclosed
    · cases hstep
      refine ⟨⟨h.pos, ⟨n, m + 1, hreturned.1, hreturned.2, ?_, .inr hclosed⟩, h.max, h.stream,
        True.intro, hnot⟩, .inl ⟨rfl, _, rfl⟩⟩
      simp only [Reader.returns, hreturned.returned, replicate_succ', append_assoc]
    · have hle := (havailable.resolve_right hclosed).trans h.max
      have hinside : r.Inside mgr := ⟨hlock, by simpa using hclosed, hle⟩
      split at hstep
      · rename_i stream hstream
        cases hstep
        refine ⟨h.move ⟨hinside.goes, stream, hstream⟩ h.closing, .of_next (by simp) ?_⟩
        simp only [rank, hnext]
        omega
      · obtain ⟨hpos, x, hx⟩ := h.exists_placed hshows hinside
        have hloc := hshows.located _ x (by omega) hx
        rw [Nat.sub_add_cancel hpos] at hloc
        rw [hloc] at hstep
        cases hstep
        exact ⟨h.move ⟨hinside.goes, x, hx, rfl⟩ h.closing,
          .of_next (by simp) (by simp [rank, hnext])⟩
  | openStream =>
    rw [hnext] at hstep hpc
    obtain ⟨hinside, x, hx, rfl⟩ := hpc
    dsimp only at hstep
    obtain ⟨front, back, hfile, hoffset⟩ := Layout.exists_file (mem_of_getElem? hx)
    obtain ⟨tail, hdisk, -⟩ := hshows.getElem? hfile
    have hopen : newBlockStream mgr.disk x.flp.fileSuffixNum x.flp.offset (-1) = _ :=
      newBlockStream_eq hdisk _
    rw [hopen] at hstep
    cases hstep
    have hle := hinside.published
    refine ⟨⟨h.pos, h.exists_returned, h.max, ?_, ⟨⟨hinside.1, hinside.2, hinside.3⟩, _, rfl⟩,
      h.closing⟩, .inr ⟨by simp, rfl, rfl, ?_⟩⟩
    · intro stream hstream
      cases hstream
      exact ⟨rfl, by dsimp only; omega, BufReader.coherent_start _ _, l.stands_drop hx⟩
    · simp only [rank, hnext]
      omega
  | stat | openFile | peek _ | read _ _ =>
    -- an operation on the stream
    rw [hnext] at hstep
    dsimp only at hstep
    split at hstep
    · cases hstep
    · rename_i stream hstream
      obtain ⟨r'', hstream', hresult⟩ := Option.map_eq_some_iff.mp hstep
      cases hresult
      exact h.stepStream hshows hstream hstream'
  | idle | lockCond | checkBlock | lockMarker | checkMarker | waiting | leave | panicked =>
    rw [hnext] at hstep
    exact h.stepWait hstep

end

theorem Follows.exists_stepStream (hreads : r.next.reads) :
    ∃ stream r', r.itr.stream = some stream ∧ r.stepStream mgr stream = some r' := by
  have hpc := h.atPC
  have hstream : ∃ stream, r.itr.stream = some stream := by
    cases hnext : r.next <;> rw [hnext] at hpc hreads
    case stat => exact hpc.2
    case openFile =>
      obtain ⟨-, stream, hstream, -⟩ := hpc
      exact ⟨stream, hstream⟩
    case peek | read =>
      obtain ⟨-, stream, x, hfaces, -⟩ := hpc
      exact ⟨stream, hfaces.current⟩
    all_goals cases hreads
  obtain ⟨stream, hstream⟩ := hstream
  have hstep : ∃ r', r.stepStream mgr stream = some r' := by
    unfold Reader.stepStream
    dsimp only
    repeat' split
    all_goals try exact ⟨_, rfl⟩
    cases hnext : r.next <;> simp_all [NextPC.reads]
  obtain ⟨r', hstep⟩ := hstep
  exact ⟨stream, r', hstream, hstep⟩

theorem Follows.exists_stepNext (hidle : r.next ≠ .idle)
    (hwaiting : r.next ≠ .waiting) (hlockMarker : r.next ≠ .lockMarker)
    (hlockCond : r.next = .lockCond → cond = none)
    (henter : r.next = .enter → r.closeMarkerLock = none) :
    ∃ cond' r', r.stepNext i mgr cond = some (cond', r') := by
  unfold Reader.stepNext
  cases hnext : r.next with
  | enter => exact ⟨_, _, if_pos (henter hnext)⟩
  | begin =>
    dsimp only
    repeat' split
    all_goals exact ⟨_, _, rfl⟩
  | openStream =>
    dsimp only
    split
    all_goals exact ⟨_, _, rfl⟩
  | stat | openFile | peek | read =>
    obtain ⟨stream, r', hstream, hstep⟩ := h.exists_stepStream (by rw [hnext]; rfl)
    rw [hstream]
    dsimp only
    rw [hstep]
    exact ⟨_, _, rfl⟩
  | lockCond =>
    dsimp only [Reader.stepWait]
    rw [hnext]
    exact ⟨_, _, if_pos (hlockCond hnext)⟩
  | checkBlock | checkMarker | leave =>
    dsimp only [Reader.stepWait]
    rw [hnext]
    dsimp only
    repeat' split
    all_goals exact ⟨_, _, rfl⟩
  | idle => exact absurd hnext hidle
  | waiting => exact absurd hnext hwaiting
  | lockMarker => exact absurd hnext hlockMarker
  | panicked => exact absurd hnext h.not_panicked

end

/-! ### Other steps of an iterator -/

theorem follows_start {startNum : ℕ} (hpos : 1 ≤ startNum) :
    (start mgr startNum).Follows l mgr := by
  refine ⟨hpos, ⟨0, 0, rfl, .inl rfl, ?_, .inl rfl⟩, le_rfl, ?_, True.intro, ?_⟩
  · simp [start]
  · intro stream hstream
    cases hstream
  · rintro (hclose | hclose) <;> cases hclose

theorem Follows.call (h : r.Follows l mgr) (hcall : r.call = some r') : r'.Follows l mgr := by
  unfold Reader.call at hcall
  split_ifs at hcall with hidle hwait
  · cases hcall
    exact h.move True.intro h.closing
  · cases hcall
    exact h.move (.inl (Nat.not_lt.mp hwait)) h.closing

theorem Follows.wake (h : r.Follows l mgr) : r.wake.Follows l mgr := by
  unfold Reader.wake
  split_ifs
  · exact h.move True.intro h.closing
  · exact h

theorem AtPC.setClose (h : r.AtPC l mgr pc) (close : ClosePC) :
    ({ r with close } : Reader).AtPC l mgr pc := by
  cases pc with
  | openStream _ | stat | openFile => exact h.imp_left .goes
  | peek _ | read _ _ =>
    obtain ⟨hinside, stream, x, hfaces, hrest⟩ := h
    exact ⟨hinside.goes, stream, x, ⟨hfaces.1, hfaces.2, hfaces.3, hfaces.4⟩, hrest⟩
  | _ => exact h

theorem AtPC.unlocked {close : ClosePC} {marker : Bool} (h : r.AtPC l mgr pc)
    (hlock : r.closeMarkerLock ≠ some .next) (hmarker : r.itr.closeMarker = true → marker = true) :
    AtPC l mgr { r with closeMarkerLock := lock, close,
                        itr := { r.itr with closeMarker := marker } } pc := by
  cases pc with
  | idle | lockCond | checkBlock | lockMarker | waiting => exact True.intro
  | leave | enter => exact h.imp_right hmarker
  | checkMarker => exact absurd h hlock
  | begin => exact absurd h.1 hlock
  | openStream _ | stat | openFile | peek _ | read _ _ => exact absurd h.1.locked hlock
  | panicked => exact h

theorem Follows.callClose (h : r.Follows l mgr) (hcall : r.callClose = some r') :
    r'.Follows l mgr := by
  obtain ⟨-, rfl⟩ := Option.ite_some_none_eq_some.mp hcall
  refine ⟨h.pos, h.exists_returned, h.max, h.stream, h.atPC.setClose _, ?_⟩
  rintro (hclose | hclose) <;> cases hclose

theorem Follows.stepClose (h : r.Follows l mgr)
    (hstep : r.stepClose i cond = some (cond', r')) : r'.Follows l mgr := by
  unfold Reader.stepClose at hstep
  split at hstep
  · split_ifs at hstep with hfree
    cases hstep
    obtain ⟨n, m, hreturned⟩ := h.returned
    exact ⟨h.pos, ⟨n, m, hreturned.1, hreturned.2, hreturned.3, .inr rfl⟩, h.max, h.stream,
      h.atPC.unlocked (by simp [hfree]) fun _ => rfl, fun _ => rfl⟩
  · rename_i hclose
    split_ifs at hstep
    cases hstep
    exact ⟨h.pos, h.exists_returned, h.max, h.stream, h.atPC.setClose _,
      fun _ => h.closing (.inl hclose)⟩
  · rename_i hclose
    have hlock := h.closing (.inr hclose)
    split at hstep
    · cases hstep
      refine ⟨h.pos, h.exists_returned, h.max, h.stream, h.atPC.setClose _, ?_⟩
      rintro (hclose | hclose) <;> cases hclose
    · cases hstep
      refine ⟨h.pos, h.exists_returned, h.max, h.stream, h.atPC.unlocked (by simp [hlock]) id, ?_⟩
      rintro (hclose | hclose) <;> cases hclose
  · cases hstep

end Reader

end Fabric.BlockStore
