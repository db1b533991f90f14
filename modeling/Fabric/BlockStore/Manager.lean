import Fabric.BlockStore.Stream
import Fabric.Common.Program

/-!
# The block file manager

`blockfile_mgr.go`: blocks are appended to the current file with their lengths in front, the
checkpoint says how far the file is complete, and the index is written last. When the
manager is opened, both are brought up to date from the files.

A write may fail: the calls take a `Fault` that says where. Writes of the index and
truncations succeed.
-/

namespace Fabric.BlockStore

open Fabric.Common

structure CheckpointInfo where
  latestFileChunkSuffixNum : ℕ
  latestFileChunksize : ℕ
  lastBlockNumber : ℕ
deriving DecidableEq

namespace CheckpointInfo

def marshal (i : CheckpointInfo) : Bytes :=
  encodeVarint i.latestFileChunkSuffixNum ++ (encodeVarint i.latestFileChunksize ++
    encodeVarint i.lastBlockNumber)

def unmarshal : Decoder CheckpointInfo := do
  let latestFileChunkSuffixNum ← decodeVarint
  let latestFileChunksize ← decodeVarint
  let lastBlockNumber ← decodeVarint
  pure { latestFileChunkSuffixNum, latestFileChunksize, lastBlockNumber }

end CheckpointInfo

structure BlockchainInfo where
  height : ℕ
  currentBlockHash : Bytes
  previousBlockHash : Bytes
deriving DecidableEq

/-- The manager, with its files and database. The writer is the number of its file. -/
structure BlockfileMgr where
  maxBlockfileSize : ℤ
  attrs : List IndexableAttr
  disk : Disk
  db : DB
  cpInfo : CheckpointInfo
  currentFileWriter : ℕ
  bcInfo : BlockchainInfo

/-! ### Adding blocks -/

/-- Where adding a block fails: in a write, of which some bytes reach the disk, or in saving. -/
inductive Fault
  | appendLength (written : ℕ)
  | appendBlock (written : ℕ)
  | saveCheckpoint
deriving DecidableEq

def Fault.ofLength : Fault → Option ℕ
  | appendLength written => some written
  | _ => none

def Fault.ofBlock : Fault → Option ℕ
  | appendBlock written => some written
  | _ => none

/-- What adding a block ends with; opening the next file panics. -/
inductive AddError
  | serialize
  | append
  | save
  | openWriterPanic
deriving DecidableEq

abbrev MgrM := EStateM AddError BlockfileMgr

def moveToNextFile : MgrM Unit := do
  let mgr ← get
  let cpInfo : CheckpointInfo :=
    { latestFileChunkSuffixNum := mgr.cpInfo.latestFileChunkSuffixNum + 1
      latestFileChunksize := 0
      lastBlockNumber := mgr.cpInfo.lastBlockNumber }
  match mgr.disk.openWriter cpInfo.latestFileChunkSuffixNum with
  | none => throw .openWriterPanic
  | some disk =>
    set { mgr with
      disk
      db := mgr.db.put .blkMgrInfo cpInfo.marshal
      currentFileWriter := cpInfo.latestFileChunkSuffixNum
      cpInfo }

/-- Append bytes to the current file; a write that fails may leave some of them. -/
def append (b : Bytes) (written : Option ℕ) : MgrM Unit := do
  let mgr ← get
  match mgr.disk.append mgr.currentFileWriter (b.take (written.getD b.length)) with
  | none => throw .append
  | some disk =>
    set { mgr with disk }
    if written.isSome then throw .append

/-- Cut the current file to the size of the checkpoint. -/
def truncateFile : MgrM Unit :=
  modify fun mgr => { mgr with
    disk := mgr.disk.truncateFile mgr.currentFileWriter mgr.cpInfo.latestFileChunksize }

def saveCurrentInfo (i : CheckpointInfo) (fails : Bool) : MgrM Unit :=
  if fails then throw .save
  else modify fun mgr => { mgr with db := mgr.db.put .blkMgrInfo i.marshal }

/-- Cut the current file to the size of the checkpoint if the program fails. -/
def orTruncate (x : MgrM Unit) : MgrM Unit :=
  tryCatch x fun e => do
    truncateFile
    throw e

/-- What is written to the index and reported once a block is saved. -/
def finishBlock (hash : Bytes → Bytes) (block : Block2) (txOffsets : List ℤ) (currentOffset : ℕ)
    (newCPInfo : CheckpointInfo) : MgrM Unit := do
  let blockBytes := block.bytes
  let blockBytesEncodedLen := encodeVarint blockBytes.length
  let info : BlockIdxInfo :=
    { blockNum := newCPInfo.lastBlockNumber
      blockHash := hash blockBytes
      flp := ⟨newCPInfo.latestFileChunkSuffixNum, currentOffset, 0⟩
      txOffsets := txOffsets.map fun o => o + blockBytesEncodedLen.length }
  modify fun mgr => { mgr with
    db := indexBlock mgr.attrs info mgr.db
    cpInfo := newCPInfo
    bcInfo :=
      { height := mgr.bcInfo.height + 1
        currentBlockHash := hash blockBytes
        previousBlockHash := block.previousBlockHash } }

/-- Write a block behind the checkpoint, save the new checkpoint and index the block. -/
def writeBlock (hash : Bytes → Bytes) (block : Block2) (txOffsets : List ℤ)
    (fault : Option Fault) : MgrM Unit := do
  let blockBytes := block.bytes
  let blockBytesEncodedLen := encodeVarint blockBytes.length
  let totalBytesToAppend := blockBytes.length + blockBytesEncodedLen.length
  let currentCPInfo := (← get).cpInfo
  orTruncate do
    append blockBytesEncodedLen (fault.bind Fault.ofLength)
    append blockBytes (fault.bind Fault.ofBlock)
  let newCPInfo : CheckpointInfo :=
    { latestFileChunkSuffixNum := currentCPInfo.latestFileChunkSuffixNum
      latestFileChunksize := currentCPInfo.latestFileChunksize + totalBytesToAppend
      lastBlockNumber := currentCPInfo.lastBlockNumber + 1 }
  orTruncate (saveCurrentInfo newCPInfo (fault = some .saveCheckpoint))
  finishBlock hash block txOffsets currentCPInfo.latestFileChunksize newCPInfo

def addBlock (hash : Bytes → Bytes) (block : Block2) (fault : Option Fault) : MgrM Unit := do
  let serBlock := constructSerBlock2 block
  match getTxOffsets serBlock with
  | .error _ => throw .serialize
  | .ok txOffsets =>
    let blockBytes := serBlock.blockBytes
    let totalBytesToAppend := blockBytes.length + (encodeVarint blockBytes.length).length
    let mgr ← get
    -- the sum of two `int`s
    if mgr.maxBlockfileSize <
        int (uint64 (mgr.cpInfo.latestFileChunksize + totalBytesToAppend)) then
      moveToNextFile
      writeBlock hash block txOffsets fault
    else
      writeBlock hash block txOffsets fault

/-! ### Reading blocks -/

inductive RetrieveError
  | index (e : IndexError)
  | stream (e : StreamError)
  | block (e : BlockError)
  | makeSlicePanic
  | read
  | transaction
deriving DecidableEq

def fetchBlockBytes (disk : Disk) (lp : FileLocPointer) : Except StreamError Bytes := do
  let stream ← newBlockfileStream disk lp.fileSuffixNum lp.offset
  let (block, _) ← stream.nextBlockBytesAndPlacementInfo disk
  pure ((block.map Prod.fst).getD [])

/-- The bytes at a place in a file. -/
def fetchRawBytes (disk : Disk) (lp : FileLocPointer) : Except RetrieveError Bytes :=
  match disk.file? lp.fileSuffixNum with
  | none => .error (.stream .noSuchFile)
  | some file =>
    if lp.bytesLength < 0 then .error .makeSlicePanic
    else if lp.offset < 0 then .error .read
    else if lp.bytesLength = 0 ∨ lp.offset + lp.bytesLength ≤ file.length then
      .ok ((file.drop lp.offset.toNat).take lp.bytesLength.toNat)
    else .error .read

namespace BlockfileMgr

variable (mgr : BlockfileMgr)

def fetchSerBlock (loc : Except IndexError FileLocPointer) : Except RetrieveError SerBlock2 :=
  match loc with
  | .error e => .error (.index e)
  | .ok lp =>
    match fetchBlockBytes mgr.disk lp with
    | .error e => .error (.stream e)
    | .ok blockBytes => .ok (newSerBlock2 blockBytes)

def fetchBlock (loc : Except IndexError FileLocPointer) : Except RetrieveError Block2 := do
  let serBlock ← mgr.fetchSerBlock loc
  match toBlock2 serBlock with
  | .error e => .error (.block e)
  | .ok block => .ok block

def retrieveBlockByHash (blockHash : Bytes) : Except RetrieveError Block2 :=
  mgr.fetchBlock (getBlockLocByHash mgr.attrs mgr.db blockHash)

def retrieveBlockByNumber (blockNum : ℕ) : Except RetrieveError Block2 :=
  mgr.fetchBlock (getBlockLocByBlockNum mgr.attrs mgr.db blockNum)

def retrieveSerBlockByNumber (blockNum : ℕ) : Except RetrieveError SerBlock2 :=
  mgr.fetchSerBlock (getBlockLocByBlockNum mgr.attrs mgr.db blockNum)

/-- The transaction of an identifier, of which the envelope was taken off. -/
def retrieveTransactionByID {τ : Type} (extractTransaction : Bytes → Option τ) (txID : Bytes) :
    Except RetrieveError τ :=
  match getTxLoc mgr.attrs mgr.db txID with
  | .error e => .error (.index e)
  | .ok lp => do
    let txEnvelopeBytes ← fetchRawBytes mgr.disk lp
    match extractTransaction txEnvelopeBytes with
    | none => .error .transaction
    | some tx => .ok tx

end BlockfileMgr

/-! ### Opening the manager -/

/-- What stops the process when the manager is opened. -/
inductive OpenPanic
  | loadCurrentInfo
  | scan (e : StreamError)
  | openWriter
  | syncIndex
  | retrieveLastBlock (e : RetrieveError)
  | decodeLastBlock (e : BlockError)
deriving DecidableEq

/-- The checkpoint of the database, or the first one, which is saved. -/
def loadCurrentInfo (db : DB) : Except OpenPanic (CheckpointInfo × DB) :=
  match db.get .blkMgrInfo with
  | none =>
    let cpInfo : CheckpointInfo := ⟨0, 0, 0⟩
    .ok (cpInfo, db.put .blkMgrInfo cpInfo.marshal)
  | some b =>
    match CheckpointInfo.unmarshal b with
    | .ok (cpInfo, _) => .ok (cpInfo, db)
    | .error _ => .error .loadCurrentInfo

/-- The checkpoint, brought up to date from the blocks behind it. -/
def syncCPInfoFromFS (disk : Disk) (cpInfo : CheckpointInfo) : Except OpenPanic CheckpointInfo :=
  match disk.file? cpInfo.latestFileChunkSuffixNum with
  | none => .ok cpInfo
  | some file =>
    if file.length = cpInfo.latestFileChunksize then .ok cpInfo
    else
      match scanForLastCompleteBlock disk cpInfo.latestFileChunkSuffixNum
        cpInfo.latestFileChunksize with
      | .error e => .error (.scan e)
      | .ok (endOffsetLastBlock, numBlocks) => .ok { cpInfo with
          lastBlockNumber := cpInfo.lastBlockNumber + numBlocks
          latestFileChunksize := endOffsetLastBlock }

/-- The loop of `syncIndex`. An error ends it, and nobody looks at it. -/
def syncIndexLoop (hash : Bytes → Bytes) (attrs : List IndexableAttr) (disk : Disk) :
    ℕ → BlockStream → ℕ → DB → Except OpenPanic DB
  | 0, _, _, db => .ok db
  | fuel + 1, stream, blockNum, db =>
    match stream.nextBlockBytesAndPlacementInfo disk with
    | .error .varintPanic => .error .syncIndex
    | .error _ => .ok db
    | .ok (none, _) => .ok db
    | .ok (some (blockBytes, placement), stream) =>
      match getTxOffsets (newSerBlock2 blockBytes) with
      | .error .sliceOutOfRange => .error .syncIndex
      | .error (.decode _) => .ok db
      | .ok txOffsets =>
        let info : BlockIdxInfo :=
          { blockNum
            blockHash := hash blockBytes
            flp := ⟨placement.fileNum, placement.blockStartOffset, 0⟩
            txOffsets := txOffsets.map fun o => int (uint64 (o + placement.blockBytesOffset)) }
        syncIndexLoop hash attrs disk fuel stream (blockNum + 1) (indexBlock attrs info db)

/-- Index the blocks from the last one on that is indexed. -/
def syncIndex (hash : Bytes → Bytes) (attrs : List IndexableAttr) (disk : Disk)
    (cpInfo : CheckpointInfo) (db : DB) : Except OpenPanic DB :=
  let fuel := (disk.files.map List.length).sum + 1
  let endFileNum := (cpInfo.latestFileChunkSuffixNum : ℤ)
  let lastBlockIndexed := getLastBlockIndexed db
  if lastBlockIndexed = 0 then
    match newBlockStream disk 0 0 endFileNum with
    | .error _ => .ok db
    | .ok stream => syncIndexLoop hash attrs disk fuel stream 1 db
  else
    match getBlockLocByBlockNum attrs db lastBlockIndexed with
    | .error _ => .ok db
    | .ok flp =>
      match newBlockStream disk flp.fileSuffixNum flp.offset endFileNum with
      | .error _ => .ok db
      | .ok stream => syncIndexLoop hash attrs disk fuel stream lastBlockIndexed db

/-- What is reported about the last block. -/
def BlockfileMgr.loadBlockchainInfo (hash : Bytes → Bytes) (mgr : BlockfileMgr) :
    Except OpenPanic BlockchainInfo :=
  if mgr.cpInfo.lastBlockNumber = 0 then .ok ⟨0, [], []⟩
  else
    match mgr.retrieveSerBlockByNumber mgr.cpInfo.lastBlockNumber with
    | .error e => .error (.retrieveLastBlock e)
    | .ok lastBlock =>
      match extractPreviousBlockHash lastBlock.blockBytes with
      | .error e => .error (.decodeLastBlock e)
      | .ok previousBlockHash =>
        .ok ⟨mgr.cpInfo.lastBlockNumber, hash lastBlock.blockBytes, previousBlockHash⟩

def newBlockfileMgr (hash : Bytes → Bytes) (maxBlockfileSize : ℤ) (attrs : List IndexableAttr)
    (disk : Disk) (db : DB) : Except OpenPanic BlockfileMgr := do
  let (cpInfo, db) ← loadCurrentInfo db
  let cpInfo ← syncCPInfoFromFS disk cpInfo
  match disk.openWriter cpInfo.latestFileChunkSuffixNum with
  | none => .error .openWriter
  | some disk =>
    let disk := disk.truncateFile cpInfo.latestFileChunkSuffixNum cpInfo.latestFileChunksize
    let db ← syncIndex hash attrs disk cpInfo db
    let mgr : BlockfileMgr :=
      { maxBlockfileSize, attrs, disk, db, cpInfo
        currentFileWriter := cpInfo.latestFileChunkSuffixNum
        bcInfo := ⟨0, [], []⟩ }
    let bcInfo ← mgr.loadBlockchainInfo hash
    pure { mgr with bcInfo }

/-! ### Iterators -/

structure BlocksItr where
  maxBlockNumAvailable : ℕ
  blockNumToRetrieve : ℕ
  stream : Option BlockStream
  closeMarker : Bool

def newBlockItr (mgr : BlockfileMgr) (startBlockNum : ℕ) : BlocksItr :=
  { maxBlockNumAvailable := mgr.cpInfo.lastBlockNumber
    blockNumToRetrieve := startBlockNum
    stream := none
    closeMarker := false }

/-- What a call of `Next` comes to. -/
inductive NextResult
  | waits
  | closed
  | block (blockBytes : Option Bytes)
  | error (e : RetrieveError)
deriving DecidableEq

namespace BlocksItr

def initStream (mgr : BlockfileMgr) (itr : BlocksItr) : Except RetrieveError BlockStream :=
  match itr.stream with
  | some stream => .ok stream
  | none =>
    match getBlockLocByBlockNum mgr.attrs mgr.db itr.blockNumToRetrieve with
    | .error e => .error (.index e)
    | .ok lp =>
      match newBlockStream mgr.disk lp.fileSuffixNum lp.offset (-1) with
      | .error e => .error (.stream e)
      | .ok stream => .ok stream

/-- `Next` while nobody else is active: it waits if the block is not there. -/
def next (mgr : BlockfileMgr) (itr : BlocksItr) : NextResult × BlocksItr :=
  if itr.maxBlockNumAvailable < itr.blockNumToRetrieve ∧
      mgr.cpInfo.lastBlockNumber < itr.blockNumToRetrieve ∧ itr.closeMarker = false then
    (.waits, itr)
  else
    let maxBlockNumAvailable :=
      if itr.maxBlockNumAvailable < itr.blockNumToRetrieve then mgr.cpInfo.lastBlockNumber
      else itr.maxBlockNumAvailable
    let itr := { itr with maxBlockNumAvailable }
    if itr.closeMarker then (.closed, itr)
    else
      match itr.initStream mgr with
      | .error e => (.error e, itr)
      | .ok stream =>
        match stream.nextBlockBytesAndPlacementInfo mgr.disk with
        | .error e => (.error (.stream e), { itr with stream := some stream })
        | .ok (block, stream) =>
          (.block (block.map Prod.fst), { itr with
            stream := some stream
            blockNumToRetrieve := itr.blockNumToRetrieve + 1 })

end BlocksItr

end Fabric.BlockStore
