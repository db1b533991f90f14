import Fabric.BlockStore.Layout
import Fabric.Common.Machine

/-!
# A writer and iterators

`addBlock`, `Next` and `Close` cut at their operations on files, on the index and on the two
kinds of locks: that of the condition `cpInfoCond`, which the manager and all iterators share,
and the `closeMarkerLock` of each iterator. The operations may interleave in any way.

The writer adds blocks without failures: where the disk has no room, it does not go on. A panic
stops the process.
-/

namespace Fabric.BlockStore

open Fabric.Common

/-! ### The calls -/

/-- Who holds the lock of `cpInfoCond`. -/
inductive Holder
  | writer
  | next (i : ℕ)
  | close (i : ℕ)
deriving DecidableEq

/-- Which call holds the `closeMarkerLock` of an iterator. -/
inductive Side
  | next
  | close
deriving DecidableEq

/-- Where `addBlock` is. -/
inductive WriterPC
  | idle
  /-- `moveToNextFile` -/
  | openNext (b : SizedBlock2)
  | saveNext (b : SizedBlock2)
  | lockNext (b : SizedBlock2)
  | publishNext (b : SizedBlock2)
  /-- `addBlock` -/
  | appendLength (b : SizedBlock2)
  | appendBlock (b : SizedBlock2)
  | save (b : SizedBlock2)
  | index (b : SizedBlock2)
  | lockCond (b : SizedBlock2)
  | publish (b : SizedBlock2)
  | report (b : SizedBlock2)
deriving DecidableEq

/-- Where `Next` is. -/
inductive NextPC
  | idle
  /-- `waitForBlock`, with `shouldClose` -/
  | lockCond
  | checkBlock
  | lockMarker
  | checkMarker
  | waiting
  | leave
  /-- `Next`, with `initStream` -/
  | enter
  | begin
  | openStream (lp : FileLocPointer)
  /-- `nextBlockBytes` -/
  | stat
  | openFile
  | peek (remainingBytes : ℕ)
  | read (reader : BufReader UInt8) (length : ℕ)
  | panicked
deriving DecidableEq

/-- Where `Close` is. -/
inductive ClosePC
  | idle
  | lockMarker
  | lockCond
  | finish
  | done
  | panicked
deriving DecidableEq

/-- An iterator, the calls on it, and what `Next` has returned. -/
structure Reader where
  startNum : ℕ
  itr : BlocksItr
  closeMarkerLock : Option Side
  next : NextPC
  close : ClosePC
  returned : List NextResult

namespace Reader

/-- `RetrieveBlocks` -/
def start (mgr : BlockfileMgr) (startNum : ℕ) : Reader :=
  ⟨startNum, newBlockItr mgr startNum, none, .idle, .idle, []⟩

variable (i : ℕ) (mgr : BlockfileMgr) (cond : Option Holder) (r : Reader)

/-- `Next` returns, and unlocks the marker. -/
def returns (result : NextResult) : Reader :=
  { r with closeMarkerLock := none, next := .idle, returned := r.returned ++ [result] }

/-- The current file of the stream. -/
def file (stream : BlockStream) : Bytes := mgr.disk.files.getD stream.currentFileStream.fileNum []

/-- An operation of `waitForBlock`, with what becomes of the lock of the condition. -/
def stepWait : Option (Option Holder × Reader) :=
  match r.next with
  | .lockCond =>
    if cond = none then some (some (.next i), { r with next := .checkBlock }) else none
  | .checkBlock =>
    if mgr.cpInfo.lastBlockNumber < r.itr.blockNumToRetrieve then
      some (cond, { r with next := .lockMarker })
    else some (cond, { r with next := .leave })
  | .lockMarker =>
    if r.closeMarkerLock = none then
      some (cond, { r with closeMarkerLock := some .next, next := .checkMarker })
    else none
  | .checkMarker =>
    if r.itr.closeMarker then some (cond, { r with closeMarkerLock := none, next := .leave })
    -- `Wait` joins the waiting calls and unlocks
    else some (none, { r with closeMarkerLock := none, next := .waiting })
  | .leave =>
    some (none, { r with
      itr := { r.itr with maxBlockNumAvailable := mgr.cpInfo.lastBlockNumber }
      next := .enter })
  | _ => none

/-- An operation of `nextBlockBytes` on the stream of the iterator. -/
def stepStream (stream : BlockStream) : Option Reader :=
  let s := stream.currentFileStream
  match r.next with
  | .stat =>
    if s.currentOffset = (file mgr stream).length then
      if (s.fileNum : ℤ) < stream.endFileNum ∨ stream.endFileNum < 0 then
        some { r with next := .openFile }
      else
        some (Reader.returns
          { r with itr := { r.itr with blockNumToRetrieve := r.itr.blockNumToRetrieve + 1 } }
          (.block none))
    else if (file mgr stream).length < s.currentOffset then
      some (r.returns (.error (.stream .negativeOffset)))
    else some { r with next := .peek ((file mgr stream).length - s.currentOffset) }
  | .openFile =>
    match newBlockfileStream mgr.disk (s.fileNum + 1) 0 with
    | .error e => some (r.returns (.error (.stream e)))
    | .ok currentFileStream =>
      some { r with
        itr := { r.itr with stream := some { stream with currentFileStream } }
        next := .stat }
  | .peek remainingBytes =>
    match s.reader.peek (file mgr stream) (min headSize remainingBytes) with
    | (_, none) => some (r.returns (.error (.stream .eof)))
    | (reader, some lenBytes) =>
      match readHead remainingBytes lenBytes with
      | .torn => some (r.returns (.error (.stream .unexpectedEndOfBlockfile)))
      | .malformed => some { r with next := .panicked }
      | .frame n length => some { r with next := .read (reader.discard n) length }
  | .read reader length =>
    match reader.readFull (file mgr stream) length with
    | (_, none) => some (r.returns (.error (.stream .eof)))
    | (reader, some blockBytes) =>
      some (Reader.returns
        { r with itr := { r.itr with
            stream := some { stream with currentFileStream := { s with reader } }
            blockNumToRetrieve := r.itr.blockNumToRetrieve + 1 } }
        (.block (some blockBytes)))
  | _ => none

/-- An operation of `Next`, with what becomes of the lock of the condition. -/
def stepNext : Option (Option Holder × Reader) :=
  match r.next with
  | .enter =>
    if r.closeMarkerLock = none then
      some (cond, { r with closeMarkerLock := some .next, next := .begin })
    else none
  | .begin =>
    if r.itr.closeMarker then some (cond, r.returns .closed)
    else
      match r.itr.stream with
      | some _ => some (cond, { r with next := .stat })
      | none =>
        match getBlockLocByBlockNum mgr.attrs mgr.db r.itr.blockNumToRetrieve with
        | .error e => some (cond, r.returns (.error (.index e)))
        | .ok lp => some (cond, { r with next := .openStream lp })
  | .openStream lp =>
    match newBlockStream mgr.disk lp.fileSuffixNum lp.offset (-1) with
    | .error e => some (cond, r.returns (.error (.stream e)))
    | .ok stream =>
      some (cond, { r with itr := { r.itr with stream := some stream }, next := .stat })
  | .stat | .openFile | .peek _ | .read _ _ =>
    match r.itr.stream with
    | none => none
    | some stream => (r.stepStream mgr stream).map fun r => (cond, r)
  | _ => r.stepWait i mgr cond

/-- `Next` is called. -/
def call : Option Reader :=
  if r.next = .idle then
    some { r with
      next := if r.itr.maxBlockNumAvailable < r.itr.blockNumToRetrieve then .lockCond else .enter }
  else none

/-- `Close` is called, once. -/
def callClose : Option Reader :=
  if r.close = .idle then some { r with close := .lockMarker } else none

/-- An operation of `Close`, with what becomes of the lock of the condition. -/
def stepClose : Option (Option Holder × Reader) :=
  match r.close with
  | .lockMarker =>
    if r.closeMarkerLock = none then
      some (cond, { r with
        closeMarkerLock := some .close
        itr := { r.itr with closeMarker := true }
        close := .lockCond })
    else none
  | .lockCond =>
    if cond = none then some (some (.close i), { r with close := .finish }) else none
  | .finish =>
    match r.itr.stream with
    -- the stream that is closed is a nil pointer
    | none => some (cond, { r with close := .panicked })
    | some _ => some (none, { r with closeMarkerLock := none, close := .done })
  | _ => none

/-- A call has panicked. -/
def panicked : Bool := r.next = .panicked || r.close = .panicked

/-- A broadcast ends the wait. -/
def wake : Reader := if r.next = .waiting then { r with next := .lockCond } else r

end Reader

/-! ### The process -/

structure System where
  mgr : BlockfileMgr
  cond : Option Holder
  writer : WriterPC
  readers : ℕ → Option Reader
  panicked : Bool

namespace System

/-- A process in which no call is active. -/
def start (mgr : BlockfileMgr) : System := ⟨mgr, none, .idle, fun _ => none, false⟩

variable (hash : Bytes → Bytes) (σ : System)

def setReader (i : ℕ) (r : Reader) : System :=
  { σ with
    readers := Function.update σ.readers i (some r)
    panicked := σ.panicked || r.panicked }

/-- `cpInfoCond.Broadcast` -/
def broadcast : System := { σ with readers := fun i => (σ.readers i).map Reader.wake }

/-- The checkpoint of `moveToNextFile`. -/
def nextCPInfo : CheckpointInfo :=
  ⟨σ.mgr.cpInfo.latestFileChunkSuffixNum + 1, 0, σ.mgr.cpInfo.lastBlockNumber⟩

/-- The checkpoint behind a block. -/
def newCPInfo (b : SizedBlock2) : CheckpointInfo :=
  ⟨σ.mgr.cpInfo.latestFileChunkSuffixNum,
    σ.mgr.cpInfo.latestFileChunksize + (b.bytes.length + (encodeVarint b.bytes.length).length),
    σ.mgr.cpInfo.lastBlockNumber + 1⟩

/-- `addBlock` is called. -/
def beginBlock (b : SizedBlock2) : Option System :=
  if σ.writer = .idle then
    if σ.mgr.maxBlockfileSize < int (uint64 (σ.mgr.cpInfo.latestFileChunksize +
        (b.bytes.length + (encodeVarint b.bytes.length).length))) then
      some { σ with writer := .openNext b }
    else some { σ with writer := .appendLength b }
  else none

/-- An operation of `addBlock`. -/
def stepWriter : Option System :=
  match σ.writer with
  | .idle => none
  | .openNext b =>
    (σ.mgr.disk.openWriter (σ.mgr.cpInfo.latestFileChunkSuffixNum + 1)).map fun disk =>
      { σ with mgr := { σ.mgr with disk }, writer := .saveNext b }
  | .saveNext b =>
    some { σ with
      mgr := { σ.mgr with
        db := σ.mgr.db.put .blkMgrInfo σ.nextCPInfo.marshal
        currentFileWriter := σ.nextCPInfo.latestFileChunkSuffixNum }
      writer := .lockNext b }
  | .lockNext b =>
    if σ.cond = none then some { σ with cond := some .writer, writer := .publishNext b } else none
  | .publishNext b =>
    some (broadcast { σ with
      mgr := { σ.mgr with cpInfo := σ.nextCPInfo }, cond := none, writer := .appendLength b })
  | .appendLength b =>
    (σ.mgr.disk.append σ.mgr.currentFileWriter (encodeVarint b.bytes.length)).map fun disk =>
      { σ with mgr := { σ.mgr with disk }, writer := .appendBlock b }
  | .appendBlock b =>
    (σ.mgr.disk.append σ.mgr.currentFileWriter b.bytes).map fun disk =>
      { σ with mgr := { σ.mgr with disk }, writer := .save b }
  | .save b =>
    some { σ with
      mgr := { σ.mgr with db := σ.mgr.db.put .blkMgrInfo (σ.newCPInfo b).marshal }
      writer := .index b }
  | .index b =>
    let info : BlockIdxInfo :=
      { blockNum := (σ.newCPInfo b).lastBlockNumber
        blockHash := hash b.bytes
        flp := ⟨(σ.newCPInfo b).latestFileChunkSuffixNum, σ.mgr.cpInfo.latestFileChunksize, 0⟩
        txOffsets := (b.block.txOffsets.map Int.ofNat).map
          fun o => o + (encodeVarint b.bytes.length).length }
    some { σ with
      mgr := { σ.mgr with db := indexBlock σ.mgr.attrs info σ.mgr.db }, writer := .lockCond b }
  | .lockCond b =>
    if σ.cond = none then some { σ with cond := some .writer, writer := .publish b } else none
  | .publish b =>
    some (broadcast { σ with
      mgr := { σ.mgr with cpInfo := σ.newCPInfo b }, cond := none, writer := .report b })
  | .report b =>
    some { σ with
      mgr := { σ.mgr with
        bcInfo := ⟨σ.mgr.bcInfo.height + 1, hash b.bytes, b.block.previousBlockHash⟩ }
      writer := .idle }

/-- A call, or the next operation of one. -/
inductive Label
  | addBlock (b : SizedBlock2)
  | write
  | retrieveBlocks (i startNum : ℕ)
  | callNext (i : ℕ)
  | next (i : ℕ)
  | callClose (i : ℕ)
  | close (i : ℕ)

/-- An operation of `Close`, which ends with a broadcast. -/
def stepClose (i : ℕ) (r : Reader) : Option System :=
  (r.stepClose i σ.cond).map fun result =>
    let σ' := { σ.setReader i result.2 with cond := result.1 }
    if result.2.close = .done then σ'.broadcast else σ'

/-- What a label does, if it can happen. -/
def apply : Label → Option System
  | .addBlock b => σ.beginBlock b
  | .write => σ.stepWriter hash
  | .retrieveBlocks i startNum =>
    match σ.readers i with
    | none => some (σ.setReader i (.start σ.mgr startNum))
    | some _ => none
  | .callNext i => (σ.readers i).bind fun r => r.call.map (σ.setReader i)
  | .next i => (σ.readers i).bind fun r =>
    (r.stepNext i σ.mgr σ.cond).map fun result => { σ.setReader i result.2 with cond := result.1 }
  | .callClose i => (σ.readers i).bind fun r => r.callClose.map (σ.setReader i)
  | .close i => (σ.readers i).bind fun r => σ.stepClose i r

/-- A step of the process, unless it has panicked. -/
def step (label : Label) : Option System :=
  if σ.panicked then none else σ.apply hash label

/-- The process after steps that follow each other. -/
def run (labels : List Label) : Option System := labels.foldlM (fun σ label => σ.step hash label) σ

variable {hash σ}

theorem exists_reader {α : Type} {f : Reader → Option α} {g : α → System} {i : ℕ} {σ' : System}
    (h : ((σ.readers i).bind fun r => (f r).map g) = some σ') :
    ∃ r a, σ.readers i = some r ∧ f r = some a ∧ g a = σ' := by
  obtain ⟨r, hr, hmap⟩ := Option.bind_eq_some_iff.mp h
  obtain ⟨a, ha, hg⟩ := Option.map_eq_some_iff.mp hmap
  exact ⟨r, a, hr, ha, hg⟩

theorem run_induction {P : List Label → System → Prop} {labels : List Label} {σ' : System}
    (hnil : P [] σ)
    (hstep : ∀ done label σ₁ σ₂, done ++ [label] <+: labels → σ.run hash done = some σ₁ →
      P done σ₁ → σ₁.step hash label = some σ₂ → P (done ++ [label]) σ₂)
    (hrun : σ.run hash labels = some σ') : P labels σ' := by
  -- along the parts that the run begins with
  have hparts : labels <+: labels → P labels σ' := by
    refine runSteps_induction (P := fun done σ => done <+: labels → P done σ)
      (fun _ => hnil) ?_ (along_of_forall fun _ _ => trivial) hrun
    intro done label σ₁ σ₂ hdone _ ih hlast hbegin
    exact hstep done label σ₁ σ₂ hbegin hdone (ih ((List.prefix_append _ _).trans hbegin)) hlast
  exact hparts List.prefix_rfl

end System

end Fabric.BlockStore
