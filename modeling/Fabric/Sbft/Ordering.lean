import Fabric.Sbft.Xset

/-!
# Ordering requests within a view

The handlers that propose, vote on, execute and deliver a batch: `request.go`,
`preprepare.go`, `prepare.go`, `commit.go`, `execute.go`, `checkpoint.go`, and the
queue of messages that arrive too early, `backlog.go`.

`handleCheckpoint` and `processBacklog` call each other. `processBacklog` is
therefore defined for a bounded number of messages, and
`handleQueueableMessage` takes the remaining processing as an argument.
-/

namespace Fabric.Sbft

variable {β : Type} [DecidableEq β] (P : Primitives β)

/-- Run code without state. -/
def liftE {α : Type} : Except Panic α → M β α
  | .ok a => pure a
  | .error e => throw e

/-- The primary of a view. -/
def SBFT.primaryIDView (s : SBFT β) (v : ℕ) : ℕ := v % s.config.N

/-- The primary of the replica's view. -/
def SBFT.primaryID (s : SBFT β) : ℕ := s.primaryIDView s.view

/-- Whether this replica is the primary. -/
def SBFT.isPrimary (s : SBFT β) : Bool := s.primaryID = s.id

/-- The sequence number of the last delivered batch. -/
def seq : M β ℕ := do
  let s ← get
  let hd ← liftE (decodeHeader P (lastBatch P s.trace))
  pure hd.seq

/-- The position of the next proposal. -/
def nextSeq : M β SeqView := do
  let n ← seq P
  let s ← get
  pure ⟨s.view, uint64 (n + 1)⟩

/-- The sends of a broadcast, latest first. -/
def broadcastEvents (N : ℕ) (m : Msg β) : List (Event β) :=
  ((List.range N).map (Event.send m)).reverse

omit [DecidableEq β] in
@[simp] theorem mem_broadcastEvents {N : ℕ} {m : Msg β} {e : Event β} :
    e ∈ broadcastEvents N m ↔ ∃ dest < N, e = .send m dest := by
  simp [broadcastEvents, eq_comm]

omit [DecidableEq β] in
@[simp] theorem lastBatch_broadcastEvents (N : ℕ) (m : Msg β) (t : List (Event β)) :
    lastBatch P (broadcastEvents N m ++ t) = lastBatch P t := by
  refine lastBatch_append_of_ne P t fun e he b => ?_
  obtain ⟨dest, -, rfl⟩ := mem_broadcastEvents.mp he
  simp

omit [DecidableEq β] in
@[simp] theorem lastSeq_broadcastEvents (N : ℕ) (m : Msg β) (t : List (Event β)) :
    lastSeq P (broadcastEvents N m ++ t) = lastSeq P t := by
  rw [lastSeq, lastBatch_broadcastEvents, lastSeq]

/-- Send a message to every replica, itself included. -/
def broadcast (m : Msg β) : M β Unit :=
  modify fun s => { s with trace := broadcastEvents s.config.N m ++ s.trace }

/-- Vote for the request in flight. -/
def sendPrepare : M β Unit := do
  let s ← get
  broadcast (.prepare s.cur.subject)

/-- Announce that the request in flight is prepared. -/
def sendCommit : M β Unit := do
  modifyCur fun cur => { cur with sentCommit := true }
  let s ← get
  emit (.persist (.commit s.cur.subject))
  broadcast (.commit s.cur.subject)

/-- The number of votes in a possibly nil map. -/
def votes {α : Type} (m : Option (GoMap α)) : ℕ := (m.map fun m => m.size).getD 0

/-- Send the commit once enough prepares are in. -/
def maybeSendCommit : M β Unit := do
  let s ← get
  if s.cur.sentCommit ∨ votes s.cur.prep < s.config.noFaultyQuorum - 1 then return
  sendCommit

/-- Make a proposal the request in flight. -/
def acceptPreprepare (pp : Preprepare β) : M β Unit := do
  let b ← deref pp.batch
  let sv ← deref pp.seq
  emit (.persist (.preprepare pp))
  let timeout ← startTimer .requestTimeout
  modifyCur fun _ =>
    { seq := sv, digest := some (b.hash P), timeout := some timeout, preprep := some pp,
      prep := some ∅, commit := some ∅, sentCommit := false, executed := false,
      checkpoint := some ∅, checkpointDone := false }

/-- Accept a proposal that was found valid, and vote for it. -/
def handleCheckedPreprepare (pp : Preprepare β) : M β Unit := do
  enter (.handleCheckedPreprepare pp)
  acceptPreprepare P pp
  let s ← get
  if ¬ s.isPrimary then sendPrepare
  maybeSendCommit

/-- Handle the primary's proposal. -/
def handlePreprepare (pp : Preprepare β) (src : ℕ) : M β Unit := do
  enter (.handlePreprepare pp src)
  let s ← get
  if src = s.id then return
  if src ≠ s.primaryID then return
  let next ← nextSeq P
  let sv ← deref pp.seq
  if sv ≠ next then return
  if s.cur.seq.seq = sv.seq then return
  let some b := pp.batch | return
  let .ok batchheader := checkBatch P s.config b true false | return
  if batchheader.seq ≠ sv.seq then return
  if P.bytes batchheader.prevHash ≠ (lastBatch P s.trace).hash P then return
  handleCheckedPreprepare P pp

/-- Handle a prepare. -/
def handlePrepare (p : Subject β) (src : ℕ) : M β Unit := do
  enter (.handlePrepare p src)
  let s ← get
  let sv ← deref p.seq
  if sv.seq < s.cur.seq.seq then return
  if p ≠ s.cur.subject then return
  match s.cur.prep with
  | none => throw .nilMapWrite
  | some prep =>
    if src ∈ prep then return
    modifyCur fun cur => { cur with prep := some (prep.insert src p) }
    maybeSendCommit

/-- The replica's checkpoint for the request in flight. -/
def makeCheckpoint : M β (Checkpoint β) := do
  let s ← get
  emit (.signCheckpoint s.cur.subject)
  pure ⟨s.cur.seq.seq, s.cur.digest, P.sign s.id (P.bytes s.cur.digest)⟩

/-- Send the replica's checkpoint to all. -/
def sendCheckpoint : M β Unit := do
  let c ← makeCheckpoint P
  broadcast (.checkpoint c)

/-- Execute the request in flight once enough commits are in. -/
def maybeExecute : M β Unit := do
  let s ← get
  if s.cur.executed ∨ votes s.cur.commit < s.config.noFaultyQuorum then return
  modifyCur fun cur => { cur with executed := true }
  emit (.persist (.execute s.cur.subject))
  sendCheckpoint P

/-- Stop the view change timer. -/
def cancelViewChangeTimer : M β Unit := do
  let s ← get
  cancelTimer s.viewChangeTimer

/-- Handle a commit. -/
def handleCommit (c : Subject β) (src : ℕ) : M β Unit := do
  enter (.handleCommit c src)
  let s ← get
  let sv ← deref c.seq
  if sv.seq < s.cur.seq.seq then return
  if c ≠ s.cur.subject then return
  match s.cur.commit with
  | none => throw .nilMapWrite
  | some commit =>
    if src ∈ commit then return
    modifyCur fun cur => { cur with commit := some (commit.insert src c) }
    cancelViewChangeTimer
    maybeExecute P

/-- Hand a batch to the system and forget its requests. -/
def deliverBatch (b : Batch β) : M β Unit := do
  emit (.deliver b)
  modify fun s => { s with pending := b.payloads.foldl (fun p d => p.erase (P.hash d)) s.pending }

/-- Propose a batch. -/
def sendPreprepare (batch : List (Request β)) : M β Unit := do
  let sv ← nextSeq P
  let s ← get
  let lasthash := P.hash (lastBatch P s.trace).header
  let pp : Preprepare β :=
    ⟨some sv, some (makeBatch P sv.seq (some lasthash) (batch.map Request.payload))⟩
  emit (.persist (.preprepare pp))
  broadcast (.preprepare pp)
  handleCheckedPreprepare P pp

/-- Propose the next batch, if this replica may. -/
def maybeSendNextBatch : M β Unit := do
  let s ← get
  cancelTimer s.batchTimer
  modify fun s => { s with batchTimer := none }
  if ¬ s.isPrimary ∨ ¬ s.activeView then return
  if ¬ s.cur.checkpointDone then return
  let mut batch := s.batch
  if s.batch = [] then
    let pending ← rangeOrder s.pending.entries
    batch := pending.map fun e => e.2
  if batch = [] then return
  modify fun s => { s with batch := [] }
  sendPreprepare P batch

/-- The size of the requests waiting for proposal. -/
def SBFT.batchSize (s : SBFT β) : ℕ := uint64 (s.batch.map fun req => P.len req.payload).sum

/-- Handle a client request. -/
def handleRequest (req : Request β) : M β Unit := do
  modify fun s => { s with pending := s.pending.insert (P.hash req.payload) req }
  let s ← get
  if s.isPrimary ∧ s.activeView then
    modify fun s => { s with batch := s.batch ++ [req] }
    let s ← get
    if s.config.batchSizeBytes ≤ s.batchSize P then
      maybeSendNextBatch P
    else if s.batchTimer = none then
      let timer ← startTimer .maybeSendNextBatch
      modify fun s => { s with batchTimer := some timer }

/-- The digest of the last entry that completes a weak quorum for its digest. -/
def weakDigest (quorum : ℕ) : List (ℕ × Checkpoint β) → List β → Option β → Option β
  | [], _, max => max
  | (_, c) :: entries, seen, max =>
    let sum := P.bytes c.digest
    weakDigest quorum entries (sum :: seen)
      (if quorum ≤ (sum :: seen).count sum then some sum else max)

/-- Handle a checkpoint; a weak quorum for the request in flight delivers it. -/
def handleCheckpoint (backlog : M β Unit) (c : Checkpoint β) (src : ℕ) : M β Unit := do
  enter (.handleCheckpoint c src)
  let s ← get
  if s.cur.checkpointDone then return
  if c.seq < s.cur.seq.seq then return
  if ¬ P.checkSig (P.bytes c.digest) src c.signature then return
  if c.seq ≠ s.cur.seq.seq then return
  match s.cur.checkpoint with
  | none => throw .nilMapWrite
  | some checkpoint =>
    let checkpoint := checkpoint.insert src c
    modifyCur fun cur => { cur with checkpoint := some checkpoint }
    let entries ← rangeOrder checkpoint.toList
    match weakDigest P s.config.oneCorrectQuorum entries [] none with
    | none => return
    | some sum =>
      let replicas := entries.filter fun e => P.bytes e.2.digest = sum
      modifyCur fun cur => { cur with checkpointDone := true }
      if (replicas.head?.map fun e => e.2.digest) ≠ some s.cur.digest then
        throw .weakCheckpointMismatch
      let pp ← deref s.cur.preprep
      let b ← deref pp.batch
      deliverBatch P { b with
        signatures := Std.ExtTreeMap.ofList (replicas.map fun e => (e.1, e.2.signature)) }
      cancelTimer s.cur.timeout
      maybeSendNextBatch P
      backlog

/-- Handle a message that may have waited in a backlog. -/
def handleQueueableMessage (backlog : M β Unit) (m : Msg β) (src : ℕ) : M β Unit :=
  match m with
  | .preprepare pp => handlePreprepare P pp src
  | .prepare p => handlePrepare p src
  | .commit c => handleCommit P c src
  | .checkpoint c => handleCheckpoint P backlog c src
  | _ => pure ()

/-- Whether a position lies ahead of the replica. -/
def record (sv : Option SeqView) : M β Bool := do
  let s ← get
  if ¬ s.activeView then return true
  let sv ← deref sv
  return decide (s.cur.seq.seq < sv.seq ∨ s.view < sv.view)

/-- Whether a message has to wait. The position of a checkpoint is read from an empty message and is
always zero. -/
def testBacklogMessage (m : Msg β) : M β Bool :=
  match m with
  | .preprepare pp => do
    let ahead ← record pp.seq
    let s ← get
    return ahead && !s.cur.checkpointDone
  | .prepare p => record p.seq
  | .commit c => record c.seq
  | .checkpoint _ => record (some ⟨0, 0⟩)
  | _ => pure false

/-- Whether a message has to queue behind earlier ones or has to wait itself. -/
def testBacklog (m : Msg β) (src : ℕ) : M β Bool := do
  let info ← replicaInfo src
  if info.backLog ≠ [] then return true
  testBacklogMessage m

/-- Drop the queued messages of a replica. -/
def discardBacklog (src : ℕ) : M β Unit :=
  modifyInfo src fun info => { info with backLog := [] }

/-- The longest backlog: four sequence numbers with three messages each. -/
def maxBacklog : ℕ := 4 * 3

/-- Queue a message; a backlog that grows too long is dropped, with a reconnection. -/
def recordBacklogMsg (m : Msg β) (src : ℕ) : M β Unit := do
  let s ← get
  if src = s.id then throw .backlogOwnMessage
  modifyInfo src fun info => { info with backLog := info.backLog ++ [m] }
  let info ← replicaInfo src
  if maxBacklog < info.backLog.length then
    discardBacklog src
    emit (.reconnect src)

/-- Handle the queued messages of a replica while they are ready, and report if there were any. -/
def drain (handle : Msg β → ℕ → M β Unit) (src : ℕ) : ℕ → M β Bool
  | 0 => pure false
  | n + 1 => do
    let info ← replicaInfo src
    match info.backLog with
    | [] => pure false
    | m :: rest =>
      if ← testBacklogMessage m then return false
      modifyInfo src fun info => { info with backLog := rest }
      handle m src
      let _ ← drain handle src n
      return true

/-- One pass over the replicas from `src` on. -/
def drainAll (handle : Msg β → ℕ → M β Unit) : List ℕ → M β Bool
  | [] => pure false
  | src :: srcs => do
    let info ← replicaInfo src
    let processed ← drain handle src info.backLog.length
    let rest ← drainAll handle srcs
    return processed || rest

/-- Handle queued messages until none is ready, with at most so many passes. -/
def processBacklogFuel : ℕ → M β Unit
  | 0 => pure ()
  | n + 1 => do
    let s ← get
    let processed ← drainAll (handleQueueableMessage P (processBacklogFuel n))
      (List.range s.replicaState.length)
    if processed then processBacklogFuel n

/-- The number of queued messages. -/
def SBFT.backlogSize (s : SBFT β) : ℕ := (s.replicaState.map fun info => info.backLog.length).sum

/-- Handle queued messages until none is ready. Every pass but the last handles one. -/
def processBacklog : M β Unit := do
  let s ← get
  processBacklogFuel P (s.backlogSize + 1)

end Fabric.Sbft
